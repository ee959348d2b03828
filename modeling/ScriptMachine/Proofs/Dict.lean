import Mathlib.Data.List.Sort
import ScriptMachine.Dict

/-! Maps listed by their keys. The list depends on what the map answers, and not on the order in
which the answers have come into it. -/

namespace ScriptMachine

namespace Dict

variable {α β γ : Type} {d : Dict α} {e : Dict β} {key : String}

theorem sorted_keys (d : Dict α) : d.keys.Pairwise (· < ·) :=
  List.pairwise_map.mpr d.sorted_entries

theorem mem_keys_iff : key ∈ d.keys ↔ (d.get? key).isSome := by
  rw [Option.isSome_iff_exists]
  simp only [keys, List.mem_map, Prod.exists, mem_entries_iff, exists_and_right, exists_eq_right]

theorem keys_congr (h : ∀ key, (d.get? key).isSome = (e.get? key).isSome) : d.keys = e.keys :=
  d.sorted_keys.eq_of_mem_iff e.sorted_keys fun key => by rw [mem_keys_iff, mem_keys_iff, h]

/-- Two maps with the same keys are listed alike if what they have for the same key is listed
alike. -/
theorem map_entries_congr {f : String × α → γ} {g : String × β → γ}
    (hkeys : ∀ key, (d.get? key).isSome = (e.get? key).isSome)
    (hvalues : ∀ key v w, d.get? key = some v → e.get? key = some w → f (key, v) = g (key, w)) :
    d.entries.map f = e.entries.map g := by
  have hsame : d.keys = e.keys := keys_congr hkeys
  have hlength : d.entries.length = e.entries.length := by
    simpa [keys] using congrArg List.length hsame
  refine List.ext_getElem (by simpa using hlength) fun i hi hi' => ?_
  rw [List.length_map] at hi hi'
  have hkey : (d.entries[i]).1 = (e.entries[i]).1 := by
    have hget := congrArg (·[i]?) hsame
    simpa [keys, hi, hi'] using hget
  have hd : d.get? (d.entries[i]).1 = some (d.entries[i]).2 :=
    mem_entries_iff.mp (List.getElem_mem hi)
  have he : e.get? (d.entries[i]).1 = some (e.entries[i]).2 := by
    rw [hkey]
    exact mem_entries_iff.mp (List.getElem_mem hi')
  rw [List.getElem_map, List.getElem_map]
  exact (hvalues _ _ _ hd he).trans (by rw [hkey])

end Dict

end ScriptMachine
