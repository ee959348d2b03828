import ScriptMachine.Proofs.Heap.Likeness
import ScriptMachine.Proofs.Scope.Mutation
import ScriptMachine.Proofs.Scope.Rendering

/-! What is shown of maps and scopes depends on what they have come to, and not on the way there. -/

namespace ScriptMachine

variable {h k : Heap} {i j : MapId} {a b : String → Option Value} {s t : Scopes} {e p : ScopeId}
  {l r : List ScopeId}

/-- What is told of a map follows from the values that its history has left under each key. What is
shown of a scope follows from what the scopes on the way outward bind in the end, and this from what
the mutations say: the names of each scope in order, one to a line, the read-only ones marked,
further in the further outward the scope is, and under a heading that tells the outermost scope from
the others. -/
theorem rendering_forgets_history (hi : h.Recorded i a) (hj : k.Recorded j b)
    (hs : s.WayOut e l) (ht : t.WayOut p r) (ms ns : List Scopes.Mutation) :
    ((∀ key, Option.Rel (h.Resembles k) (a key) (b key)) → h.Closed (.map i) →
      k.Closed (.map j) → h.ToldAlike k (.map i) (.map j)) ∧
    (a = b → (∀ key, h.loadIndex (.map i) key = k.loadIndex (.map j) key) ∧
      (∀ name, h.loadAttribute (.map i) name = k.loadAttribute (.map j) name) ∧
      (h = k → ∀ label, h.inspect label (.map i) = k.inspect label (.map j))) ∧
    (∀ inspect inspect', List.Forall₂
        (Scopes.BindsAlike inspect inspect' (s.mutateAll ms) (t.mutateAll ns)) l r →
      (∀ indent, (s.mutateAll ms).dump inspect e indent = (t.mutateAll ns).dump inspect' p indent) ∧
        (s.mutateAll ms).debug e = (t.mutateAll ns).debug p) ∧
    (s.mutateAll ms).LaidOut e l ∧
    ((∀ m ∈ ms, m.scope < s.cells.size) →
      (s.mutateAll ms).binding? = ms.foldl (Scopes.Mutation.change s.chain) s.binding?) := by
  have hs' := hs.mutateAll ms
  have ht' := ht.mutateAll ns
  refine ⟨fun hends => (hi.resembles hj hends).toldAlike_map, ?_, fun _ _ hends => ?_, hs'.laidOut,
    Scopes.binding?_mutateAll⟩
  · rintro rfl
    have hfields := hi.fields_eq hj
    refine ⟨fun key => ?_, fun name => ?_, ?_⟩
    · cases key with
      | string name => rw [Heap.loadIndex, Heap.loadIndex, hfields]
      | _ => rfl
    · rw [Heap.loadAttribute, Heap.loadAttribute, hfields]
    · rintro rfl label
      rw [Heap.inspect, Heap.inspect]
      cases h.containers with
      | zero => rfl
      | succ depth => rw [Heap.inspectTo, Heap.inspectTo, hfields]
  · exact ⟨fun _ => Scopes.dump_congr hs' ht' hends, Scopes.debug_congr hs' ht' hends⟩

/-- A map that is made with its entries and one that gets them one by one; bindings that are made
at once, and bindings that are made anew in another order. -/
theorem rendering_forgets_history_reordered :
    let h : Heap := (({} : Heap).newMap (Dict.ofList [("b", .null), ("a", .boolean true)])).2
    let k : Heap := (({} : Heap).newMap (Dict.ofList [("a", .null)])).2
    let s : Scopes := ⟨#[{}, { parent := some 0 }]⟩
    let ms : List Scopes.Mutation := [.create 1 "x" .null, .createConst 1 "y" (.boolean true)]
    let ns : List Scopes.Mutation := [.create 1 "y" .null, .unset 1 "y",
      .createConst 1 "y" (.boolean true), .setForce 1 "x" .null false]
    ∃ k' l : Heap, k.storeIndex (.map 0) (.string "b") .null = .ok k' ∧
      k'.storeAttribute (.map 0) "a" (.boolean true) = .ok l ∧
      h.ToldAlike l (.map 0) (.map 0) ∧ ∀ inspect indent,
        (s.mutateAll ms).dump inspect 1 indent = (s.mutateAll ns).dump inspect 1 indent := by
  intro h k s ms ns
  have hi : h.Recorded 0 (Heap.lastValue [("b", .null), ("a", .boolean true)]) := .made _ _
  have hj := Heap.Recorded.made {} [("a", .null)]
  have hindex : k.storeIndex (.map 0) (.string "b") .null =
      .ok (k.write .null (.field 0 "b")) := rfl
  have hattribute : (k.write .null (.field 0 "b")).storeAttribute (.map 0) "a" (.boolean true) =
      .ok ((k.write .null (.field 0 "b")).write (.boolean true) (.field 0 "a")) := rfl
  have hl := (hj.storedIndex hindex).storedAttribute hattribute
  have hway : s.WayOut 1 [1, 0] := .inside rfl (.outermost (by decide) rfl)
  have hends (key : String) : Option.Rel (h.Resembles ((k.write .null (.field 0 "b")).write
      (.boolean true) (.field 0 "a"))) (Heap.lastValue [("b", .null), ("a", .boolean true)] key)
      (if key = "a" then some (.boolean true) else if key = "b" then some .null
        else Heap.lastValue [("a", .null)] key) := by
    by_cases ha : key = "a"
    · subst ha
      exact .some (.leaf rfl)
    by_cases hb : key = "b"
    · subst hb
      exact .some (.leaf rfl)
    · simp [Heap.lastValue, ha, hb, Ne.symm ha, Ne.symm hb]
  have hbinds (d : ScopeId) (name : String) :
      (s.mutateAll ms).binding? d name = (s.mutateAll ns).binding? d name := by
    have hms : s.mutateAll ms = (s.bind 1 "x" ⟨.null, false⟩).bind 1 "y" ⟨.boolean true, true⟩ :=
      rfl
    have hns : s.mutateAll ns = (((s.bind 1 "y" ⟨.null, false⟩).unbind 1 "y").bind 1 "y"
        ⟨.boolean true, true⟩).bind 1 "x" ⟨.null, false⟩ := rfl
    rw [hms, hns, Scopes.binding?_bind (by simp [s]), Scopes.binding?_bind (by simp [s]),
      Scopes.binding?_bind (by simp [s]), Scopes.binding?_bind (by simp [s]),
      Scopes.binding?_unbind, Scopes.binding?_bind (by simp [s])]
    grind
  have halike (inspect : Value → String) (d : ScopeId) :
      Scopes.BindsAlike inspect inspect (s.mutateAll ms) (s.mutateAll ns) d d := by
    intro name
    rw [hbinds]
    cases (s.mutateAll ns).binding? d name with
    | none => exact .none
    | some b => exact .some ⟨rfl, rfl⟩
  obtain ⟨htold, -, hdump, -⟩ := rendering_forgets_history hi hl hway hway ms ns
  refine ⟨_, _, hindex, hattribute, htold hends (hi.closed fun key v hv => ?_)
    (hl.closed fun key v hv => ?_), fun inspect indent => ?_⟩
  · refine .of_leaf ?_
    simp only [Heap.lastValue] at hv
    grind [Value.isContainer]
  · refine .of_leaf ?_
    simp only [Heap.lastValue] at hv
    grind [Value.isContainer]
  · exact (hdump inspect inspect (.cons (halike inspect 1) (.cons (halike inspect 0) .nil))).1 indent

end ScriptMachine
