import ScriptMachine.Config.Document
import ScriptMachine.Proofs.Json.Record
import ScriptMachine.Proofs.Json.Writing

/-! Configurations and the texts that describe them: a text may list the fields in any order, leave
out those that have their defaults, and contain anything else besides. -/

namespace ScriptMachine

namespace Json

/-! ### Documents that describe a configuration -/

def DescribesLevel (l : Level) (j : Json) : Prop :=
  (∃ s, j = .text s ∧ decode? s = some l.word.toList) ∨
    ∃ key, j = .object [(key, .null)] ∧ decode? key = some l.word.toList

def DescribesOptional (l : Option Level) (j : Json) : Prop :=
  match l with
  | none => j = .null
  | some l => DescribesLevel l j

structure DescribesLog (c : LogConfig) (j : Json) : Prop where
  readable : j.Readable
  global : j.Gives "global" (DescribesLevel c.global) (c.global = .info)
  compiler : j.Gives "compiler" (DescribesOptional c.compiler) (c.compiler = none)
  vm : j.Gives "vm" (DescribesOptional c.vm) (c.vm = none)

structure DescribesLimits (l : Limits) (j : Json) : Prop where
  readable : j.Readable
  maxStackSize : j.Gives "max_stack_size" (· = .ofNat l.maxStackSize) (l.maxStackSize = 1024)
  maxRecursionDepth :
    j.Gives "max_recursion_depth" (· = .ofNat l.maxRecursionDepth) (l.maxRecursionDepth = 256)

structure DescribesMachine (l : Limits) (j : Json) : Prop where
  readable : j.Readable
  limits : j.Gives "limits" (DescribesLimits l) (l = {})

structure DescribesAssembler (debugInfo : Bool) (j : Json) : Prop where
  readable : j.Readable
  debugInfo : j.Gives "emit_debug_info" (· = .bool debugInfo) (debugInfo = true)

/-- Every field is given once, or left out if it has its default value. The order of the fields does
not matter, and other members may be anything. -/
structure Describes (c : Config) (j : Json) : Prop where
  readable : j.Readable
  log : j.Gives "log" (DescribesLog c.log) (c.log = {})
  vm : j.Gives "vm" (DescribesMachine c.limits) (c.limits = {})
  compiler : j.Gives "compiler" (DescribesAssembler c.debugInfo) (c.debugInfo = true)

/-! ### Reading -/

variable {c : Config} {j : Json}

theorem level?_of_describes {l : Level} (h : DescribesLevel l j) : j.level? = some l := by
  have hword : Level.ofWord? (String.ofList l.word.toList) = some l := by
    cases l <;> rfl
  rcases h with ⟨s, rfl, hs⟩ | ⟨key, rfl, hkey⟩
  · simpa [level?, text?, hs] using hword
  · simpa [level?, hkey] using hword

theorem optionalLevel?_of_describes {l : Option Level} (h : DescribesOptional l j) :
    j.optionalLevel? = some l := by
  cases l with
  | none =>
      cases h
      rfl
  | some l =>
      have hlevel := level?_of_describes h
      rcases h with ⟨s, rfl, -⟩ | ⟨key, rfl, -⟩ <;> simp [optionalLevel?, hlevel]

theorem limit?_ofNat {n : Nat} (h : n < UInt64.size) : (ofNat n).limit? = some n := by
  simp [limit?, nat?_ofNat, h]

theorem logConfig?_of_describes {c : LogConfig} (h : DescribesLog c j) :
    j.logConfig? = some c := by
  obtain ⟨record, hrecord, hlookup⟩ :=
    exists_record? ["global", "compiler", "vm"] h.readable (by
      simp [h.global.length_le, h.compiler.length_le, h.vm.length_le])
  have hglobal := h.global.field_eq (hlookup _ (by simp)) id fun _ => level?_of_describes
  have hcompiler := h.compiler.field_eq (hlookup _ (by simp)) id
    fun _ => optionalLevel?_of_describes
  have hvm := h.vm.field_eq (hlookup _ (by simp)) id fun _ => optionalLevel?_of_describes
  simp [logConfig?, hrecord, hglobal, hcompiler, hvm]

theorem limits?_of_describes {l : Limits} (h : DescribesLimits l j)
    (hstack : l.maxStackSize < UInt64.size) (hdepth : l.maxRecursionDepth < UInt64.size) :
    j.limits? = some l := by
  obtain ⟨record, hrecord, hlookup⟩ :=
    exists_record? ["max_stack_size", "max_recursion_depth"] h.readable (by
      simp [h.maxStackSize.length_le, h.maxRecursionDepth.length_le])
  have hstack := h.maxStackSize.field_eq (hlookup _ (by simp)) id
    fun _ hv => hv ▸ limit?_ofNat hstack
  have hdepth := h.maxRecursionDepth.field_eq (hlookup _ (by simp)) id
    fun _ hv => hv ▸ limit?_ofNat hdepth
  simp [limits?, hrecord, hstack, hdepth]

theorem machineLimits?_of_describes {l : Limits} (h : DescribesMachine l j)
    (hstack : l.maxStackSize < UInt64.size) (hdepth : l.maxRecursionDepth < UInt64.size) :
    j.machineLimits? = some l := by
  obtain ⟨record, hrecord, hlookup⟩ :=
    exists_record? ["limits"] h.readable (by simp [h.limits.length_le])
  have hlimits := h.limits.field_eq (hlookup _ (by simp)) id
    fun _ hv => limits?_of_describes hv hstack hdepth
  simp [machineLimits?, hrecord, hlimits]

theorem debugInfo?_of_describes {debugInfo : Bool} (h : DescribesAssembler debugInfo j) :
    j.debugInfo? = some debugInfo := by
  obtain ⟨record, hrecord, hlookup⟩ :=
    exists_record? ["emit_debug_info"] h.readable (by simp [h.debugInfo.length_le])
  have hbool (v : Json) (hv : v = .bool debugInfo) : v.bool? = some debugInfo := by
    rw [hv, bool?]
  have hdebug := h.debugInfo.field_eq (hlookup _ (by simp)) id hbool
  simp [debugInfo?, hrecord, hdebug]

/-- A document is read as the configuration that it describes. -/
theorem config?_of_describes (h : Describes c j) (hstack : c.limits.maxStackSize < UInt64.size)
    (hdepth : c.limits.maxRecursionDepth < UInt64.size) : j.config? = some c := by
  obtain ⟨record, hrecord, hlookup⟩ :=
    exists_record? ["log", "vm", "compiler"] h.readable (by
      simp [h.log.length_le, h.vm.length_le, h.compiler.length_le])
  have hlog := h.log.field_eq (hlookup _ (by simp)) id fun _ => logConfig?_of_describes
  have hvm := h.vm.field_eq (hlookup _ (by simp)) id
    fun _ hv => machineLimits?_of_describes hv hstack hdepth
  have hcompiler := h.compiler.field_eq (hlookup _ (by simp)) id
    fun _ => debugInfo?_of_describes
  simp [config?, hrecord, hlog, hvm, hcompiler]

/-! ### Fields that are given twice -/

/-- An object gives one of the fields more than once. -/
def GivesTwice (names : List String) (j : Json) : Prop :=
  ∃ name ∈ names, 2 ≤ (j.values name).length

/-- Some object of a document gives one of its fields more than once. -/
inductive Repeats (j : Json) : Prop where
  | top : GivesTwice ["log", "vm", "compiler"] j → Repeats j
  | log {v : Json} : v ∈ j.values "log" → GivesTwice ["global", "compiler", "vm"] v → Repeats j
  | vm {v : Json} : v ∈ j.values "vm" → GivesTwice ["limits"] v → Repeats j
  | limits {v w : Json} : v ∈ j.values "vm" → w ∈ v.values "limits" →
      GivesTwice ["max_stack_size", "max_recursion_depth"] w → Repeats j
  | compiler {v : Json} : v ∈ j.values "compiler" → GivesTwice ["emit_debug_info"] v → Repeats j

theorem GivesTwice.record?_eq_none {names : List String} (h : GivesTwice names j) :
    j.record? names = none := by
  obtain ⟨name, hname, htwice⟩ := h
  exact Json.record?_eq_none hname htwice

/-- A record with a field that cannot be read. -/
theorem field_eq_none {α : Type} {names : List String} {record : List (String × Json)}
    {name : String} {v : Json} (default : α) {read : Json → Option α}
    (h : j.record? names = some record) (hname : name ∈ names) (hv : v ∈ j.values name)
    (hread : read v = none) : field record name default read = none := by
  rw [field, (lookup_of_record? h hname hv).2]
  exact hread

theorem machineLimits?_of_repeats {w : Json} (hw : w ∈ j.values "limits")
    (htwice : GivesTwice ["max_stack_size", "max_recursion_depth"] w) :
    j.machineLimits? = none := by
  rw [machineLimits?]
  cases hrecord : j.record? ["limits"] with
  | none => rfl
  | some record =>
      exact field_eq_none _ hrecord (by simp) hw (by simp [limits?, htwice.record?_eq_none])

/-- A document that gives a field twice is read as no configuration. -/
theorem config?_of_repeats (h : Repeats j) : j.config? = none := by
  rw [config?]
  cases hrecord : j.record? ["log", "vm", "compiler"] with
  | none => rfl
  | some record =>
      cases h with
      | top htwice => simp [htwice.record?_eq_none] at hrecord
      | log hv htwice =>
          have hfield := field_eq_none {} hrecord (by simp) hv
            (show logConfig? _ = none by simp [logConfig?, htwice.record?_eq_none])
          simp [hfield]
      | vm hv htwice =>
          have hfield := field_eq_none {} hrecord (by simp) hv
            (show machineLimits? _ = none by simp [machineLimits?, htwice.record?_eq_none])
          simp [hfield]
      | limits hv hw htwice =>
          have hfield := field_eq_none {} hrecord (by simp) hv (machineLimits?_of_repeats hw htwice)
          simp [hfield]
      | compiler hv htwice =>
          have hfield := field_eq_none true hrecord (by simp) hv
            (show debugInfo? _ = none by simp [debugInfo?, htwice.record?_eq_none])
          simp [hfield]

/-! ### Writing -/

/-- A character that is spelled by itself. -/
def isPlain (c : Char) : Bool :=
  decide (0x20 ≤ c.toNat) && c != '"' && c != '\\'

theorem spelling_of_plain {s : List Char} (h : s.all isPlain) :
    Spelling s ∧ decode? s = some s := by
  induction s with
  | nil => exact ⟨.nil, rfl⟩
  | cons c s ih =>
      obtain ⟨hc, hs⟩ : isPlain c ∧ s.all isPlain := by simpa using h
      obtain ⟨hspelling, hdecode⟩ := ih hs
      simp only [isPlain, Bool.and_eq_true, decide_eq_true_eq, bne_iff_ne] at hc
      obtain ⟨⟨hlow, hquote⟩, hslash⟩ := hc
      exact ⟨.plain hlow hquote hslash hspelling, by simp [decode?, hslash, hdecode]⟩

theorem spelling_word (l : Level) :
    Spelling l.word.toList ∧ decode? l.word.toList = some l.word.toList :=
  spelling_of_plain (by cases l <;> rfl)

theorem describes_levelDocument (l : Level) : DescribesLevel l (Config.levelDocument l) :=
  .inl ⟨_, rfl, (spelling_word l).2⟩

theorem describes_optionalDocument (l : Option Level) :
    DescribesOptional l (Config.optionalDocument l) := by
  cases l with
  | none => rfl
  | some l => exact describes_levelDocument l

theorem describes_document (c : Config) : Describes c c.document where
  readable := readable_object rfl
  log := .inl ⟨_, rfl,
    { readable := readable_object rfl
      global := .inl ⟨_, rfl, describes_levelDocument _⟩
      compiler := .inl ⟨_, rfl, describes_optionalDocument _⟩
      vm := .inl ⟨_, rfl, describes_optionalDocument _⟩ }⟩
  vm := .inl ⟨_, rfl,
    { readable := readable_object rfl
      limits := .inl ⟨_, rfl,
        { readable := readable_object rfl
          maxStackSize := .inl ⟨_, rfl, rfl⟩
          maxRecursionDepth := .inl ⟨_, rfl, rfl⟩ }⟩ }⟩
  compiler := .inl ⟨_, rfl,
    { readable := readable_object rfl
      debugInfo := .inl ⟨_, rfl, rfl⟩ }⟩

/-- An object with plain names. -/
theorem wellSpelled_object {members : List (List Char × Json)}
    (hplain : members.all fun m => m.1.all isPlain) (h : ∀ m ∈ members, WellSpelled m.2) :
    (Json.object members).WellSpelled :=
  .object (fun m hm => (spelling_of_plain (List.all_eq_true.mp hplain m hm)).1) h

theorem wellSpelled_levelDocument (l : Level) : (Config.levelDocument l).WellSpelled :=
  .text (spelling_word l).1

theorem wellSpelled_optionalDocument (l : Option Level) :
    (Config.optionalDocument l).WellSpelled := by
  cases l with
  | none => exact .null
  | some l => exact wellSpelled_levelDocument l

theorem wellSpelled_ofNat (n : Nat) : (ofNat n).WellSpelled :=
  ofNat_eq n ▸ .number (numeral_toDigits n)

theorem wellSpelled_document (c : Config) : c.document.WellSpelled := by
  have hlog : (Json.object [
      ("global".toList, Config.levelDocument c.log.global),
      ("compiler".toList, Config.optionalDocument c.log.compiler),
      ("vm".toList, Config.optionalDocument c.log.vm)]).WellSpelled := by
    refine wellSpelled_object rfl (List.forall_mem_cons.mpr ⟨wellSpelled_levelDocument _, ?_⟩)
    exact List.forall_mem_cons.mpr ⟨wellSpelled_optionalDocument _,
      List.forall_mem_singleton.mpr (wellSpelled_optionalDocument _)⟩
  have hlimits : (Json.object [
      ("max_stack_size".toList, .ofNat c.limits.maxStackSize),
      ("max_recursion_depth".toList, .ofNat c.limits.maxRecursionDepth)]).WellSpelled :=
    wellSpelled_object rfl (List.forall_mem_cons.mpr
      ⟨wellSpelled_ofNat _, List.forall_mem_singleton.mpr (wellSpelled_ofNat _)⟩)
  have hvm : (Json.object [("limits".toList, .object [
      ("max_stack_size".toList, .ofNat c.limits.maxStackSize),
      ("max_recursion_depth".toList, .ofNat c.limits.maxRecursionDepth)])]).WellSpelled :=
    wellSpelled_object rfl (List.forall_mem_singleton.mpr hlimits)
  have hcompiler : (Json.object [("emit_debug_info".toList, .bool c.debugInfo)]).WellSpelled :=
    wellSpelled_object rfl (List.forall_mem_singleton.mpr (.bool _))
  exact wellSpelled_object rfl (List.forall_mem_cons.mpr ⟨hlog, List.forall_mem_cons.mpr
    ⟨hvm, List.forall_mem_singleton.mpr hcompiler⟩⟩)

end Json

/-! ### The round trip -/

namespace Config

/-- The first limit that is zero is refused. -/
def checked (c : Config) : Except ConfigError Config :=
  if c.limits.maxStackSize = 0 then .error (.invalidLimit .maxStackSize)
  else if c.limits.maxRecursionDepth = 0 then .error (.invalidLimit .maxRecursionDepth)
  else .ok c

theorem parse_of_spelledBy {j : Json} {s : String} (h : j.SpelledBy s) :
    parse s = match j.config? with
      | none => .error .malformed
      | some c => c.checked := by
  rw [parse, Json.parse?_of_spelledBy h, Option.bind_some]
  cases j.config? with
  | none => rfl
  | some c =>
      by_cases hstack : c.limits.maxStackSize = 0
      · simp [Limits.invalid?, checked, hstack]
      · by_cases hdepth : c.limits.maxRecursionDepth = 0 <;>
          simp [Limits.invalid?, checked, hstack, hdepth]

/-- A configuration is read from what is written for it, and from every other text that describes
it; a text that gives a field twice is refused. -/
theorem parse_of_describes {c : Config} (hstack : c.limits.maxStackSize < UInt64.size)
    (hdepth : c.limits.maxRecursionDepth < UInt64.size) :
    parse c.print = c.checked ∧
      (∀ j s, Json.Describes c j → j.SpelledBy s → parse s = c.checked) ∧
      ∀ j s, Json.Repeats j → j.SpelledBy s → parse s = .error .malformed := by
  have hdescribed (j : Json) (s : String) (hj : Json.Describes c j) (hs : j.SpelledBy s) :
      parse s = c.checked := by
    rw [parse_of_spelledBy hs, Json.config?_of_describes hj hstack hdepth]
  refine ⟨hdescribed _ _ (Json.describes_document c)
    (Json.wellSpelled_document c).spelledBy_pretty, hdescribed, fun j s hj hs => ?_⟩
  rw [parse_of_spelledBy hs, Json.config?_of_repeats hj]

/-- A text with two fields in another order, a member that is no field, and nothing else; and a text
that gives a field twice. -/
theorem parse_rearranged :
    let c : Config := { limits := { maxRecursionDepth := 16 }, log := { vm := some .debug } }
    let j : Json := .object [
      ("vm".toList, .object [
        ("limits".toList, .object [("max_recursion_depth".toList, .ofNat 16)])]),
      ("unknown".toList, .array [.null, .null]),
      ("log".toList, .object [("vm".toList, .text "debug".toList)])]
    let twice : Json := .object [("vm".toList, .object []), ("vm".toList, .null)]
    Json.Describes c j ∧ parse (String.ofList (Json.pretty 0 j)) = .ok c ∧
      Json.Repeats twice ∧ parse (String.ofList (Json.pretty 0 twice)) = .error .malformed := by
  intro c j twice
  have hdescribes : Json.Describes c j :=
    { readable := Json.readable_object rfl
      log := .inl ⟨_, rfl,
        { readable := Json.readable_object rfl
          global := .inr ⟨rfl, rfl⟩
          compiler := .inr ⟨rfl, rfl⟩
          vm := .inl ⟨_, rfl, Json.describes_levelDocument .debug⟩ }⟩
      vm := .inl ⟨_, rfl,
        { readable := Json.readable_object rfl
          limits := .inl ⟨_, rfl,
            { readable := Json.readable_object rfl
              maxStackSize := .inr ⟨rfl, rfl⟩
              maxRecursionDepth := .inl ⟨_, rfl, rfl⟩ }⟩ }⟩
      compiler := .inr ⟨rfl, rfl⟩ }
  have hrepeats : Json.Repeats twice := .top ⟨"vm", by simp, by decide⟩
  have hlog : (Json.object [("vm".toList, .text "debug".toList)]).WellSpelled :=
    Json.wellSpelled_object rfl
      (List.forall_mem_singleton.mpr (Json.wellSpelled_levelDocument .debug))
  have hlimits : (Json.object [("max_recursion_depth".toList, .ofNat 16)]).WellSpelled :=
    Json.wellSpelled_object rfl (List.forall_mem_singleton.mpr (Json.wellSpelled_ofNat 16))
  have hvm : (Json.object [("limits".toList,
      .object [("max_recursion_depth".toList, .ofNat 16)])]).WellSpelled :=
    Json.wellSpelled_object rfl (List.forall_mem_singleton.mpr hlimits)
  have hunknown : (Json.array [.null, .null]).WellSpelled :=
    .array (List.forall_mem_cons.mpr ⟨.null, List.forall_mem_singleton.mpr .null⟩)
  have hj : j.WellSpelled := Json.wellSpelled_object rfl (List.forall_mem_cons.mpr
    ⟨hvm, List.forall_mem_cons.mpr ⟨hunknown, List.forall_mem_singleton.mpr hlog⟩⟩)
  have htwice : twice.WellSpelled := Json.wellSpelled_object rfl (List.forall_mem_cons.mpr
    ⟨Json.wellSpelled_object rfl (by simp), List.forall_mem_singleton.mpr .null⟩)
  obtain ⟨-, hdescribed, hrepeated⟩ := parse_of_describes (c := c) (by decide) (by decide)
  exact ⟨hdescribes, hdescribed j _ hdescribes hj.spelledBy_pretty, hrepeats,
    hrepeated twice _ hrepeats htwice.spelledBy_pretty⟩

end Config

end ScriptMachine
