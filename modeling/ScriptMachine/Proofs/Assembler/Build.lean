import ScriptMachine.Proofs.Assembler.Growth
import ScriptMachine.Proofs.Sequence

/-! Decoding undoes assembling. A finished block holds exactly the instructions that its calls asked
for, with every label at the offset to which it was bound last; and a block cannot be finished
exactly if some label that was used has no such offset, or one that does not fit. -/

namespace ScriptMachine

variable {a : Assembler} {steps : List Directive}

/-! ### Labels -/

/-- A step that leaves the labels as they are. -/
abbrev KeepsLabels {α : Type} (step : Assembly α) : Prop :=
  Keeps (·.labels) step

namespace KeepsLabels

theorem silently {step : Assembly Unit} (h : KeepsLabels step) :
    KeepsLabels (Directive.silently step) :=
  h.bind fun _ => .pure _

theorem appended (o : Opcode) (x : Operand) :
    KeepsLabels (modify (·.appended o x) : Assembly Unit) := by
  refine .modify fun a => ?_
  obtain ⟨_, _, _, _, heq⟩ := a.appended_eq o x
  rw [heq]

theorem emit (o : Opcode) : KeepsLabels (Assembly.emit o) := by
  rw [Assembly.emit]
  split
  · exact appended _ _
  · exact .throw _

theorem emitArg (o : Opcode) (arg : Nat) : KeepsLabels (Assembly.emitArg o arg) := by
  rw [Assembly.emitArg]
  split
  · split
    · exact appended _ _
    · exact .throw _
  · split
    · exact appended _ _
    · exact .throw _
  · exact .throw _

theorem look {α : Type} (g : Assembler → Except AssemblyError α) :
    KeepsLabels (Assembly.look g) := by
  refine Keeps.look (g := g) fun a => ?_
  rw [Assembly.look]
  cases g a <;> rfl

theorem addConstant (v : Value) : KeepsLabels (Assembly.addConstant v) :=
  (look _).bind fun _ => .bind (.modify fun _ => rfl) fun _ => .pure _

theorem addName (s : String) : KeepsLabels (Assembly.addName s) :=
  (look _).bind fun _ => .bind (.modify fun _ => rfl) fun _ => .pure _

theorem addLocal (s : String) : KeepsLabels (Assembly.addLocal s) :=
  (look _).bind fun _ => .bind (.modify fun _ => rfl) fun _ => .pure _

theorem patchLast (label : Nat) (forward : Bool) : KeepsLabels (Assembly.patchLast label forward) :=
  .modify fun _ => rfl

theorem jump (o : Opcode) (label : Nat) : KeepsLabels (Assembly.jump o label) := by
  rw [Assembly.jump]
  split
  · exact (emitArg _ _).bind fun _ => patchLast _ _
  · exact .throw _

/-- Only making and binding labels touches them. -/
theorem perform {d : Directive} (hnew : d ≠ .newLabel) (hbinds : ∀ label, d.binds label = false) :
    KeepsLabels d.perform := by
  cases d with
  | newLabel => exact absurd rfl hnew
  | bind label | bindCatch label => simp [Directive.binds] at hbinds
  | emit o | binary op => exact silently (emit _)
  | emitArg o arg | compare op | call argc => exact silently (emitArg _ _)
  | loadConst v => exact silently ((addConstant v).bind fun _ => emitArg _ _)
  | localOp o s => exact silently ((addLocal s).bind fun _ => emitArg _ _)
  | nameOp o s => exact silently ((addName s).bind fun _ => emitArg _ _)
  | jump o label | startTry label => exact silently (jump _ _)
  | jumpForward label => exact silently ((emitArg _ _).bind fun _ => patchLast _ _)
  | startLoop first second =>
      refine silently (.modify fun a => ?_)
      obtain ⟨_, _, _, _, heq⟩ := a.appended_eq .startLoop (.pair 0 0)
      rw [heq]
      rfl
  | adjust delta => exact silently (.modify fun _ => rfl)
  | addConstant v => exact (addConstant v).map some
  | addName s => exact (addName s).map some
  | addLocal s => exact (addLocal s).map some

end KeepsLabels

theorem labels_after {d : Directive} (h : KeepsLabels d.perform) (a : Assembler) :
    (d.after a).labels = a.labels := by
  rw [Directive.after]
  cases hperform : d.perform a with
  | ok r a' => exact h.ok hperform
  | error y a' => exact h.error hperform

theorem boundIn_setIfInBounds (labels : Array (Option Nat)) (l label offset : Nat) :
    Patch.boundIn (labels.setIfInBounds l (some offset)) label =
      if l = label ∧ label < labels.size then some offset else Patch.boundIn labels label := by
  simp only [Patch.boundIn, Array.getElem?_setIfInBounds]
  by_cases h : l = label
  · subst h
    by_cases hin : l < labels.size <;> simp [hin]
  · simp [h]

/-- A call that binds a label binds it to the offset of the call, and every other label stays as it
is. -/
theorem boundIn_after (d : Directive) (a : Assembler) (label : Nat) :
    Patch.boundIn (d.after a).labels label =
      if Call.binds label ⟨a, d⟩ then some a.code.size else Patch.boundIn a.labels label := by
  have hbind (l : Nat) : Patch.boundIn (a.labels.setIfInBounds l (some a.code.size)) label =
      if (l == label && decide (label < a.labels.size)) = true then some a.code.size
      else Patch.boundIn a.labels label := by
    simpa using boundIn_setIfInBounds a.labels l label a.code.size
  cases d with
  | bind l => exact hbind l
  | bindCatch l => exact hbind l
  | newLabel =>
      change Patch.boundIn (a.labels.push none) label = Patch.boundIn a.labels label
      simp only [Patch.boundIn, Array.getElem?_push]
      split
      · rename_i hlast
        simp [hlast]
      · rfl
  | _ =>
      rw [labels_after (KeepsLabels.perform (by simp) fun _ => rfl)]
      simp [Call.binds, Directive.binds]

theorem boundIn_afterAll (a : Assembler) (steps : List Directive) (label : Nat) :
    Patch.boundIn (a.afterAll steps).labels label =
      (a.calls steps).foldl (fun last c => if c.binds label then some c.offset else last)
        (Patch.boundIn a.labels label) := by
  induction steps generalizing a with
  | nil => rfl
  | cons d rest ih =>
      rw [Assembler.afterAll, Assembler.calls, List.foldl_cons, ih, boundIn_after]
      rfl

/-! ### Emissions -/

theorem Call.Drafted.mono {t u : Tables} {c : Call} {e : Emission} (h : c.Drafted t e)
    (htu : t.Within u) : c.Drafted u e :=
  ⟨h.offset, fun b bound i hu hi => h.drafts b bound i (htu.trans hu) hi, h.uses⟩

/-- The calls that emit, in order, with what they emit. -/
theorem exists_emissions (steps : List Directive) (hsound : a.constants.Sound) :
    ∃ es, a.Grows es (a.afterAll steps) ∧
      List.Forall₂ (Call.Drafted (a.afterAll steps).tables) ((a.calls steps).filter Call.emits)
        es := by
  induction steps generalizing a with
  | nil => exact ⟨[], .refl a, .nil⟩
  | cons d rest ih =>
      obtain ⟨es, hgrows, hes⟩ := d.delivers hsound
      obtain ⟨es', hgrows', hes'⟩ := ih (hgrows.sound hsound)
      refine ⟨es ++ es', hgrows.trans hgrows', ?_⟩
      have hfirst := hes.imp fun _ _ h => h.mono hgrows'.tables
      have hcalls : (a.calls (d :: rest)).filter Call.emits =
          [Call.mk a d].filter Call.emits ++ ((d.after a).calls rest).filter Call.emits := by
        rw [← List.filter_append]
        rfl
      rw [hcalls]
      exact List.rel_append hfirst hes'

/-! ### Finishing -/

/-- Patches fail exactly if a use of a label does, and the first failure is the answer. -/
theorem foldlM_apply_eq_error_iff (labels : Array (Option Nat)) (ps : List Patch)
    (code : Array UInt8) {y : AssemblyError} :
    ps.foldlM (fun code p => p.apply labels code) code = .error y ↔
      (ps.map Patch.use).findSome? (fun u => u.failure? (Patch.boundIn labels u.label)) =
        some y := by
  induction ps generalizing code with
  | nil => simp [pure, Except.pure]
  | cons p rest ih =>
      rw [List.foldlM_cons, List.map_cons, List.findSome?_cons, Patch.apply_eq]
      cases hword : p.word (Patch.boundIn labels) with
      | error z =>
          have huse := Patch.word_eq_error_iff.mp hword
          rw [Patch.label_use, huse]
          simp [Except.map, bind, Except.bind]
      | ok w =>
          have huse : p.use.failure? (Patch.boundIn labels p.label) = none := by
            rw [← Option.not_isSome_iff_eq_none, Option.isSome_iff_exists]
            rintro ⟨z, hz⟩
            rw [← Patch.word_eq_error_iff, hword] at hz
            cases hz
          rw [Patch.label_use, huse]
          exact ih _

/-- The block that an assembler describes once its code is patched. -/
def Assembler.finished (a : Assembler) (code : Array UInt8) : CodeBlock where
  name := a.name
  filename := if a.debugInfo then a.filename else CodeBlock.unknownFile
  code := code
  constants := a.constants.values
  names := a.names.entries
  locals := a.locals.entries
  maxStack := a.maxStack
  maxBlocks := a.maxBlocks

theorem Assembler.build_eq (a : Assembler) : a.build =
    (a.patches.toList.foldlM (fun code (p : Patch) => p.apply a.labels code) a.code).map
      a.finished := by
  rw [build]
  cases a.patches.toList.foldlM (fun code (p : Patch) => p.apply a.labels code) a.code <;> rfl

/-- What is known of the emissions of a fresh assembler. -/
theorem exists_emissions_of_fresh (name filename : String) (debugInfo : Bool)
    (steps : List Directive) : ∃ es : List Emission,
      let a := (Assembler.fresh name filename debugInfo).afterAll steps
      a.code = ([] ++ (es.map Emission.draft).flatMap Instruction.bytes).toArray ∧
      a.patches.toList = es.flatMap Emission.patches ∧
      Instruction.Laid 0 (es.map Emission.draft) ∧
      List.Forall₂ (Call.Drafted a.tables)
        (((Assembler.fresh name filename debugInfo).calls steps).filter Call.emits) es := by
  obtain ⟨es, hgrows, hes⟩ :=
    exists_emissions (a := .fresh name filename debugInfo) steps ConstantPool.sound_empty
  refine ⟨es, ?_, ?_, hgrows.laid, hes⟩
  · apply Array.toList_inj.mp
    rw [hgrows.code]
    simp [Assembler.fresh]
  · rw [hgrows.patches]
    simp [Assembler.fresh]

theorem map_use_flatMap_patches {t : Tables} {cs : List Call} {es : List Emission}
    (h : List.Forall₂ (Call.Drafted t) cs es) :
    (es.flatMap Emission.patches).map Patch.use = cs.flatMap Call.uses := by
  induction h with
  | nil => rfl
  | cons hc _ ih => rw [List.flatMap_cons, List.flatMap_cons, List.map_append, ih, hc.uses]

theorem boundIn_fresh (name filename : String) (debugInfo : Bool) (steps : List Directive) :
    Patch.boundIn ((Assembler.fresh name filename debugInfo).afterAll steps).labels =
      lastBound ((Assembler.fresh name filename debugInfo).calls steps) :=
  funext fun label => boundIn_afterAll _ steps label

theorem Emission.forall₂_of_mapM {bound : Nat → Option Nat} {es : List Emission}
    {is : List Instruction} (h : es.mapM (resolve bound) = .ok is) :
    List.Forall₂ (fun e i => e.resolve bound = .ok i) es is := by
  induction es generalizing is with
  | nil =>
      cases h
      exact .nil
  | cons e rest ih =>
      rw [List.mapM_cons] at h
      obtain ⟨i, hi, h⟩ := Except.exists_of_bind h
      obtain ⟨is, his, h⟩ := Except.exists_of_bind h
      cases h
      exact .cons hi (ih his)

/-- Calls and the instructions to which their emissions resolve, in a block with the tables that
the emissions were made for. -/
theorem readsAs_of_forall₂ {b : CodeBlock} {bound : Nat → Option Nat} {cs : List Call}
    {es : List Emission} {is : List Instruction}
    (hes : List.Forall₂ (Call.Drafted b.tables) cs es)
    (hresolved : List.Forall₂ (fun e i => Emission.resolve bound e = .ok i) es is) :
    List.Forall₂ (fun c i => i.offset = c.offset ∧ c.step.ReadsAs b bound i) cs is := by
  induction hes generalizing is with
  | nil =>
      cases hresolved
      exact .nil
  | cons hdrafted _ ih =>
      cases hresolved with
      | cons hi hrest =>
          have hoffset := (Emission.resolve_eq_ok hi).1.trans hdrafted.offset
          exact .cons ⟨hoffset, hdrafted.drafts b bound _ (.refl _) hi⟩ (ih hrest)

/-- The code of a finished block consists of the instructions that the calls asked for. -/
theorem exists_instructions_of_build {name filename : String} {debugInfo : Bool}
    {steps : List Directive} {b : CodeBlock}
    (hb : ((Assembler.fresh name filename debugInfo).afterAll steps).build = .ok b) :
    ∃ is, Instruction.Laid 0 is ∧ b.code.toList = is.flatMap Instruction.bytes ∧
      List.Forall₂ (fun c i => i.offset = c.offset ∧ c.step.ReadsAs b
          (lastBound ((Assembler.fresh name filename debugInfo).calls steps)) i)
        (((Assembler.fresh name filename debugInfo).calls steps).filter Call.emits) is := by
  obtain ⟨es, hcode, hpatches, hlaid, hes⟩ :=
    exists_emissions_of_fresh name filename debugInfo steps
  rw [Assembler.build_eq, hcode, hpatches, Emission.foldlM_flatMap_patches _ es [] hlaid,
    boundIn_fresh] at hb
  cases his : es.mapM (Emission.resolve
      (lastBound ((Assembler.fresh name filename debugInfo).calls steps))) with
  | error y =>
      rw [his] at hb
      cases hb
  | ok is =>
      rw [his] at hb
      cases hb
      have hresolved := Emission.forall₂_of_mapM his
      exact ⟨is, Emission.laid_of_forall₂ hresolved hlaid, by simp [Assembler.finished],
        readsAs_of_forall₂ hes hresolved⟩

/-- Decoding undoes assembling, for every sequence of calls on a fresh assembler. If the block is
finished, then its instructions cover its code and are those that the successful emitting calls
asked for, in order, each at the offset of its call, with labels at the offsets to which they were
bound last. The block cannot be finished exactly if a use of a label fails, and the first such use
is what is answered. -/
theorem build_spec (name filename : String) (debugInfo : Bool) (steps : List Directive) :
    let a := Assembler.fresh name filename debugInfo
    let calls := a.calls steps
    (∀ b, (a.afterAll steps).build = .ok b → ∃ is : List Instruction,
      b.instructions = is.map .ok ∧ b.code.toList = is.flatMap Instruction.bytes ∧
      List.Forall₂ (fun c i => i.offset = c.offset ∧ c.step.ReadsAs b (lastBound calls) i)
        (calls.filter Call.emits) is) ∧
    ∀ y, (a.afterAll steps).build = .error y ↔
      ((calls.filter Call.emits).flatMap Call.uses).findSome?
        (fun u => u.failure? (lastBound calls u.label)) = some y := by
  intro a calls
  refine ⟨fun b hb => ?_, fun y => ?_⟩
  · obtain ⟨is, hlaid, hcode, hreads⟩ := exists_instructions_of_build hb
    exact ⟨is, Instruction.walk_eq_map_ok hlaid hcode, hcode, hreads⟩
  · obtain ⟨es, -, hpatches, -, hes⟩ := exists_emissions_of_fresh name filename debugInfo steps
    rw [Assembler.build_eq, ← map_use_flatMap_patches hes, ← hpatches,
      ← boundIn_fresh name filename debugInfo steps,
      ← foldlM_apply_eq_error_iff _ _ (a.afterAll steps).code]
    cases (a.afterAll steps).patches.toList.foldlM
      (fun code (p : Patch) => p.apply (a.afterAll steps).labels code) (a.afterAll steps).code <;>
      simp [Except.map]

/-- A jump over nothing, and a jump to a label that is never bound. -/
theorem build_spec_jumpForward :
    (∃ is : List Instruction, CodeBlock.instructions {
        name := "jump", filename := "", code := #[0x51, 0, 0], constants := #[], names := #[],
        locals := #[], maxStack := 0, maxBlocks := 0 } = is.map .ok ∧
      [0x51, 0, 0] = is.flatMap Instruction.bytes) ∧
    ((Assembler.fresh "jump" "" true).afterAll [.newLabel, .jumpForward 0]).build =
      .error (.unboundLabel 0) := by
  constructor
  · obtain ⟨is, hinstructions, hbytes, -⟩ :=
      (build_spec "jump" "" true [.newLabel, .jumpForward 0, .bind 0]).1 _ rfl
    exact ⟨is, hinstructions, hbytes⟩
  · exact ((build_spec "jump" "" true [.newLabel, .jumpForward 0]).2 _).mpr rfl

end ScriptMachine
