import ScriptMachine.Proofs.Assembler.Draft
import ScriptMachine.Proofs.Assembler.Tables

/-! What assembly calls add. Every call that succeeds in adding an instruction adds one emission at
the end of the code, with the patches for its labels; every other call leaves code and patches as
they are. -/

namespace ScriptMachine

/-! ### Tables -/

/-- The tables that instructions refer to. -/
structure Tables where
  constants : Array Value
  names : Array String
  locals : Array String

namespace Tables

/-- Every entry of `t` is at the same place in `u`. -/
structure Within (t u : Tables) : Prop where
  constants : ∀ (i : Nat) v, t.constants[i]? = some v → u.constants[i]? = some v
  names : ∀ (i : Nat) s, t.names[i]? = some s → u.names[i]? = some s
  locals : ∀ (i : Nat) s, t.locals[i]? = some s → u.locals[i]? = some s

theorem Within.refl (t : Tables) : t.Within t :=
  ⟨fun _ _ h => h, fun _ _ h => h, fun _ _ h => h⟩

theorem Within.trans {t u v : Tables} (h : t.Within u) (k : u.Within v) : t.Within v :=
  ⟨fun i x hx => k.constants i x (h.constants i x hx), fun i x hx => k.names i x (h.names i x hx),
    fun i x hx => k.locals i x (h.locals i x hx)⟩

end Tables

def CodeBlock.tables (b : CodeBlock) : Tables :=
  ⟨b.constants, b.names, b.locals⟩

def Assembler.tables (a : Assembler) : Tables :=
  ⟨a.constants.values, a.names.entries, a.locals.entries⟩

/-- An emission, resolved in any block with the tables `t`, is the instruction that a step asks
for. -/
def Directive.Drafts (d : Directive) (t : Tables) (e : Emission) : Prop :=
  ∀ (b : CodeBlock) bound i, t.Within b.tables → e.resolve bound = .ok i → d.ReadsAs b bound i

/-! ### What depth accounting leaves alone -/

namespace Assembler

variable {a : Assembler} {o : Opcode} {arg : Nat} {x : Operand}

theorem accounted_eq (a : Assembler) (o : Opcode) (arg : Nat) :
    ∃ depth maxStack blockDepth maxBlocks,
      a.accounted o arg = { a with depth, maxStack, blockDepth, maxBlocks } := by
  cases o <;> exact ⟨_, _, _, _, rfl⟩

theorem appended_eq (a : Assembler) (o : Opcode) (x : Operand) :
    ∃ depth maxStack blockDepth maxBlocks, a.appended o x = { a with
      code := a.code.push o.byte ++ x.bytes.toArray, depth, maxStack, blockDepth, maxBlocks } :=
  accounted_eq _ _ _

end Assembler

/-! ### Growth -/

/-- How an assembler grows by emissions. -/
structure Assembler.Grows (a : Assembler) (es : List Emission) (a' : Assembler) : Prop where
  code : a'.code.toList = a.code.toList ++ (es.map Emission.draft).flatMap Instruction.bytes
  patches : a'.patches.toList = a.patches.toList ++ es.flatMap Emission.patches
  laid : Instruction.Laid a.code.size (es.map Emission.draft)
  sound : a.constants.Sound → a'.constants.Sound
  tables : a.tables.Within a'.tables

namespace Assembler

namespace Grows

variable {a a' a'' : Assembler} {es es' : List Emission} {o : Opcode} {x : Operand}

theorem size_eq (h : a.Grows es a') :
    a'.code.size =
      a.code.size + ((es.map Emission.draft).flatMap Instruction.bytes).length := by
  rw [← Array.length_toList, h.code, List.length_append, Array.length_toList]

theorem trans (h : a.Grows es a') (h' : a'.Grows es' a'') : a.Grows (es ++ es') a'' := by
  refine ⟨?_, ?_, ?_, h'.sound ∘ h.sound, h.tables.trans h'.tables⟩
  · rw [h'.code, h.code, List.map_append, List.flatMap_append, List.append_assoc]
  · rw [h'.patches, h.patches, List.flatMap_append, List.append_assoc]
  · rw [List.map_append]
    exact h.laid.append (h.size_eq ▸ h'.laid)

theorem refl (a : Assembler) : a.Grows [] a :=
  ⟨by simp, by simp, trivial, id, .refl _⟩

/-- Nothing is emitted. -/
theorem of_eq (hcode : a'.code = a.code) (hpatches : a'.patches = a.patches)
    (hsound : a.constants.Sound → a'.constants.Sound) (htables : a.tables.Within a'.tables) :
    a.Grows [] a' :=
  ⟨by simp [hcode], by simp [hpatches], trivial, hsound, htables⟩

theorem appended (hx : x.form = o.form) :
    a.Grows [⟨a.code.size, o, .fixed x⟩] (a.appended o x) := by
  obtain ⟨_, _, _, _, heq⟩ := a.appended_eq o x
  rw [heq]
  refine ⟨?_, ?_, ⟨rfl, hx, trivial⟩, id, .refl _⟩
  · simp [Emission.draft, Instruction.bytes]
  · simp [Emission.patches]

/-- An instruction with one word for a label. -/
theorem patched (ho : o.form = .short) (label : Nat) (forward : Bool) :
    a.Grows [⟨a.code.size, o, .word label forward⟩]
      ((a.appended o (.short 0)).patched ((a.appended o (.short 0)).code.size - 2) label
        forward) := by
  obtain ⟨_, _, _, _, heq⟩ := a.appended_eq o (.short 0)
  rw [heq]
  refine ⟨?_, ?_, ⟨rfl, ho.symm, trivial⟩, id, .refl _⟩
  · simp [Assembler.patched, Emission.draft, Instruction.bytes]
  · simp [Assembler.patched, Emission.patches, Operand.bytes, wordBytes]

/-- The start of a loop. -/
theorem startLoop (iter finish : Nat) :
    a.Grows [⟨a.code.size, .startLoop, .pair iter finish⟩]
      (((a.appended .startLoop (.pair 0 0)).patched (a.code.size + 1) iter false).patched
        (a.code.size + 1 + 2) finish false) := by
  obtain ⟨_, _, _, _, heq⟩ := a.appended_eq .startLoop (.pair 0 0)
  rw [heq]
  refine ⟨?_, ?_, ⟨rfl, rfl, trivial⟩, id, .refl _⟩
  · simp [Assembler.patched, Emission.draft, Instruction.bytes]
  · simp [Assembler.patched, Emission.patches]

end Grows

end Assembler

/-! ### Calls -/

/-- An emission is what a call asks for, if blocks have the tables `t`. -/
structure Call.Drafted (t : Tables) (c : Call) (e : Emission) : Prop where
  offset : e.offset = c.offset
  drafts : c.step.Drafts t e
  uses : c.uses = e.patches.map Patch.use

namespace Directive

/-- What a step adds is what it asks for. -/
def Delivers (d : Directive) (a : Assembler) : Prop :=
  ∃ es, a.Grows es (d.after a) ∧
    List.Forall₂ (Call.Drafted (d.after a).tables) ([⟨a, d⟩].filter Call.emits) es

variable {d : Directive} {a a' : Assembler} {e : Emission} {y : AssemblyError} {r : Option Nat}
  {o : Opcode} {step : Assembly Unit}

theorem after_of_ok (h : d.perform a = .ok r a') : d.after a = a' := by
  simp [after, h]

theorem after_of_error (h : d.perform a = .error y a') : d.after a = a' := by
  simp [after, h]

theorem silently_ok (h : step a = .ok () a') : silently step a = .ok none a' := by
  rw [silently]
  change EStateM.bind step _ a = _
  rw [EStateM.bind, h]
  rfl

theorem silently_error (h : step a = .error y a') : silently step a = .error y a' := by
  rw [silently]
  change EStateM.bind step _ a = _
  rw [EStateM.bind, h]

namespace Delivers

theorem of_emission (hd : d.emits) (h : d.perform a = .ok r a') (hgrows : a.Grows [e] a')
    (hdrafted : Call.Drafted a'.tables ⟨a, d⟩ e) : d.Delivers a := by
  have hafter := after_of_ok h
  have hemits : Call.emits ⟨a, d⟩ := by simp [Call.emits, hd, succeeds, h]
  refine ⟨[e], hafter ▸ hgrows, ?_⟩
  rw [hafter]
  simpa [hemits] using hdrafted

theorem of_failure (h : d.perform a = .error y a') (hgrows : a.Grows [] a') : d.Delivers a := by
  have hafter := after_of_error h
  have hemits : Call.emits ⟨a, d⟩ = false := by simp [Call.emits, succeeds, h]
  exact ⟨[], hafter ▸ hgrows, by simp [hemits]⟩

theorem of_silence (hd : d.emits = false) (hgrows : a.Grows [] (d.after a)) : d.Delivers a := by
  have hemits : Call.emits ⟨a, d⟩ = false := by simp [Call.emits, hd]
  exact ⟨[], hgrows, by simp [hemits]⟩

end Delivers

/-! ### Instructions without labels -/

theorem emit_cases (a : Assembler) (o : Opcode) :
    (o.form = .none ∧ Assembly.emit o a = .ok () (a.appended o .none)) ∨
      ∃ y, Assembly.emit o a = .error y a := by
  rw [Assembly.emit]
  cases o.form with
  | none => exact .inl ⟨rfl, rfl⟩
  | _ => exact .inr ⟨_, rfl⟩

theorem emitArg_cases (a : Assembler) (o : Opcode) (arg : Nat) :
    (∃ x, x.form = o.form ∧ x.number = arg ∧ Assembly.emitArg o arg a = .ok () (a.appended o x)) ∨
      ∃ y, Assembly.emitArg o arg a = .error y a := by
  rw [Assembly.emitArg]
  cases o.form with
  | byte =>
      by_cases h : arg ≤ 255
      · refine .inl ⟨.byte (UInt8.ofNat arg), rfl, ?_, by simp [h]; rfl⟩
        simp [Operand.number]
        omega
      · exact .inr ⟨_, by simp [h]; rfl⟩
  | short =>
      by_cases h : arg ≤ 65535
      · refine .inl ⟨.short (UInt16.ofNat arg), rfl, ?_, by simp [h]; rfl⟩
        simp [Operand.number]
        omega
      · exact .inr ⟨_, by simp [h]; rfl⟩
  | none => exact .inr ⟨_, rfl⟩
  | pair => exact .inr ⟨_, rfl⟩

variable {found : CodeBlock → Nat → Prop} {add : Assembly Nat} {arg : Nat}

theorem Delivers.of_emit (hd : d.emits) (hperform : d.perform = silently (Assembly.emit o))
    (huses : Call.uses ⟨a, d⟩ = [])
    (hreads : ∀ b bound i, i.opcode = o → i.operand = .none → d.ReadsAs b bound i) :
    d.Delivers a := by
  rcases emit_cases a o with ⟨hform, hemit⟩ | ⟨y, herror⟩
  · refine of_emission hd (hperform ▸ silently_ok hemit) (.appended (x := .none) hform.symm)
      ⟨rfl, ?_, huses⟩
    intro b bound i _ hi
    cases hi
    exact hreads b bound _ rfl rfl
  · exact of_failure (hperform ▸ silently_error herror) (.refl a)

/-- An instruction with a number that may come from a table. -/
theorem Delivers.of_emitArg (hd : d.emits) (hsilent : d.perform = silently step)
    (hstep : step a = Assembly.emitArg o arg a') (hgrows : a.Grows [] a')
    (huses : Call.uses ⟨a, d⟩ = [])
    (hreads : ∀ b bound i, a'.tables.Within b.tables → i.opcode = o → i.arg = arg →
      d.ReadsAs b bound i) : d.Delivers a := by
  rcases emitArg_cases a' o arg with ⟨x, hform, hnumber, hemit⟩ | ⟨y, herror⟩
  · have hsize : a'.code.size = a.code.size := hgrows.size_eq
    have happended := Assembler.Grows.appended (a := a') hform
    refine of_emission hd (hsilent ▸ silently_ok (hstep.trans hemit)) (hgrows.trans happended)
      ⟨hsize, ?_, huses⟩
    intro b bound i htables hi
    cases hi
    exact hreads b bound _ (happended.tables.trans htables) rfl hnumber
  · exact of_failure (hsilent ▸ silently_error (hstep.trans herror)) hgrows

/-! ### Tables -/

theorem addConstant_eq (a : Assembler) (v : Value) : Assembly.addConstant v a =
    match a.constants.placeFor v with
    | .ok place => .ok place { a with constants := a.constants.putAt v place }
    | .error y => .error y a := by
  rw [Assembly.addConstant]
  change EStateM.bind (Assembly.look _) _ a = _
  rw [EStateM.bind, Assembly.look]
  cases a.constants.placeFor v <;> rfl

theorem addName_eq (a : Assembler) (s : String) : Assembly.addName s a =
    match a.names.placeFor s with
    | .ok place => .ok place { a with names := a.names.putAt s place }
    | .error y => .error y a := by
  rw [Assembly.addName]
  change EStateM.bind (Assembly.look _) _ a = _
  rw [EStateM.bind, Assembly.look]
  cases a.names.placeFor s <;> rfl

theorem addLocal_eq (a : Assembler) (s : String) : Assembly.addLocal s a =
    match a.locals.placeFor s with
    | .ok place => .ok place { a with locals := a.locals.putAt s place }
    | .error y => .error y a := by
  rw [Assembly.addLocal]
  change EStateM.bind (Assembly.look _) _ a = _
  rw [EStateM.bind, Assembly.look]
  cases a.locals.placeFor s <;> rfl

/-- What a table step leaves: an entry at the place that it answers, or nothing new. -/
def Files (add : Assembly Nat) (found : Tables → Nat → Prop) (a : Assembler) : Prop :=
  (∃ place a', add a = .ok place a' ∧ a.Grows [] a' ∧ found a'.tables place) ∨
    ∃ y, add a = .error y a

theorem files_addConstant (v : Value) (hsound : a.constants.Sound) :
    Files (Assembly.addConstant v) (fun t place => t.constants[place]? = some v) a := by
  rw [Files, addConstant_eq]
  cases hplace : a.constants.placeFor v with
  | error y => exact .inr ⟨y, rfl⟩
  | ok place =>
      obtain ⟨hsound', hentry⟩ := hsound.putAt hplace
      refine .inl ⟨place, _, rfl, .of_eq rfl rfl (fun _ => hsound') ⟨?_, ?_, ?_⟩, hentry⟩
      · exact fun i w hw => ConstantPool.getElem?_putAt hw v place
      · exact fun _ _ h => h
      · exact fun _ _ h => h

theorem files_addName (s : String) (a : Assembler) :
    Files (Assembly.addName s) (fun t place => t.names[place]? = some s) a := by
  rw [Files, addName_eq]
  cases hplace : a.names.placeFor s with
  | error y => exact .inr ⟨y, rfl⟩
  | ok place =>
      refine .inl ⟨place, _, rfl, .of_eq rfl rfl id ⟨?_, ?_, ?_⟩,
        NamePool.getElem?_putAt_placeFor hplace⟩
      · exact fun _ _ h => h
      · exact fun i r hr => NamePool.getElem?_putAt hr s place
      · exact fun _ _ h => h

theorem files_addLocal (s : String) (a : Assembler) :
    Files (Assembly.addLocal s) (fun t place => t.locals[place]? = some s) a := by
  rw [Files, addLocal_eq]
  cases hplace : a.locals.placeFor s with
  | error y => exact .inr ⟨y, rfl⟩
  | ok place =>
      refine .inl ⟨place, _, rfl, .of_eq rfl rfl id ⟨?_, ?_, ?_⟩,
        NamePool.getElem?_putAt_placeFor hplace⟩
      · exact fun _ _ h => h
      · exact fun _ _ h => h
      · exact fun i r hr => NamePool.getElem?_putAt hr s place

/-- An instruction on an entry of a table. -/
theorem Delivers.of_files {add : Assembly Nat} {found : Tables → Nat → Prop} (hd : d.emits)
    (hadd : Files add found a)
    (hperform : d.perform = silently (add >>= fun place => Assembly.emitArg o place))
    (huses : Call.uses ⟨a, d⟩ = [])
    (hreads : ∀ (t : Tables) (b : CodeBlock) bound i, found t i.arg → t.Within b.tables →
      i.opcode = o → d.ReadsAs b bound i) : d.Delivers a := by
  rcases hadd with ⟨place, a', hok, hgrows, hfound⟩ | ⟨y, herror⟩
  · have hstep : (add >>= fun place => Assembly.emitArg o place) a =
        Assembly.emitArg o place a' := by
      change EStateM.bind add _ a = _
      rw [EStateM.bind, hok]
    exact of_emitArg hd hperform hstep hgrows huses fun b bound i htables hop harg =>
      hreads _ b bound i (harg ▸ hfound) htables hop
  · have hstep : (add >>= fun place => Assembly.emitArg o place) a = .error y a := by
      change EStateM.bind add _ a = _
      rw [EStateM.bind, herror]
    exact of_failure (hperform ▸ silently_error hstep) (.refl a)

/-- An addition to a table. -/
theorem Delivers.of_addition {add : Assembly Nat} {found : Tables → Nat → Prop}
    (hd : d.emits = false) (hadd : Files add found a) (hperform : d.perform = some <$> add) :
    d.Delivers a := by
  refine of_silence hd ?_
  rcases hadd with ⟨place, a', hok, hgrows, -⟩ | ⟨y, herror⟩
  · have hafter : d.after a = a' := by
      refine after_of_ok (r := some place) ?_
      rw [hperform]
      change EStateM.map some add a = _
      rw [EStateM.map, hok]
    rwa [hafter]
  · have hafter : d.after a = a := by
      refine after_of_error (y := y) ?_
      rw [hperform]
      change EStateM.map some add a = _
      rw [EStateM.map, herror]
    rw [hafter]
    exact .refl a

/-! ### Labels -/

theorem Delivers.of_label (o : Opcode) (label : Nat) (forward : Bool) (hd : d.emits)
    (hperform : d.perform = silently (do
      Assembly.emitArg o 0
      Assembly.patchLast label forward))
    (huses : Call.uses ⟨a, d⟩ = [⟨label, if forward then a.code.size + 3 else 0⟩])
    (ho : o.form = .short)
    (hreads : ∀ b bound i, i.opcode = o →
      bound label = some ((if forward then i.next else 0) + i.arg) → d.ReadsAs b bound i) :
    d.Delivers a := by
  have hemit : Assembly.emitArg o 0 a = .ok () (a.appended o (.short 0)) := by
    simp [Assembly.emitArg, ho]
    rfl
  have hstep : (Assembly.emitArg o 0 >>= fun _ => Assembly.patchLast label forward) a = .ok ()
      ((a.appended o (.short 0)).patched ((a.appended o (.short 0)).code.size - 2) label
        forward) := by
    change EStateM.bind (Assembly.emitArg o 0) _ a = _
    rw [EStateM.bind, hemit]
    rfl
  refine of_emission hd (hperform ▸ silently_ok hstep) (.patched ho label forward) ⟨rfl, ?_, ?_⟩
  · intro b bound i _ hi
    obtain ⟨w, hword, hi⟩ := Except.exists_of_bind hi
    cases hi
    refine hreads b bound _ rfl ?_
    rw [Patch.word_eq_ok_iff] at hword
    simpa [Patch.use, Instruction.next, Instruction.length, Opcode.operandWidth, ho,
      OperandForm.width, Instruction.arg, Operand.number] using hword
  · rw [huses]
    simp [Emission.patches, Patch.use]

theorem delivers_startLoop (first second : Nat) :
    (Directive.startLoop first second).Delivers a := by
  have hstep : Assembly.startLoop first second a = .ok ()
      (((a.appended .startLoop (.pair 0 0)).patched (a.code.size + 1) first false).patched
        (a.code.size + 1 + 2) second false) :=
    rfl
  refine Delivers.of_emission rfl (silently_ok hstep) (.startLoop first second) ⟨rfl, ?_, ?_⟩
  · intro b bound i _ hi
    obtain ⟨w, hfirst, hrest⟩ := Except.exists_of_bind hi
    obtain ⟨v, hsecond, hi⟩ := Except.exists_of_bind hrest
    cases hi
    rw [Patch.word_eq_ok_iff] at hfirst hsecond
    exact ⟨rfl, w, v, rfl, by simpa [Patch.use] using hfirst, by simpa [Patch.use] using hsecond⟩
  · simp [Call.uses, Emission.patches, Patch.use]

/-- A jump by an operation without an absolute target is refused. -/
theorem jump_refused (a : Assembler) (label : Nat) (ho : o.hasAbsoluteTarget = false) :
    Assembly.jump o label a = .error (.operandOutOfRange o label o.operandWidth) a := by
  simp [Assembly.jump, ho]
  rfl

theorem delivers_jump (o : Opcode) (label : Nat) : (Directive.jump o label).Delivers a := by
  cases ho : o.hasAbsoluteTarget with
  | true =>
      have hform : o.form = .short := by
        cases o <;> simp_all [Opcode.hasAbsoluteTarget, Opcode.form]
      refine Delivers.of_label o label false rfl ?_ rfl hform fun b bound i hop hi => ?_
      · simp [perform, Assembly.jump, ho]
      · exact ⟨hop, by simpa using hi⟩
  | false => exact .of_failure (silently_error (jump_refused a label ho)) (.refl a)

/-- Every step adds what it asks for, and nothing if it fails. -/
theorem delivers (d : Directive) (hsound : a.constants.Sound) : d.Delivers a := by
  cases d with
  | emit o => exact .of_emit rfl rfl rfl fun _ _ _ hop hoperand => ⟨hop, hoperand⟩
  | binary op => exact .of_emit rfl rfl rfl fun _ _ _ hop hoperand => ⟨hop, hoperand⟩
  | emitArg o arg =>
      exact .of_emitArg rfl rfl rfl (.refl a) rfl fun _ _ _ _ hop harg => ⟨hop, harg⟩
  | compare op =>
      exact .of_emitArg rfl rfl rfl (.refl a) rfl fun _ _ _ _ hop harg => ⟨hop, harg⟩
  | call argc =>
      exact .of_emitArg rfl rfl rfl (.refl a) rfl fun _ _ _ _ hop harg => ⟨hop, harg⟩
  | loadConst v =>
      exact .of_files rfl (files_addConstant v hsound) rfl rfl fun _ _ _ _ hfound ht hop =>
        ⟨hop, ht.constants _ _ hfound⟩
  | localOp o s =>
      exact .of_files rfl (files_addLocal s a) rfl rfl fun _ _ _ _ hfound ht hop =>
        ⟨hop, ht.locals _ _ hfound⟩
  | nameOp o s =>
      exact .of_files rfl (files_addName s a) rfl rfl fun _ _ _ _ hfound ht hop =>
        ⟨hop, ht.names _ _ hfound⟩
  | jump o label => exact delivers_jump o label
  | startTry label =>
      exact .of_label .startTry label false rfl rfl rfl rfl fun _ _ _ hop hi =>
        ⟨hop, by simpa using hi⟩
  | jumpForward label =>
      exact .of_label .jumpForward label true rfl rfl rfl rfl fun _ _ _ hop hi =>
        ⟨hop, by simpa using hi⟩
  | startLoop first second => exact delivers_startLoop first second
  | addConstant v => exact .of_addition rfl (files_addConstant v hsound) rfl
  | addName s => exact .of_addition rfl (files_addName s a) rfl
  | addLocal s => exact .of_addition rfl (files_addLocal s a) rfl
  | newLabel | bind label | bindCatch label | adjust delta =>
      exact .of_silence rfl (.of_eq rfl rfl id (.refl _))

end Directive

end ScriptMachine
