import Mathlib.Data.List.TakeWhile
import ScriptMachine.Proofs.Machine.Exchange

/-! Actions that move the program counter and that open and close blocks: when they succeed, and
what they make of the frame. None of them touches the store. -/

namespace ScriptMachine

/-! ### Open blocks of a frame -/

namespace Frame

variable {f g : Frame} {b : Block} {kind : BlockKind} {x : Fault}

theorem sp_truncate {height : Nat} (h : height ≤ f.sp) : (f.truncate height).sp = height := by
  rw [truncate, sp, Stack.height_lowest]
  exact Nat.min_eq_left h

theorem sp_truncate_le (f : Frame) (height : Nat) : (f.truncate height).sp ≤ f.sp := by
  rw [truncate, sp, Stack.height_lowest]
  exact Nat.min_le_right _ _

theorem pushBlock_eq_ok_iff : f.pushBlock b = .ok g ↔
    f.blocks.height < f.code.maxBlocks ∧ g = { f with blocks := f.blocks.push b } := by
  rw [pushBlock]
  split <;> simp [*, eq_comm]

theorem pushBlock_eq_error_iff : f.pushBlock b = .error x ↔
    f.code.maxBlocks ≤ f.blocks.height ∧ x = .blockStackOverflow f.code.maxBlocks := by
  rw [pushBlock]
  split
  · simp
    omega
  · simp [*, eq_comm]
    omega

theorem popBlock_eq_ok_iff : f.popBlock = .ok (b, g) ↔
    ∃ rest : Stack Block, f.blocks = rest.push b ∧ g = { f with blocks := rest } := by
  rw [popBlock]
  rcases f.blocks.eq_empty_or_push with h | ⟨c, rest, h⟩
  · simp [h]
  · simp only [h, Stack.pop?_push, Except.ok.injEq, Prod.mk.injEq, Stack.push_inj]
    constructor
    · rintro ⟨rfl, rfl⟩
      exact ⟨rest, ⟨rfl, rfl⟩, rfl⟩
    · rintro ⟨_, ⟨rfl, rfl⟩, rfl⟩
      exact ⟨rfl, rfl⟩

theorem popBlock_eq_error_iff :
    f.popBlock = .error x ↔ f.blocks = .empty ∧ x = .blockStackExhausted := by
  rw [popBlock]
  rcases f.blocks.eq_empty_or_push with h | ⟨c, rest, h⟩
  · simp [h, eq_comm]
  · simp [h, (Stack.empty_ne_push rest c).symm]

theorem suffix_expose (f : Frame) (kind : BlockKind) :
    (f.expose kind).blocks.toList <:+ f.blocks.toList := by
  rw [expose, Stack.toList_popWhile]
  exact List.dropWhile_suffix _

theorem blocks_expose_eq_empty_iff :
    (f.expose kind).blocks = .empty ↔ ∀ b ∈ f.blocks.toList, b.kind ≠ kind := by
  rw [expose]
  constructor
  · intro h b hb
    have hl := congrArg Stack.toList h
    simp only [Stack.toList_popWhile, Stack.toList_empty, List.dropWhile_eq_nil_iff] at hl
    simpa using hl b hb
  · intro h
    apply Stack.ext
    simp only [Stack.toList_popWhile, Stack.toList_empty, List.dropWhile_eq_nil_iff]
    simpa using h

/-- The search for a kind of block stops at one of this kind. -/
theorem kind_of_blocks_expose {rest : Stack Block} (h : (f.expose kind).blocks = rest.push b) :
    b.kind = kind := by
  simpa using Stack.not_of_popWhile_eq_push h

/-- The search passes blocks of the other kind only. -/
theorem exists_of_blocks_expose {rest : Stack Block} (h : (f.expose kind).blocks = rest.push b) :
    ∃ inner, f.blocks = (rest.push b).pushAll inner ∧ ∀ c ∈ inner, c.kind ≠ kind := by
  obtain ⟨inner, hblocks, hinner⟩ := f.blocks.exists_eq_pushAll_popWhile (·.kind != kind)
  change f.blocks.popWhile (·.kind != kind) = _ at h
  rw [h] at hblocks
  exact ⟨inner, hblocks, by simpa using hinner⟩

/-- The innermost handler is taken together with the blocks inside it. -/
theorem takeHandler_eq_some_iff {r : Handler} : f.takeHandler = (some r, g) ↔
    ∃ rest : Stack Block, (f.expose .handler).blocks = rest.push (.handler r.entry r.sp r.scope) ∧
      g = { f with blocks := rest } := by
  rw [takeHandler]
  rcases (f.expose .handler).blocks.eq_empty_or_push with h | ⟨b, rest, h⟩
  · simp [h]
  · cases b with
    | loop => simp [h]
    | handler entry sp scope =>
        obtain ⟨rentry, rsp, rscope⟩ := r
        simp [h]
        grind

end Frame

/-! ### Actions -/

namespace Action

variable {f g : Frame} {s t : Store} {e : Interrupt} {offset : Nat} {u : Unit} {b : Block}

theorem target_eq_ok_iff {v : Nat} : target offset ⟨f, s⟩ = .ok v ⟨g, t⟩ ↔
    offset ≤ f.code.code.size ∧ v = offset ∧ g = f ∧ t = s := by
  rw [target, onFrame_eq_ok_iff, CodeBlock.jumpTarget]
  split <;> simp [Except.map] <;> grind

theorem target_eq_error_iff : target offset ⟨f, s⟩ = .error e ⟨g, t⟩ ↔
    f.code.code.size < offset ∧ e = .fault (.jumpOutOfBounds offset f.code.code.size) ∧
      g = f ∧ t = s := by
  rw [target, onFrame_eq_error_iff, CodeBlock.jumpTarget]
  split <;> simp [Except.map] <;> grind

theorem jump_eq_ok_iff : jump offset ⟨f, s⟩ = .ok u ⟨g, t⟩ ↔
    offset ≤ f.code.code.size ∧ g = { f with pc := offset } ∧ t = s := by
  rw [jump, bind_eq_ok_iff]
  constructor
  · rintro ⟨v, ⟨f', s'⟩, htarget, hgo⟩
    obtain ⟨hin, rfl, rfl, rfl⟩ := target_eq_ok_iff.mp htarget
    cases hgo
    exact ⟨hin, rfl, rfl⟩
  · rintro ⟨hin, rfl, rfl⟩
    exact ⟨offset, ⟨f, t⟩, target_eq_ok_iff.mpr ⟨hin, rfl, rfl, rfl⟩, rfl⟩

theorem jump_eq_error_iff : jump offset ⟨f, s⟩ = .error e ⟨g, t⟩ ↔
    f.code.code.size < offset ∧ e = .fault (.jumpOutOfBounds offset f.code.code.size) ∧
      g = f ∧ t = s := by
  rw [jump, bind_eq_error_iff, target_eq_error_iff, or_iff_left]
  rintro ⟨v, ⟨f', s'⟩, -, hgo⟩
  cases hgo

theorem openBlock_eq_ok_iff {b : Frame → Block} : openBlock b ⟨f, s⟩ = .ok u ⟨g, t⟩ ↔
    f.blocks.height < f.code.maxBlocks ∧ g = { f with blocks := f.blocks.push (b f) } ∧
      t = s := by
  rw [openBlock, onFrame_eq_ok_iff]
  cases h : f.pushBlock (b f) with
  | ok f' =>
      obtain ⟨hroom, rfl⟩ := Frame.pushBlock_eq_ok_iff.mp h
      simp [Except.map, hroom, eq_comm]
  | error x =>
      obtain ⟨hfull, -⟩ := Frame.pushBlock_eq_error_iff.mp h
      simp [Except.map]
      omega

theorem openBlock_eq_error_iff {b : Frame → Block} : openBlock b ⟨f, s⟩ = .error e ⟨g, t⟩ ↔
    f.code.maxBlocks ≤ f.blocks.height ∧
      e = .fault (.blockStackOverflow f.code.maxBlocks) ∧ g = f ∧ t = s := by
  rw [openBlock, onFrame_eq_error_iff]
  cases h : f.pushBlock (b f) with
  | ok f' =>
      obtain ⟨hroom, -⟩ := Frame.pushBlock_eq_ok_iff.mp h
      simp [Except.map]
      omega
  | error x =>
      obtain ⟨hfull, rfl⟩ := Frame.pushBlock_eq_error_iff.mp h
      simp [Except.map, hfull, eq_comm]

theorem popBlock_eq_ok_iff : popBlock ⟨f, s⟩ = .ok b ⟨g, t⟩ ↔
    ∃ rest : Stack Block, f.blocks = rest.push b ∧ g = { f with blocks := rest } ∧ t = s := by
  rw [popBlock, onFrame_eq_ok_iff, Frame.popBlock_eq_ok_iff, eq_comm (a := t)]
  simp only [← exists_and_right, and_assoc]

theorem discard_popBlock {rest : Stack Block} (h : f.blocks = rest.push b) :
    discard popBlock ⟨f, s⟩ = .ok () ⟨{ f with blocks := rest }, s⟩ := by
  rw [discard_eq, bind_eq_ok_iff]
  exact ⟨b, _, popBlock_eq_ok_iff.mpr ⟨rest, h, rfl, rfl⟩, rfl⟩

theorem popBlock_eq_error_iff : popBlock ⟨f, s⟩ = .error e ⟨g, t⟩ ↔
    f.blocks = .empty ∧ e = .fault .blockStackExhausted ∧ g = f ∧ t = s := by
  rw [popBlock, onFrame_eq_error_iff]
  simp only [Frame.popBlock_eq_error_iff]
  grind

theorem exposeLoop_eq (a : Activation) : exposeLoop a =
    onFrame (fun f => (f.exposed .loop).map (·, f)) ⟨a.frame.expose .loop, a.store⟩ :=
  rfl

theorem exposeLoop_eq_ok_iff : exposeLoop ⟨f, s⟩ = .ok b ⟨g, t⟩ ↔
    (∃ rest : Stack Block, (f.expose .loop).blocks = rest.push b) ∧ g = f.expose .loop ∧
      t = s := by
  rw [exposeLoop_eq, onFrame_eq_ok_iff, Frame.exposed]
  rcases (f.expose .loop).blocks.eq_empty_or_push with h | ⟨c, rest, h⟩
  · simp [h, Except.map]
  · simp [h, Except.map]
    grind

theorem exposeLoop_eq_error_iff : exposeLoop ⟨f, s⟩ = .error e ⟨g, t⟩ ↔
    (∀ b ∈ f.blocks.toList, b.kind ≠ .loop) ∧ e = .fault (.noMatchingBlock .loop) ∧
      g = f.expose .loop ∧ t = s := by
  rw [exposeLoop_eq, onFrame_eq_error_iff, Frame.exposed, ← Frame.blocks_expose_eq_empty_iff]
  rcases (f.expose .loop).blocks.eq_empty_or_push with h | ⟨c, rest, h⟩
  · simp [h, Except.map, eq_comm]
  · simp [h, Except.map, (Stack.empty_ne_push rest c).symm]

end Action

end ScriptMachine
