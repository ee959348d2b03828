import ScriptMachine.Proofs.Machine.Bracket

/-! An open block restores what it has saved. As long as the block is open and the operands that
lay below it are not taken off, they keep lying there, and the blocks outside of it stay open. So
whoever comes to a target of the block finds the operands, the scope and the blocks of its start. -/

namespace ScriptMachine

/-! ### What lies below a block -/

namespace Frame

/-- In `a` the block `b` is open that was opened in `f`. Below it lie the operands and the blocks of
`f`, and the blocks inside it remember no lower height. -/
structure Shelters (f : Frame) (b : Block) (a : Frame) : Prop where
  operands : f.stack.toList <:+ a.stack.toList
  blocks : ∃ inner, a.blocks = (f.blocks.push b).pushAll inner ∧ ∀ c ∈ inner, f.sp ≤ c.sp

variable {f a g : Frame} {b c : Block} {outer rest : Stack Block}

namespace Shelters

theorem with_operands (h : f.Shelters b a) (hblocks : g.blocks = a.blocks)
    (hoperands : f.stack.toList <:+ g.stack.toList) : f.Shelters b g :=
  ⟨hoperands, hblocks ▸ h.blocks⟩

theorem fetched (h : f.Shelters b a) (i : Instruction) : f.Shelters b (a.fetched i) :=
  h.with_operands rfl h.operands

theorem height_lt (h : f.Shelters b a) : f.blocks.height < a.blocks.height := by
  obtain ⟨inner, hblocks, -⟩ := h.blocks
  rw [hblocks, Stack.height_pushAll, Stack.height_push]
  omega

theorem lowest_eq (h : f.Shelters b a) : a.stack.lowest f.sp = f.stack :=
  Stack.lowest_of_suffix h.operands

/-- A block that is open is inside of `b`, `b` itself, or outside of it. -/
theorem split (h : f.Shelters b a) {xs : List Block}
    (hsplit : a.blocks = (outer.push c).pushAll xs) :
    (f.blocks.height < outer.height ∧ f.sp ≤ c.sp ∧
      ∃ inner, outer = (f.blocks.push b).pushAll inner ∧ ∀ d ∈ inner, f.sp ≤ d.sp) ∨
    (outer = f.blocks ∧ c = b) ∨ outer.height < f.blocks.height := by
  obtain ⟨inner, hblocks, hinner⟩ := h.blocks
  rw [hblocks] at hsplit
  rcases Stack.pushAll_eq_pushAll_push hsplit with ⟨zs, rfl, rfl⟩ | ⟨zs, hpush, -⟩
  · rw [List.forall_mem_append, List.forall_mem_cons] at hinner
    refine .inl ⟨?_, hinner.2.1, zs, rfl, hinner.2.2⟩
    simp only [Stack.height_pushAll, Stack.height_push]
    omega
  · cases zs with
    | nil =>
        obtain ⟨rfl, rfl⟩ := Stack.push_inj.mp hpush
        exact .inr (.inl ⟨rfl, rfl⟩)
    | cons d zs =>
        rw [Stack.pushAll_cons] at hpush
        obtain ⟨hrest, -⟩ := Stack.push_inj.mp hpush
        refine .inr (.inr ?_)
        rw [hrest, Stack.height_pushAll, Stack.height_push]
        omega

theorem inside (h : f.Shelters b a) {xs : List Block}
    (hsplit : a.blocks = (outer.push c).pushAll xs) (hopen : f.blocks.height < outer.height) :
    f.sp ≤ c.sp ∧ ∃ inner, outer = (f.blocks.push b).pushAll inner ∧ ∀ d ∈ inner, f.sp ≤ d.sp := by
  rcases h.split hsplit with hinside | ⟨rfl, -⟩ | houtside
  · exact hinside.2
  · omega
  · omega

/-- Operands taken off that do not lie below the block. -/
theorem dropped (h : f.Shelters b a) {n : Nat} (hspared : f.sp + n ≤ a.sp) :
    f.Shelters b (a.exchange n []) :=
  h.with_operands rfl (Stack.suffix_drop h.operands hspared)

theorem exchanged (h : f.Shelters b a) {n : Nat} (vs : List Value) (hspared : f.sp + n ≤ a.sp) :
    f.Shelters b (a.exchange n vs) :=
  h.with_operands rfl ((Stack.suffix_drop h.operands hspared).trans (Stack.suffix_pushAll _ vs))

end Shelters

end Frame

/-! ### Instructions -/

namespace Instruction

/-- The number of operands that an instruction takes off in a frame. One that it only looks at
stays. -/
def pops (i : Instruction) (f : Frame) : Nat :=
  match i.opcode with
  | .dupTop => 0
  | .jumpIfOrPop truth => if f.stack.top?.any (·.truthy == truth) then 0 else 1
  | _ => i.takes

variable {natives : Array Native} {i : Instruction} {f a g : Frame} {b : Block} {s t : Store}
  {next : Next}

/-- The block that an instruction opens in a frame. -/
def block? (i : Instruction) (f : Frame) : Option Block :=
  match i.opcode, i.operand with
  | .startTry, _ => some (.handler i.arg f.sp f.scope)
  | .startLoop, .pair iter finish => some (.loop i.next iter.toNat finish.toNat f.sp f.scope)
  | _, _ => none

/-- An instruction other than the two that look at an operand takes off what it takes. -/
theorem pops_cases (i : Instruction) (a : Frame) :
    i.opcode = .dupTop ∨ (∃ truth, i.opcode = .jumpIfOrPop truth) ∨ i.pops a = i.takes := by
  rw [pops]
  split
  · exact .inl ‹_›
  · exact .inr (.inl ⟨_, ‹_›⟩)
  · exact .inr (.inr rfl)

open ScriptMachine.Action

theorem execute_dupTop (hop : i.opcode = .dupTop) (h : i.execute natives ⟨a, s⟩ = .ok next ⟨g, t⟩) :
    ∃ v, g = a.exchange 0 [v] := by
  simp only [execute, hop, executeLocal] at h
  obtain ⟨_, ⟨a', s'⟩, hlocal, hproceed⟩ := bind_eq_ok_iff.mp h
  cases hproceed
  obtain ⟨v, ⟨a'', s''⟩, hpeek, hpush⟩ := bind_eq_ok_iff.mp hlocal
  obtain ⟨-, rfl, rfl⟩ := peek_eq_ok_iff.mp hpeek
  exact ⟨v, (Frame.push_eq_ok_iff.mp (push_eq_ok_iff.mp hpush).1).2⟩

theorem execute_jumpIfOrPop {truth : Bool} (hop : i.opcode = .jumpIfOrPop truth)
    (h : i.execute natives ⟨a, s⟩ = .ok next ⟨g, t⟩) :
    g = { a with pc := i.arg } ∨ g = a.exchange 1 [] ∧ i.pops a = 1 := by
  simp only [execute, hop, executeLocal] at h
  obtain ⟨_, ⟨a', s'⟩, hlocal, hproceed⟩ := bind_eq_ok_iff.mp h
  cases hproceed
  obtain ⟨v, ⟨a'', s''⟩, hpeek, hrest⟩ := bind_eq_ok_iff.mp hlocal
  obtain ⟨htop, rfl, rfl⟩ := peek_eq_ok_iff.mp hpeek
  split at hrest
  · exact .inl (jump_eq_ok_iff.mp hrest).2.1
  · rename_i hother
    obtain ⟨rest, hstack⟩ := Frame.peek_eq_ok_iff.mp htop
    refine .inr ⟨((Exchanges.pop (P := i.Misfit natives)).discarded.ok_zero hrest).2, ?_⟩
    simp [pops, hop, hstack, hother]

end Instruction

namespace Frame.Shelters

variable {natives : Array Native} {i : Instruction} {f a g : Frame} {b : Block} {s t : Store}
  {next : Next}

/-- An instruction that spares the operands below the block, and does not close it. -/
theorem executed (h : f.Shelters b a) (hb : f.sp ≤ b.sp) (hpc : a.pc = i.next)
    (hspared : f.sp + i.pops a ≤ a.sp) (hopen : f.blocks.height < g.blocks.height)
    (hexecute : i.execute natives ⟨a, s⟩ = .ok next ⟨g, t⟩) : f.Shelters b g := by
  rcases i.pops_cases a with hop | ⟨truth, hop⟩ | hpops
  · obtain ⟨v, rfl⟩ := Instruction.execute_dupTop hop hexecute
    exact h.exchanged [v] (by omega)
  · rcases Instruction.execute_jumpIfOrPop hop hexecute with rfl | ⟨rfl, hpops⟩
    · exact h.with_operands rfl h.operands
    · exact h.dropped (hpops ▸ hspared)
  rw [hpops] at hspared
  have hsp : f.sp ≤ a.sp := by omega
  cases Instruction.execute_ok hpc hexecute with
  | exchanged => exact h.exchanged _ hspared
  | scopeChanged => exact h.with_operands rfl h.operands
  | jumped =>
      have hle := i.takesOnJump_le_takes
      exact h.with_operands rfl (h.dropped (n := i.takesOnJump) (by omega)).operands
  | called => exact h.dropped hspared
  | returned hop =>
      have htakes : i.takes = 1 := by simp [Instruction.takes, hop]
      exact h.dropped (htakes ▸ hspared)
  | loopOpened | handlerOpened =>
      obtain ⟨inner, hblocks, hinner⟩ := h.blocks
      refine ⟨h.operands, _ :: inner, by rw [Stack.pushAll_cons, ← hblocks], ?_⟩
      rw [List.forall_mem_cons]
      exact ⟨hsp, hinner⟩
  | blockClosed _ hblocks =>
      exact ⟨h.operands, (h.inside (hblocks.trans (Stack.pushAll_nil _).symm) hopen).2⟩
  | loopLeft _ hexpose =>
      obtain ⟨xs, hblocks, -⟩ := exists_of_blocks_expose hexpose
      obtain ⟨hloop, hinner⟩ := h.inside hblocks hopen
      exact ⟨Stack.suffix_lowest h.operands hloop, hinner⟩
  | @loopRepeated start iter finish sp e rest _ hexpose =>
      obtain ⟨xs, hblocks, -⟩ := exists_of_blocks_expose hexpose
      rcases h.split hblocks with ⟨-, hloop, inner, hrest, hinner⟩ | ⟨rfl, rfl⟩ | houtside
      · refine ⟨Stack.suffix_lowest h.operands hloop, .loop start iter finish sp e :: inner, ?_, ?_⟩
        · rw [Stack.pushAll_cons, ← hrest]
          exact hexpose
        · rw [List.forall_mem_cons]
          exact ⟨hloop, hinner⟩
      · exact ⟨Stack.suffix_lowest h.operands hb, [], hexpose, by simp⟩
      · have hheight := congrArg Stack.height hexpose
        rw [Stack.height_push] at hheight
        change f.blocks.height < (a.expose .loop).blocks.height at hopen
        omega

/-- The same for an instruction that raises an exception. -/
theorem raised (h : f.Shelters b a) (hpc : a.pc = i.next) (hspared : f.sp + i.pops a ≤ a.sp)
    {z : Exception} (hexecute : i.execute natives ⟨a, s⟩ = .error (.raised z) ⟨g, t⟩) :
    f.Shelters b g := by
  rcases i.pops_cases a with hop | ⟨truth, hop⟩ | hpops
  · have hsilent : (i.execute natives).RaisesOnly fun _ => False := by
      simp only [Instruction.execute, hop, Instruction.executeLocal]
      exact (Action.RaisesOnly.onFrame_bind fun _ => .onFrame _).bind fun _ => .pure _
    exact (hsilent _ _ z hexecute).elim
  · have hsilent : (i.execute natives).RaisesOnly fun _ => False := by
      simp only [Instruction.execute, hop, Instruction.executeLocal]
      exact (Action.RaisesOnly.jumpIfOrPop truth i.arg).bind fun _ => .pure _
    exact (hsilent _ _ z hexecute).elim
  · cases Instruction.execute_error hpc hexecute with
    | raised hle => exact h.dropped (by omega)

/-- A handler inside of the block restores at least what lies below the block. -/
theorem resumed {r : Handler} {outer : Stack Block} (h : f.Shelters b a) (hr : a.Handles r outer)
    (hopen : f.blocks.height < outer.height) : f.Shelters b (a.resumed r outer) := by
  obtain ⟨inner, hblocks, -⟩ := hr
  obtain ⟨hhandler, hinside⟩ := h.inside hblocks hopen
  exact ⟨Stack.suffix_lowest h.operands hhandler, hinside⟩

end Frame.Shelters

/-! ### Steps -/

namespace Machine

variable {m n k : Machine} {f g g' : Frame} {below : Stack Frame} {above : List Frame}

/-- What a step makes of one frame, which need not be the innermost one. -/
inductive Moves (n : Machine) (below : Stack Frame) (g : Frame) : Frame → Prop where
  | waited : Moves n below g g
  | returned {g' : Frame} {v : Value} : g.push v = .ok g' → Moves n below g g'
  | executed {g' : Frame} {k : Machine} {i : Instruction} {next : Next} {t : Store} :
      n.frames = below.push g → g.Fetches i →
      i.execute n.natives ⟨g.fetched i, n.store⟩ = .ok next ⟨g', t⟩ → n.attempt = .running k →
      Moves n below g g'
  | caught {h : Frame} {r : Frame.Handler} {outer : Stack Block} {z : Exception} {left : Machine} :
      n.attempt = .interrupted (.raised z) left →
      h = g ∨ (∃ i t, n.frames = below.push g ∧ g.Fetches i ∧
        i.execute n.natives ⟨g.fetched i, n.store⟩ = .error (.raised z) ⟨h, t⟩) →
      h.Handles r outer → Moves n below g ((h.resumed r outer).exchange 0 [.exception z.markCaught])

/-- An exception that ends in no frame below is caught by the innermost frame. -/
theorem Delivers.caught_of_height {z : Exception} (h : m.Delivers z (.running k))
    (hframes : m.frames = below.push f) (hheight : below.height < k.frames.height) :
    ∃ r outer, f.Handles r outer ∧
      k.frames = below.push ((f.resumed r outer).exchange 0 [.exception z.markCaught]) := by
  cases h with
  | @caught f' below' above r outer log _ hcaught _ hf _ =>
      rw [hframes] at hcaught
      cases above with
      | nil =>
          obtain ⟨rfl, rfl⟩ := Stack.push_inj.mp hcaught
          exact ⟨r, outer, hf, rfl⟩
      | cons d above =>
          rw [Stack.pushAll_cons] at hcaught
          obtain ⟨rfl, -⟩ := Stack.push_inj.mp hcaught
          simp only [Stack.height_pushAll, Stack.height_push] at hheight
          omega

theorem moves_of_innermost (hframes : n.frames = below.push g) (hstep : n.step = .running k)
    (hheight : below.height < k.frames.height) :
    ∃ g' above, k.frames = (below.push g').pushAll above ∧ n.Moves below g g' := by
  have hattempts := n.attempts_attempt
  rw [step_eq_settle] at hstep
  generalize hattempt : n.attempt = x at hattempts hstep
  cases hattempts with
  | idle => cases hstep
  | unread => cases hstep
  | proceeded hpush hi hexecute =>
      rw [hframes, Stack.push_inj] at hpush
      obtain ⟨rfl, rfl⟩ := hpush
      cases hstep
      exact ⟨_, [], rfl, .executed hframes hi hexecute hattempt⟩
  | entered hpush hi hexecute =>
      rw [hframes, Stack.push_inj] at hpush
      obtain ⟨rfl, rfl⟩ := hpush
      cases hstep
      exact ⟨_, [_], rfl, .executed hframes hi hexecute hattempt⟩
  | refused _ _ _ hrefused =>
      rcases refusal?_eq_some hrefused with ⟨message, rfl⟩ | ⟨y, rfl⟩ <;> cases hstep
  | @interrupted _ h _ i t e hpush hi hexecute =>
      rw [hframes, Stack.push_inj] at hpush
      obtain ⟨rfl, rfl⟩ := hpush
      cases e with
      | fault y => cases hstep
      | raised z =>
          have hdelivers := delivers_raise { n with store := t, frames := below.push h } z
          rw [Attempt.settle, interrupt] at hstep
          rw [hstep] at hdelivers
          obtain ⟨r, outer, hh, hk⟩ := hdelivers.caught_of_height rfl hheight
          exact ⟨_, [], hk, .caught hattempt (.inr ⟨i, t, hframes, hi, hexecute⟩) hh⟩
  | returned => cases hstep
  | resumed hpush =>
      rw [hframes, Stack.push_inj] at hpush
      cases hstep
      simp [hpush.1] at hheight
  | overflowed => cases hstep

/-- A step that does not leave a frame moves it in one of the ways listed. -/
theorem moves_of_step (hframes : n.frames = (below.push g).pushAll above)
    (hstep : n.step = .running k) (hheight : below.height < k.frames.height) :
    ∃ g' above', k.frames = (below.push g').pushAll above' ∧ n.Moves below g g' := by
  cases above with
  | nil => exact moves_of_innermost hframes hstep hheight
  | cons c above =>
      have hover : n.Over (below.push g) := ⟨c, above, hframes⟩
      rcases hover.step hstep with ⟨d, above', hk⟩ | ⟨d, v, g', -, -, hput, hk⟩ |
        ⟨z, left, above', hattempt, -, -, hdelivers⟩
      · exact ⟨g, d :: above', hk, .waited⟩
      · exact ⟨g', [], hk, .returned hput⟩
      · obtain ⟨r, outer, hg, hk⟩ := hdelivers.caught_of_height rfl hheight
        exact ⟨_, [], hk, .caught hattempt (.inl rfl) hg⟩

/-! ### Open blocks -/

/-- A frame at the depth of `f` is active and has a block open that `f` has not, and its next
instruction, if it is innermost, spares the operands of `f`. -/
def Spares (f : Frame) (depth : Nat) (n : Machine) : Prop :=
  ∃ a below above, n.frames = (Stack.push below a).pushAll above ∧ below.height = depth ∧
    f.blocks.height < a.blocks.height ∧
    (above = [] → ∀ i, a.Fetches i → f.sp + i.pops a ≤ a.sp)

theorem Spares.spared (h : n.Spares f below.height) (hframes : n.frames = below.push g)
    {i : Instruction} (hi : g.Fetches i) : f.sp + i.pops g ≤ g.sp := by
  obtain ⟨a, below', above, hframes', hheight, -, hspared⟩ := h
  obtain ⟨rfl, rfl, rfl⟩ :=
    Stack.push_pushAll_inj ((hframes'.symm.trans hframes).trans (Stack.pushAll_nil _).symm) hheight
  exact hspared rfl i hi

variable {b : Block}

/-- An exception that has come to a frame has left alone what lies below the block. -/
theorem Spares.reached {h : Frame} {z : Exception} (hspares : n.Spares f below.height)
    (hshelters : f.Shelters b g)
    (hfrom : h = g ∨ ∃ i t, n.frames = below.push g ∧ g.Fetches i ∧
      i.execute n.natives ⟨g.fetched i, n.store⟩ = .error (.raised z) ⟨h, t⟩) :
    f.Shelters b h := by
  rcases hfrom with rfl | ⟨i, t, hframes, hi, hexecute⟩
  · exact hshelters
  · exact (hshelters.fetched i).raised rfl (hspares.spared hframes hi) hexecute

/-- What one step makes of a frame keeps what lies below a block, as long as it is open. -/
theorem Moves.shelters (h : n.Moves below g g') (hspares : n.Spares f below.height)
    (hshelters : f.Shelters b g) (hb : f.sp ≤ b.sp) (hopen : f.blocks.height < g'.blocks.height) :
    f.Shelters b g' := by
  cases h with
  | waited => exact hshelters
  | returned hput =>
      obtain ⟨-, rfl⟩ := Frame.push_eq_ok_iff.mp hput
      exact hshelters.exchanged _ (Stack.height_le_of_suffix hshelters.operands)
  | executed hframes hi hexecute _ =>
      exact (hshelters.fetched _).executed hb rfl (hspares.spared hframes hi) hopen hexecute
  | caught _ hfrom hr =>
      have hresumed := (hspares.reached hshelters hfrom).resumed hr hopen
      exact hresumed.exchanged _ (Stack.height_le_of_suffix hresumed.operands)

/-- As long as a block is open and the operands below it are spared, they stay, and so do the
blocks outside of it and the frames below. -/
theorem Stays.shelters {n₁ : Machine} {g₁ : Frame} (hframes : n₁.frames = below.push g₁)
    (hshelters : f.Shelters b g₁) (hb : f.sp ≤ b.sp)
    (hstays : n₁.Stays (Spares f below.height) n) :
    ∃ g above, n.frames = (below.push g).pushAll above ∧ f.Shelters b g := by
  induction hstays with
  | start => exact ⟨g₁, [], hframes, hshelters⟩
  | @step n k hn hstep hk ih =>
      obtain ⟨g, above, hframes, hg⟩ := ih
      obtain ⟨a, below', above', hkframes, hkheight, hopen, -⟩ := hk
      have hheight : below.height < k.frames.height := by
        rw [hkframes, Stack.height_pushAll, Stack.height_push]
        omega
      obtain ⟨g', above₁, hkframes', hmoves⟩ := moves_of_step hframes hstep hheight
      obtain ⟨rfl, rfl, rfl⟩ := Stack.push_pushAll_inj (hkframes.symm.trans hkframes') hkheight
      exact ⟨a, above', hkframes', hmoves.shelters hn.holds hg hb hopen⟩

/-! ### Targets of a block -/

/-- What has become of the frame `f` when, in the step from `n` to `k`, control reaches a target of
the block `b` that `f` has opened. The block is known by its place: as many blocks are open outside
of it as in `f`. -/
structure Restores (below : Stack Frame) (f : Frame) (b : Block) (n k : Machine) : Prop where
  /-- An exception has been delivered to the block. -/
  caught : ∀ entry sp e, b = .handler entry sp e →
    ∀ z left, n.attempt = .interrupted (.raised z) left →
    ∀ below' g, k.frames = Stack.push below' g → below'.height = below.height →
      g.blocks.height = f.blocks.height →
      below' = below ∧ g.stack = f.stack.push (.exception { z with caught := true }) ∧
        g.scope = f.scope ∧ g.blocks = f.blocks ∧ g.pc = entry
  /-- The loop has been left. -/
  broken : ∀ start iter finish sp e, b = .loop start iter finish sp e →
    ∀ below' a i, n.frames = Stack.push below' a → below'.height = below.height → a.Fetches i →
      i.opcode = .break_ → ∀ g, k.frames = below'.push g → g.blocks.height = f.blocks.height →
      below' = below ∧ g.stack = f.stack ∧ g.scope = f.scope ∧ g.blocks = f.blocks ∧ g.pc = finish
  /-- The loop goes on with its next round. -/
  continued : ∀ start iter finish sp e, b = .loop start iter finish sp e →
    ∀ below' a i, n.frames = Stack.push below' a → below'.height = below.height → a.Fetches i →
      i.opcode = .continue_ → ∀ g, k.frames = below'.push g →
      g.blocks.height = f.blocks.height + 1 →
      below' = below ∧ g.stack = f.stack ∧ g.scope = f.scope ∧ g.blocks = f.blocks.push b ∧
        g.pc = iter

/-- A step by an instruction that neither calls nor returns nor raises an exception. -/
theorem effect_of_step {a : Frame} {i : Instruction} (hframes : n.frames = below.push a)
    (hi : a.Fetches i) (hcall : i.opcode ≠ .call) (hreturn : i.opcode ≠ .return_)
    (hsilent : i.executeLocal.RaisesOnly fun _ => False) (hstep : n.step = .running k) :
    ∃ g t, i.Effect (a.fetched i) t .proceed g ∧ k.frames = below.push g := by
  rw [step_eq_settle, attempt_eq hframes hi] at hstep
  have hlocal : i.execute n.natives = _ := Instruction.execute_eq hcall hreturn
  cases hexecute : i.execute n.natives ⟨a.fetched i, n.store⟩ with
  | ok next c =>
      obtain ⟨g, t⟩ := c
      have heffect := Instruction.execute_ok rfl hexecute
      rw [hlocal] at hexecute
      obtain ⟨_, c, -, hproceed⟩ := bind_eq_ok_iff.mp hexecute
      cases hproceed
      rw [hlocal, hexecute] at hstep
      cases hstep
      exact ⟨g, t, heffect, rfl⟩
  | error e c =>
      rw [hexecute] at hstep
      cases e with
      | fault y => cases hstep
      | raised z =>
          rw [hlocal] at hexecute
          exact ((hsilent.bind fun _ => .pure _) _ _ z hexecute).elim

/-- A step that opens a block. -/
theorem frames_of_block? {b : Block} {i : Instruction} (hframes : n.frames = below.push f)
    (hi : f.Fetches i) (hb : i.block? f = some b) (hstep : n.step = .running k) :
    k.frames = below.push { f.fetched i with blocks := f.blocks.push b } ∧ b.sp = f.sp ∧
      b.scope = f.scope := by
  rw [Instruction.block?] at hb
  split at hb
  · rename_i hop
    cases hb
    have hsilent : i.executeLocal.RaisesOnly fun _ => False := by
      simp only [Instruction.executeLocal, hop]
      exact .onFrame_bind fun _ => .onFrame _
    obtain ⟨g, t, heffect, hk⟩ :=
      effect_of_step hframes hi (by simp [hop]) (by simp [hop]) hsilent hstep
    obtain rfl := heffect.of_startTry hop
    exact ⟨hk, rfl, rfl⟩
  · rename_i iter finish hop hoperand
    cases hb
    have hsilent : i.executeLocal.RaisesOnly fun _ => False := by
      simp only [Instruction.executeLocal, hop]
      exact .startLoop i
    obtain ⟨g, t, heffect, hk⟩ :=
      effect_of_step hframes hi (by simp [hop]) (by simp [hop]) hsilent hstep
    obtain rfl := heffect.of_startLoop hop hoperand
    exact ⟨hk, rfl, rfl⟩
  · cases hb

/-- A handler that is taken has restored its frame. -/
theorem caught_of_shelters {left : Machine} {below' : Stack Frame} {z : Exception}
    {entry sp : Nat} {e : ScopeId}
    (hspares : n.Spares f below.height) (hframes : n.frames = (below.push g).pushAll above)
    (hg : f.Shelters (.handler entry sp e) g) (hsp : sp = f.sp)
    (hattempt : n.attempt = .interrupted (.raised z) left) (hstep : n.step = .running k)
    (hk : k.frames = below'.push g') (hdepth : below'.height = below.height)
    (hclosed : g'.blocks.height = f.blocks.height) :
    below' = below ∧ g'.stack = f.stack.push (.exception { z with caught := true }) ∧
      g'.scope = e ∧ g'.blocks = f.blocks ∧ g'.pc = entry := by
  have hheight : below.height < k.frames.height := by
    rw [hk, Stack.height_push]
    omega
  obtain ⟨g'', above', hk', hmoves⟩ := moves_of_step hframes hstep hheight
  obtain ⟨rfl, rfl, rfl⟩ :=
    Stack.push_pushAll_inj ((Stack.pushAll_nil _).trans (hk.symm.trans hk')) hdepth
  have hopen := hg.height_lt
  cases hmoves with
  | waited => omega
  | returned hput =>
      obtain ⟨-, rfl⟩ := Frame.push_eq_ok_iff.mp hput
      change g.blocks.height = _ at hclosed
      omega
  | executed _ _ _ hrunning =>
      rw [hattempt] at hrunning
      cases hrunning
  | @caught h r outer z' left' hattempt' hfrom hr =>
      rw [hattempt] at hattempt'
      cases hattempt'
      have hreached := hspares.reached hg hfrom
      obtain ⟨inner, hblocks, -⟩ := hr
      change outer.height = _ at hclosed
      rcases hreached.split hblocks with ⟨hinside, -⟩ | ⟨rfl, hb⟩ | houtside
      · omega
      · cases hb
        refine ⟨rfl, ?_, rfl, rfl, rfl⟩
        rw [← hreached.lowest_eq, ← hsp]
        rfl
      · omega

/-- To leave the loop restores its frame. -/
theorem broken_of_shelters {a : Frame} {i : Instruction} {start iter finish sp : Nat} {e : ScopeId}
    (hframes : n.frames = below.push a) (ha : f.Shelters (.loop start iter finish sp e) a)
    (hsp : sp = f.sp) (hi : a.Fetches i) (hop : i.opcode = .break_) (hstep : n.step = .running k)
    (hk : k.frames = below.push g) (hclosed : g.blocks.height = f.blocks.height) :
    g.stack = f.stack ∧ g.scope = e ∧ g.blocks = f.blocks ∧ g.pc = finish := by
  have hsilent : i.executeLocal.RaisesOnly fun _ => False := by
    simp only [Instruction.executeLocal, hop]
    exact .breakLoop
  obtain ⟨g', t, heffect, hk'⟩ :=
    effect_of_step hframes hi (by simp [hop]) (by simp [hop]) hsilent hstep
  rw [hk, Stack.push_inj] at hk'
  obtain ⟨-, rfl⟩ := hk'
  obtain ⟨start', iter', finish', sp', e', rest, hexpose, rfl⟩ := heffect.of_break hop
  obtain ⟨xs, hblocks, -⟩ := Frame.exists_of_blocks_expose hexpose
  rcases (ha.fetched i).split hblocks with ⟨hinside, -⟩ | ⟨rfl, hb⟩ | houtside
  · change rest.height = _ at hclosed
    omega
  · cases hb
    refine ⟨?_, rfl, rfl, rfl⟩
    rw [← ha.lowest_eq, ← hsp]
    rfl
  · change rest.height = _ at hclosed
    omega

/-- To go on with the loop restores its frame. -/
theorem continued_of_shelters {a : Frame} {i : Instruction} {start iter finish sp : Nat}
    {e : ScopeId} (hframes : n.frames = below.push a)
    (ha : f.Shelters (.loop start iter finish sp e) a) (hsp : sp = f.sp) (hi : a.Fetches i)
    (hop : i.opcode = .continue_) (hstep : n.step = .running k) (hk : k.frames = below.push g)
    (hkept : g.blocks.height = f.blocks.height + 1) :
    g.stack = f.stack ∧ g.scope = e ∧ g.blocks = f.blocks.push (.loop start iter finish sp e) ∧
      g.pc = iter := by
  have hsilent : i.executeLocal.RaisesOnly fun _ => False := by
    simp only [Instruction.executeLocal, hop]
    exact .continueLoop
  obtain ⟨g', t, heffect, hk'⟩ :=
    effect_of_step hframes hi (by simp [hop]) (by simp [hop]) hsilent hstep
  rw [hk, Stack.push_inj] at hk'
  obtain ⟨-, rfl⟩ := hk'
  obtain ⟨start', iter', finish', sp', e', rest, hexpose, rfl⟩ := heffect.of_continue hop
  obtain ⟨xs, hblocks, -⟩ := Frame.exists_of_blocks_expose hexpose
  have hheight := congrArg Stack.height hexpose
  rw [Stack.height_push] at hheight
  change ((a.fetched i).expose .loop).blocks.height = _ at hkept
  rcases (ha.fetched i).split hblocks with ⟨hinside, -⟩ | ⟨rfl, hb⟩ | houtside
  · omega
  · cases hb
    refine ⟨?_, rfl, hexpose, rfl⟩
    rw [← ha.lowest_eq, ← hsp]
    rfl
  · omega

/-- A block restores what it has saved: whenever control comes to a target of a block that is still
open, and the operands below the block have been spared since its start, its frame has the operands,
the scope and the blocks of that start again. -/
theorem restores_of_stays {n₀ n₁ : Machine} {i : Instruction} (hframes : n₀.frames = below.push f)
    (hi : f.Fetches i) (hb : i.block? f = some b) (hopen : n₀.step = .running n₁)
    (hstays : n₁.Stays (Spares f below.height) n) (hstep : n.step = .running k) :
    n.Restores below f b k := by
  obtain ⟨hn₁, hsp, hscope⟩ := frames_of_block? hframes hi hb hopen
  have hopened : f.Shelters b { f.fetched i with blocks := f.blocks.push b } :=
    ⟨List.suffix_refl _, [], rfl, by simp⟩
  obtain ⟨g, above, hn, hg⟩ := hstays.shelters hn₁ hopened (Nat.le_of_eq hsp.symm)
  constructor
  · rintro entry sp e rfl z left hattempt below' g' hk hheight hclosed
    obtain ⟨rfl, hstack, hscope', hrest⟩ := caught_of_shelters hstays.holds hn hg hsp hattempt hstep
      hk hheight hclosed
    exact ⟨rfl, hstack, hscope'.trans hscope, hrest⟩
  · rintro start iter finish sp e rfl below' a j hframes' hheight hj hop g' hk hclosed
    obtain ⟨rfl, rfl, rfl⟩ :=
      Stack.push_pushAll_inj ((Stack.pushAll_nil _).trans (hframes'.symm.trans hn)) hheight
    obtain ⟨hstack, hscope', hrest⟩ := broken_of_shelters hn hg hsp hj hop hstep hk hclosed
    exact ⟨rfl, hstack, hscope'.trans hscope, hrest⟩
  · rintro start iter finish sp e rfl below' a j hframes' hheight hj hop g' hk hkept
    obtain ⟨rfl, rfl, rfl⟩ :=
      Stack.push_pushAll_inj ((Stack.pushAll_nil _).trans (hframes'.symm.trans hn)) hheight
    obtain ⟨hstack, hscope', hrest⟩ := continued_of_shelters hn hg hsp hj hop hstep hk hkept
    exact ⟨rfl, hstack, hscope'.trans hscope, hrest⟩

/-- A loop that is left at once. -/
theorem restores_break :
    let c : CodeBlock := { (default : CodeBlock) with
      code := #[Opcode.startLoop.byte, 0, 5, 0, 6, Opcode.break_.byte], maxStack := 1,
      maxBlocks := 1 }
    let f : Frame := { code := c, stack := Stack.empty.push .null, scope := 7 }
    let n₀ : Machine := { frames := Stack.empty.push f }
    ∃ n k g, n₀.step = .running n ∧ n.step = .running k ∧ k.frames = Stack.empty.push g ∧
      g.stack = f.stack ∧ g.scope = 7 ∧ g.blocks = .empty ∧ g.pc = 6 := by
  intro c f n₀
  have hloop : f.Fetches ⟨0, .startLoop, .pair 5 6⟩ :=
    Instruction.decodeAt_eq_ok_iff.mpr ⟨rfl, rfl, by decide⟩
  let a : Frame := { f.fetched ⟨0, .startLoop, .pair 5 6⟩ with
    blocks := Stack.empty.push (.loop 5 5 6 1 7) }
  have hbreak : a.Fetches ⟨5, .break_, .none⟩ :=
    Instruction.decodeAt_eq_ok_iff.mpr ⟨rfl, rfl, by decide⟩
  let n : Machine := { n₀ with frames := Stack.empty.push a }
  have hopen : n₀.step = .running n := by
    rw [step_eq_settle, attempt_eq (m := n₀) rfl hloop]
    rfl
  have hspares : n.Spares f 0 := by
    refine ⟨a, .empty, [], rfl, rfl, by decide, fun _ i hi => ?_⟩
    cases hbreak.symm.trans hi
    decide
  obtain ⟨k, g, hstep, hk, hclosed⟩ : ∃ k g, n.step = .running k ∧ k.frames = Stack.empty.push g ∧
      g.blocks.height = 0 := by
    rw [step_eq_settle, attempt_eq (m := n) rfl hbreak]
    exact ⟨_, _, rfl, rfl, rfl⟩
  have hrestores : n.Restores .empty f (.loop 5 5 6 1 7) k :=
    restores_of_stays rfl hloop rfl hopen (.start hspares) hstep
  obtain ⟨-, hrest⟩ :=
    hrestores.broken 5 5 6 1 7 rfl .empty a _ rfl rfl hbreak rfl g hk hclosed
  exact ⟨n, k, g, hopen, hstep, hk, hrest⟩

end Machine

end ScriptMachine
