import ScriptMachine.Proofs.Code.Decode
import ScriptMachine.Proofs.Machine.Invariant

/-! Declared depths. A depth map says for places in a block how many operands lie there and which
blocks are open. If it agrees with the instructions of the block, then every frame that executes
the block follows it, and no instruction finds too few or too many operands or open blocks. -/

namespace ScriptMachine

/-! ### Depth maps -/

/-- The faults of too few or too many operands or open blocks. -/
def Fault.ofDepth : Fault → Bool
  | .stackOverflow _ | .stackExhausted | .blockStackOverflow _ | .blockStackExhausted
  | .noMatchingBlock _ => true
  | _ => false

/-- Operations after which the next instruction may follow without a jump. -/
def Opcode.fallsThrough : Opcode → Bool
  | .jumpAbsolute | .jumpForward | .break_ | .continue_ | .throw | .return_ => false
  | _ => true

/-- The depths at a place: the number of operands, and the offsets of the instructions that opened
the open blocks, the innermost first. -/
structure Depth where
  height : Nat
  opened : List Nat
  deriving DecidableEq, Repr

/-- The depths when an instruction has gone on to the next one. -/
def Instruction.depthAfter (i : Instruction) (p : Depth) : Depth :=
  { height := p.height - i.takes + i.puts
    opened :=
      match i.opcode with
      | .startLoop | .startTry => i.offset :: p.opened
      | .endBlock => p.opened.tail
      | _ => p.opened }

theorem Opcode.fallsThrough_of_exchanges {o : Opcode} (h : o.exchanges) : o.fallsThrough := by
  cases o <;> simp_all [exchanges, fallsThrough]

theorem Opcode.fallsThrough_of_puts {i : Instruction} (h : 0 < i.puts) :
    i.opcode.fallsThrough := by
  obtain ⟨_, opcode, _⟩ := i
  cases opcode <;> simp_all [Instruction.puts, fallsThrough]

theorem Instruction.depthAfter_of_exchanges {i : Instruction} (h : i.opcode.exchanges) (p : Depth) :
    i.depthAfter p = ⟨p.height - i.takes + i.puts, p.opened⟩ := by
  obtain ⟨_, opcode, _⟩ := i
  cases opcode <;> simp_all [Opcode.exchanges, depthAfter]

/-- A loop starts at an offset of a block. -/
def CodeBlock.StartsLoop (c : CodeBlock) (offset : Nat) : Prop :=
  ∃ i, Instruction.decodeAt c.code offset = .ok i ∧ i.opcode = .startLoop

abbrev DepthMap := Nat → Option Depth

namespace DepthMap

/-- The number of operands that were there when the innermost of some open blocks was opened. The
instructions inside the block leave them alone. -/
def floor (d : DepthMap) : List Nat → Nat
  | [] => 0
  | start :: _ => (d start).elim 0 (·.height)

/-- A depth map agrees with a block: it starts empty, stays within the declared sizes, has every
instruction find its operands inside the innermost open block, and maps wherever an instruction may
lead to the depths that the instruction leaves. -/
structure Agrees (d : DepthMap) (c : CodeBlock) : Prop where
  entry : d 0 = some ⟨0, []⟩
  height_le {o : Nat} {p : Depth} : d o = some p → p.height ≤ c.maxStack
  opened_le {o : Nat} {p : Depth} : d o = some p → p.opened.length ≤ c.maxBlocks
  operands {o : Nat} {p : Depth} {i : Instruction} : d o = some p →
    Instruction.decodeAt c.code o = .ok i → d.floor p.opened + i.takes ≤ p.height
  next {o : Nat} {p : Depth} {i : Instruction} : d o = some p →
    Instruction.decodeAt c.code o = .ok i → i.opcode.fallsThrough →
    d i.next = some (i.depthAfter p)
  jump {o : Nat} {p : Depth} {i : Instruction} {target : Nat} : d o = some p →
    Instruction.decodeAt c.code o = .ok i → target ∈ i.jumps →
    d target = some ⟨p.height - i.takesOnJump, p.opened⟩
  /-- A handler finds the exception on top of the operands. -/
  handler {o : Nat} {p : Depth} {i : Instruction} : d o = some p →
    Instruction.decodeAt c.code o = .ok i → i.opcode = .startTry →
    d i.arg = some ⟨p.height + 1, p.opened⟩
  loop {o : Nat} {p : Depth} {i : Instruction} {iter finish : UInt16} : d o = some p →
    Instruction.decodeAt c.code o = .ok i → i.opcode = .startLoop →
    i.operand = .pair iter finish →
    d iter.toNat = some ⟨p.height, i.offset :: p.opened⟩ ∧
      d finish.toNat = some ⟨p.height, p.opened⟩
  endBlock {o : Nat} {p : Depth} {i : Instruction} : d o = some p →
    Instruction.decodeAt c.code o = .ok i → i.opcode = .endBlock → p.opened ≠ []
  inLoop {o : Nat} {p : Depth} {i : Instruction} : d o = some p →
    Instruction.decodeAt c.code o = .ok i → i.opcode = .break_ ∨ i.opcode = .continue_ →
    ∃ start ∈ p.opened, c.StartsLoop start

/-! ### Open blocks -/

/-- What a map says of an open block that was opened at an offset, inside others: where the block
may lead, the depths are those that it restores. -/
def Leads (d : DepthMap) (c : CodeBlock) (start : Nat) (outer : List Nat) : Block → Prop
  | .loop _ iter finish sp _ =>
    d iter = some ⟨sp, start :: outer⟩ ∧ d finish = some ⟨sp, outer⟩
  | .handler entry sp _ => ¬ c.StartsLoop start ∧ d entry = some ⟨sp + 1, outer⟩

/-- The open blocks of a frame are those that a map has open. -/
inductive Opens (d : DepthMap) (c : CodeBlock) : List Block → List Nat → Prop where
  | nil : Opens d c [] []
  | cons {b : Block} {blocks : List Block} {start : Nat} {outer : List Nat} :
      d start = some ⟨b.sp, outer⟩ → d.floor outer ≤ b.sp → d.Leads c start outer b →
      Opens d c blocks outer → Opens d c (b :: blocks) (start :: outer)

variable {d : DepthMap} {c : CodeBlock} {blocks : List Block} {opened : List Nat}

theorem Opens.length_eq (h : d.Opens c blocks opened) : blocks.length = opened.length := by
  induction h with
  | nil => rfl
  | cons _ _ _ _ ih => simp [ih]

@[simp]
theorem floor_cons {start : Nat} {outer : List Nat} {p : Depth} (h : d start = some p) :
    d.floor (start :: outer) = p.height := by
  simp [floor, h]

/-- Closing blocks from the inside leaves open what lies outside, at no greater height. -/
theorem Opens.of_suffix (h : d.Opens c blocks opened) {rest : List Block}
    (hrest : rest <:+ blocks) : ∃ outer, d.Opens c rest outer ∧ d.floor outer ≤ d.floor opened := by
  induction h with
  | nil =>
      obtain rfl := List.suffix_nil.mp hrest
      exact ⟨[], .nil, Nat.le_refl _⟩
  | @cons b blocks start outer hstart hfloor hleads hblocks ih =>
      rcases List.suffix_cons_iff.mp hrest with rfl | hrest
      · exact ⟨_, .cons hstart hfloor hleads hblocks, Nat.le_refl _⟩
      · obtain ⟨outer', hopens, hle⟩ := ih hrest
        refine ⟨outer', hopens, ?_⟩
        rw [floor_cons hstart]
        exact Nat.le_trans hle hfloor

/-- Where a map has a loop open, the frame has one open. -/
theorem Opens.exists_loop (h : d.Opens c blocks opened)
    (hloop : ∃ start ∈ opened, c.StartsLoop start) : ∃ b ∈ blocks, b.kind = .loop := by
  induction h with
  | nil => simp at hloop
  | @cons b blocks start outer _ _ hleads _ ih =>
      cases b with
      | loop => exact ⟨_, List.mem_cons_self, rfl⟩
      | handler =>
          obtain ⟨s, hs, hstarts⟩ := hloop
          rcases List.mem_cons.mp hs with rfl | hs
          · exact absurd hstarts hleads.1
          · obtain ⟨b, hb, hkind⟩ := ih ⟨s, hs, hstarts⟩
            exact ⟨b, List.mem_cons_of_mem _ hb, hkind⟩

/-! ### Frames that follow a map -/

/-- The open blocks of a frame are as in a map, and `height` operands are at least those that were
there when the innermost block was opened. -/
def Keeps (d : DepthMap) (f : Frame) (opened : List Nat) (height : Nat) : Prop :=
  d.Opens f.code f.blocks.toList opened ∧ d.floor opened ≤ height

/-- The operands and the open blocks of a frame are those of a map at its program counter. -/
def Follows (d : DepthMap) (f : Frame) : Prop :=
  ∃ opened, d f.pc = some ⟨f.sp, opened⟩ ∧ d.Keeps f opened f.sp

variable {f g : Frame} {i : Instruction} {t : Store} {next : Next}

/-- The innermost block of a kind, in a frame whose open blocks are as in a map. -/
theorem Keeps.expose {kind : BlockKind} {height : Nat} {b : Block} {rest : Stack Block}
    (h : d.Keeps f opened height) (hblocks : (f.expose kind).blocks = rest.push b) :
    ∃ start outer, d start = some ⟨b.sp, outer⟩ ∧ d.Leads f.code start outer b ∧
      d.Opens f.code rest.toList outer ∧ d.floor outer ≤ b.sp ∧ b.sp ≤ height := by
  have hsuffix : b :: rest.toList <:+ f.blocks.toList := by
    rw [← Stack.toList_push, ← hblocks]
    exact Frame.suffix_expose f kind
  obtain ⟨inner, hopens, hle⟩ := h.1.of_suffix hsuffix
  cases hopens with
  | @cons _ _ start outer hstart hfloor hleads hrest =>
      rw [floor_cons hstart] at hle
      exact ⟨start, outer, hstart, hleads, hrest, hfloor, Nat.le_trans hle h.2⟩

/-- Every instruction that goes on in its frame has the frame follow the map. -/
theorem Follows.effect (h : d.Follows f) (hagrees : d.Agrees f.code) (hi : f.Fetches i)
    (he : i.Effect (f.fetched i) t .proceed g) : d.Follows g := by
  obtain ⟨opened, hdepth, hkeeps⟩ := h
  obtain ⟨hopens, hfloor⟩ := hkeeps
  have hoperands : d.floor opened + i.takes ≤ f.sp := hagrees.operands hdepth hi
  have hnext := hagrees.next hdepth hi
  have hoffset : i.offset = f.pc := (Instruction.decodeAt_eq_ok_iff.mp hi).1
  have hstart : d i.offset = some ⟨f.sp, opened⟩ := hoffset ▸ hdepth
  cases he with
  | @exchanged vs hop htakes hlen hroom =>
      have hsp : ((f.fetched i).exchange i.takes vs).sp = f.sp - i.takes + i.puts := by
        rw [Frame.sp_exchange, hlen, Frame.sp_fetched, Nat.add_comm]
      refine ⟨opened, ?_, hopens, ?_⟩
      · rw [hsp]
        exact (hnext (Opcode.fallsThrough_of_exchanges hop)).trans
          (congrArg some (i.depthAfter_of_exchanges hop _))
      · rw [hsp]
        omega
  | scopeChanged hop =>
      refine ⟨opened, ?_, hopens, hfloor⟩
      have hsame : i.depthAfter ⟨f.sp, opened⟩ = ⟨f.sp, opened⟩ := by
        rcases hop with hop | hop <;>
          simp [Instruction.depthAfter, Instruction.takes, Instruction.puts, hop]
      exact (hnext (by rcases hop with hop | hop <;> rw [hop] <;> rfl)).trans (congrArg some hsame)
  | @jumped offset hjump hin htakes =>
      have hle := i.takesOnJump_le_takes
      have hsp : ((f.fetched i).exchange i.takesOnJump []).sp = f.sp - i.takesOnJump := by
        rw [Frame.sp_exchange, List.length_nil, Nat.zero_add, Frame.sp_fetched]
      refine ⟨opened, ?_, hopens, ?_⟩
      · exact (hagrees.jump hdepth hi hjump).trans (by rw [← hsp]; rfl)
      · exact Nat.le_trans (by omega) (Nat.le_of_eq hsp.symm)
  | @loopOpened iter finish hop hpair hiter hfinish hroom =>
      have hsame : i.depthAfter ⟨f.sp, opened⟩ = ⟨f.sp, i.offset :: opened⟩ := by
        simp [Instruction.depthAfter, Instruction.takes, Instruction.puts, hop]
      refine ⟨i.offset :: opened, ?_, .cons hstart hfloor ?_ hopens, ?_⟩
      · exact (hnext (by rw [hop]; rfl)).trans (congrArg some hsame)
      · exact hagrees.loop hdepth hi hop hpair
      · rw [floor_cons hstart]
        exact Nat.le_refl _
  | handlerOpened hop hin hroom =>
      have hsame : i.depthAfter ⟨f.sp, opened⟩ = ⟨f.sp, i.offset :: opened⟩ := by
        simp [Instruction.depthAfter, Instruction.takes, Instruction.puts, hop]
      refine ⟨i.offset :: opened, ?_, .cons hstart hfloor ⟨?_, ?_⟩ hopens, ?_⟩
      · exact (hnext (by rw [hop]; rfl)).trans (congrArg some hsame)
      · rintro ⟨j, hj, hloop⟩
        rw [hoffset] at hj
        cases Except.ok.inj (hi.symm.trans hj)
        rw [hop] at hloop
        cases hloop
      · exact hagrees.handler hdepth hi hop
      · rw [floor_cons hstart]
        exact Nat.le_refl _
  | @blockClosed b rest hop hblocks =>
      rw [Frame.blocks_fetched] at hblocks
      rw [hblocks] at hopens
      cases hopens with
      | @cons _ _ start outer hb hle hleads hrest =>
          rw [floor_cons hb] at hfloor
          have hsame : i.depthAfter ⟨f.sp, start :: outer⟩ = ⟨f.sp, outer⟩ := by
            simp [Instruction.depthAfter, Instruction.takes, Instruction.puts, hop]
          refine ⟨outer, ?_, hrest, Nat.le_trans hle hfloor⟩
          exact (hnext (by rw [hop]; rfl)).trans (congrArg some hsame)
  | @loopLeft start iter finish sp e rest hop hblocks =>
      obtain ⟨place, outer, hplace, hleads, hrest, hle, hsp⟩ :=
        Keeps.expose (f := f) ⟨hopens, hfloor⟩ hblocks
      have hheight : (f.truncate sp).sp = sp := Frame.sp_truncate hsp
      refine ⟨outer, ?_, hrest, hle.trans (Nat.le_of_eq hheight.symm)⟩
      exact hleads.2.trans (congrArg (fun n => some (Depth.mk n outer)) hheight.symm)
  | @loopRepeated start iter finish sp e rest hop hblocks =>
      obtain ⟨place, outer, hplace, hleads, hrest, hle, hsp⟩ :=
        Keeps.expose (f := f) ⟨hopens, hfloor⟩ hblocks
      have hheight : (f.truncate sp).sp = sp := Frame.sp_truncate hsp
      refine ⟨place :: outer, ?_, ?_, ?_⟩
      · exact hleads.1.trans (congrArg (fun n => some (Depth.mk n (place :: outer))) hheight.symm)
      · have hopens' := Opens.cons hplace hle hleads hrest
        rw [← Stack.toList_push, ← hblocks] at hopens'
        exact hopens'
      · rw [floor_cons hplace]
        exact Nat.le_of_eq hheight.symm

/-- A frame that waits for a call follows the map once the value is there. -/
def Awaits (d : DepthMap) (f : Frame) : Prop :=
  ∃ opened, d f.pc = some ⟨f.sp + 1, opened⟩ ∧ d.Keeps f opened f.sp

/-- A frame that an exception has reached still has the operands that its handlers restore. -/
def Survives (d : DepthMap) (f : Frame) : Prop :=
  ∃ opened, d.Keeps f opened f.sp

theorem Follows.called (h : d.Follows f) (hagrees : d.Agrees f.code) (hi : f.Fetches i)
    {callee : CodeBlock} {e : ScopeId} (he : i.Effect (f.fetched i) t (.enter callee e) g) :
    d.Awaits g := by
  obtain ⟨opened, hdepth, hopens, hfloor⟩ := h
  have hoperands : d.floor opened + i.takes ≤ f.sp := hagrees.operands hdepth hi
  have hnext := hagrees.next hdepth hi
  cases he with
  | called hop htakes =>
      have hexchanges : i.opcode.exchanges := by rw [hop]; rfl
      have hputs : i.puts = 1 := by simp [Instruction.puts, hop]
      have hsp : ((f.fetched i).exchange i.takes []).sp = f.sp - i.takes := by
        rw [Frame.sp_exchange, List.length_nil, Nat.zero_add, Frame.sp_fetched]
      rw [i.depthAfter_of_exchanges hexchanges, hputs] at hnext
      refine ⟨opened, ?_, hopens, by omega⟩
      rw [hsp]
      exact hnext (Opcode.fallsThrough_of_exchanges hexchanges)

theorem Follows.raised (h : d.Follows f) (hagrees : d.Agrees f.code) (hi : f.Fetches i)
    {natives : Array Native} {e : Exception}
    (he : i.Interrupted natives (f.fetched i) (.raised e) g) : d.Survives g := by
  obtain ⟨opened, hdepth, hopens, hfloor⟩ := h
  have hoperands : d.floor opened + i.takes ≤ f.sp := hagrees.operands hdepth hi
  cases he with
  | @raised _ j hj hsp =>
      refine ⟨opened, hopens, ?_⟩
      rw [Frame.sp_exchange, List.length_nil, Nat.zero_add, Frame.sp_fetched]
      omega

theorem Awaits.returned {v : Value} (h : d.Awaits f) (hpush : f.push v = .ok g) : d.Follows g := by
  obtain ⟨opened, hdepth, hopens, hfloor⟩ := h
  obtain ⟨-, rfl⟩ := Frame.push_eq_ok_iff.mp hpush
  have hsp : (f.exchange 0 [v]).sp = f.sp + 1 := by
    rw [Frame.sp_exchange, List.length_singleton, Nat.sub_zero, Nat.add_comm]
  refine ⟨opened, ?_, hopens, by omega⟩
  rw [hsp]
  exact hdepth

theorem Awaits.survives (h : d.Awaits f) : d.Survives f :=
  h.imp fun _ h => h.2

/-- A handler finds the operands that it restores, with the exception still to be put on top. -/
theorem Survives.restored {r : Frame.Handler} (h : d.Survives f)
    (hr : f.takeHandler = (some r, g)) : d.Awaits (g.restored r) := by
  obtain ⟨opened, hkeeps⟩ := h
  obtain ⟨rest, hblocks, rfl⟩ := Frame.takeHandler_eq_some_iff.mp hr
  obtain ⟨place, outer, -, hleads, hrest, hle, hsp⟩ := hkeeps.expose hblocks
  have hheight : (f.truncate r.sp).sp = r.sp := Frame.sp_truncate hsp
  refine ⟨outer, ?_, hrest, hle.trans (Nat.le_of_eq hheight.symm)⟩
  exact hleads.2.trans (congrArg (fun n => some (Depth.mk (n + 1) outer)) hheight.symm)

/-- There is room for the value that a frame awaits. -/
theorem Awaits.push_ne_error {v : Value} {y : Fault} (h : d.Awaits f) (hagrees : d.Agrees f.code) :
    f.push v ≠ .error y := by
  intro hpush
  obtain ⟨opened, hdepth, -⟩ := h
  have hroom : f.sp + 1 ≤ f.code.maxStack := hagrees.height_le hdepth
  have hfull := (Frame.push_eq_error_iff.mp hpush).1
  omega

/-! ### Faults of depth -/

/-- In a frame that follows a map that agrees with its block, no instruction ends in a fault of
depth by itself; a native that it calls may answer with one. -/
theorem Follows.native_of_faults {natives : Array Native} {y : Fault} (h : d.Follows f)
    (hagrees : d.Agrees f.code) (hi : f.Fetches i) (hy : i.Faults natives (f.fetched i) y)
    (hdepth : y.ofDepth) : i.opcode = .call ∧ ∃ n ∈ natives, n.Answers y := by
  obtain ⟨opened, hhere, hopens, hfloor⟩ := h
  have hoperands : d.floor opened + i.takes ≤ f.sp := hagrees.operands hhere hi
  have hnext := hagrees.next hhere hi
  have hlength := hopens.length_eq
  rw [← Stack.height_eq] at hlength
  cases hy with
  | operands hop =>
      rcases hop with ⟨hlow, -⟩ | ⟨hputs, hhigh, -⟩
      · rw [Frame.sp_fetched] at hlow
        omega
      · have hroom := hagrees.height_le (hnext (Opcode.fallsThrough_of_puts hputs))
        simp only [Instruction.depthAfter] at hroom
        rw [Frame.code_fetched, Frame.sp_fetched] at hhigh
        omega
  | blocksFull hop hfull =>
      have hroom := hagrees.opened_le (hnext (by rcases hop with hop | hop <;> rw [hop] <;> rfl))
      have hopened : (i.depthAfter ⟨f.sp, opened⟩).opened = i.offset :: opened := by
        rcases hop with hop | hop <;> simp [Instruction.depthAfter, hop]
      rw [hopened, List.length_cons] at hroom
      rw [Frame.code_fetched, Frame.blocks_fetched] at hfull
      omega
  | noBlock hop hempty =>
      rw [Frame.blocks_fetched] at hempty
      rw [hempty] at hopens
      cases hopens
      exact absurd rfl (hagrees.endBlock hhere hi hop)
  | noLoop hop hnone =>
      obtain ⟨b, hb, hkind⟩ := hopens.exists_loop (hagrees.inLoop hhere hi hop)
      exact absurd hkind (hnone b hb)
  | misfit hmisfit =>
      cases hmisfit with
      | native hop hn hanswers => exact ⟨hop, _, hn, hanswers⟩
      | _ => cases hdepth

end DepthMap

/-! ### Runs -/

namespace Machine

open DepthMap

variable {natives : Array Native} {limits : Limits}

/-- Every map that agrees with the block of a frame, as an invariant. Nothing is asked of frames
that execute other blocks. -/
def depths (natives : Array Native) (limits : Limits) : Invariant natives limits where
  running f := ∀ d : DepthMap, d.Agrees f.code → d.Follows f
  suspended f := ∀ d : DepthMap, d.Agrees f.code → d.Awaits f
  raising f := ∀ d : DepthMap, d.Agrees f.code → d.Survives f
  left _ := True
  code _ := True
  store _ := True
  entered _ _ _ d hagrees := ⟨[], hagrees.entry, .nil, Nat.le_refl _⟩
  proceeds hf hi he d hagrees := by
    rw [he.code_eq] at hagrees
    exact (hf d hagrees).effect hagrees hi he
  calls hf hi he d hagrees := by
    rw [he.code_eq] at hagrees
    exact (hf d hagrees).called hagrees hi he
  interrupted hf hi he d hagrees := by
    rw [he.code_eq] at hagrees
    exact (hf d hagrees).raised hagrees hi he
  returned hf hpush d hagrees := by
    rw [Frame.code_of_push hpush] at hagrees
    exact (hf d hagrees).returned hpush
  reached hf d hagrees := (hf d hagrees).survives
  delivered hf hr hpush d hagrees := by
    rw [Frame.code_of_push hpush, Frame.code_restored hr] at hagrees
    exact ((hf d hagrees).restored hr).returned hpush
  left_of_running _ := trivial
  left_of_raising _ := trivial
  left_of_faulted _ _ _ := trivial
  left_of_restored _ _ := trivial
  stored _ _ := trivial
  stored_of_interrupted _ _ := trivial
  callable _ _ := trivial

/-- A fault of depth in a frame that executes a block with an agreeing map was the answer of a
native that the frame called. -/
theorem native_of_cause {y : Fault} {frames : Stack Frame}
    (h : (depths natives limits).Cause y frames) (hy : y.ofDepth) :
    ∃ f below, frames = Stack.push below f ∧ ∀ d : DepthMap, d.Agrees f.code →
      ∃ i, Instruction.decodeAt f.code.code f.lastOffset = .ok i ∧ i.opcode = .call ∧
        ∃ n ∈ natives, n.Answers y := by
  cases h with
  | stackLimit => cases hy
  | blockLimit => cases hy
  | decoding _ _ hdecode =>
      rcases Instruction.decodeAt_eq_error hdecode with rfl | ⟨_, rfl⟩ <;> cases hy
  | @instruction f g below i _ hf hi hfault =>
      refine ⟨g, below, rfl, fun d hagrees => ⟨i, ?_, ?_⟩⟩
      · rw [hfault.lastOffset_eq, hfault.code_eq]
        exact hi
      · rw [hfault.code_eq] at hagrees
        exact (hf d hagrees).native_of_faults hagrees hi hfault.faults hy
  | @returning f below v _ hf hpush =>
      exact ⟨f, below, rfl, fun d hagrees => absurd hpush ((hf d hagrees).push_ne_error hagrees)⟩
  | @delivering f g below r v _ hf hr hpush =>
      refine ⟨g.restored r, below, rfl, fun d hagrees => ?_⟩
      have hagrees' := hagrees
      rw [Frame.code_restored hr] at hagrees'
      exact absurd hpush (((hf d hagrees').restored hr).push_ne_error hagrees)

/-- Declared depths are sound. In every run, the operands and open blocks of a frame that executes
a block with an agreeing map are those of the map at every instruction; and if the run ends in a
fault of depth, then the frame in which it did so executes no such block, unless the frame has just
called a native and the fault is what the native answered. -/
theorem depths_sound (m : Machine) (code : CodeBlock) (scope : ScopeId) :
    (∀ n f below, m.Visits code scope (.running n) → n.frames = Stack.push below f →
      ∀ d : DepthMap, d.Agrees f.code → d.Follows f) ∧
    ∀ y trace left, m.Visits code scope (.finished (.fault y trace) left) → y.ofDepth →
      ∃ f below, left.frames = Stack.push below f ∧ ∀ d : DepthMap, d.Agrees f.code →
        ∃ i, Instruction.decodeAt f.code.code f.lastOffset = .ok i ∧ i.opcode = .call ∧
          ∃ n ∈ m.natives, n.Answers y := by
  have hholds {p : Progress} (h : m.Visits code scope p) :
      (depths m.natives m.limits).Holds p :=
    (depths m.natives m.limits).holds_of_visits trivial trivial h
  refine ⟨?_, ?_⟩
  · intro n f below hvisit hstack d hagrees
    obtain ⟨-, f', below', hstack', hf, -⟩ := hholds hvisit
    rw [hstack] at hstack'
    obtain ⟨-, rfl⟩ := Stack.push_inj.mp hstack'
    exact hf d hagrees
  · intro y trace left hvisit hy
    exact native_of_cause ((hholds hvisit).2.2 _ _ rfl) hy

/-- A loop that is left at once. -/
theorem depths_sound_loop :
    let b : CodeBlock := {
      name := "loop", filename := "", code := #[0x60, 0, 5, 0, 6, 0x62], constants := #[],
      names := #[], locals := #[], maxStack := 0, maxBlocks := 1 }
    let d : DepthMap := fun o =>
      if o = 5 then some ⟨0, [0]⟩ else if o = 0 ∨ o = 6 then some ⟨0, []⟩ else none
    d.Agrees b ∧ ∀ n f below, ({} : Machine).Visits b 0 (.running n) →
      n.frames = Stack.push below f → f.code = b → d.Follows f := by
  intro b d
  have hopen : Instruction.decodeAt b.code 0 = .ok ⟨0, .startLoop, .pair 5 6⟩ :=
    Instruction.decodeAt_eq_ok_iff.mpr ⟨rfl, rfl, by decide⟩
  have hleave : Instruction.decodeAt b.code 5 = .ok ⟨5, .break_, .none⟩ :=
    Instruction.decodeAt_eq_ok_iff.mpr ⟨rfl, rfl, by decide⟩
  have hend : Instruction.decodeAt b.code 6 = .error (.truncatedInstruction 6) := rfl
  have hcases {o : Nat} {p : Depth} {i : Instruction} (hp : d o = some p)
      (hi : Instruction.decodeAt b.code o = .ok i) :
      p = ⟨0, []⟩ ∧ i = ⟨0, .startLoop, .pair 5 6⟩ ∨ p = ⟨0, [0]⟩ ∧ i = ⟨5, .break_, .none⟩ := by
    simp only [d] at hp
    split at hp
    · subst o
      rw [hleave] at hi
      cases hp
      cases hi
      exact .inr ⟨rfl, rfl⟩
    split at hp
    · rename_i ho
      rcases ho with rfl | rfl
      · rw [hopen] at hi
        cases hp
        cases hi
        exact .inl ⟨rfl, rfl⟩
      · rw [hend] at hi
        cases hi
    · cases hp
  have hsizes {o : Nat} {p : Depth} (hp : d o = some p) : p.height = 0 ∧ p.opened.length ≤ 1 := by
    simp only [d] at hp
    grind
  have hagrees : d.Agrees b := by
    constructor
    · rfl
    · exact fun hp => (hsizes hp).1.le
    · exact fun hp => (hsizes hp).2
    · intro o p i hp hi
      rcases hcases hp hi with ⟨rfl, rfl⟩ | ⟨rfl, rfl⟩ <;> decide
    · intro o p i hp hi hnext
      rcases hcases hp hi with ⟨rfl, rfl⟩ | ⟨rfl, rfl⟩
      · rfl
      · cases hnext
    · intro o p i target hp hi hjump
      rcases hcases hp hi with ⟨rfl, rfl⟩ | ⟨rfl, rfl⟩ <;> cases hjump
    · intro o p i hp hi hop
      rcases hcases hp hi with ⟨rfl, rfl⟩ | ⟨rfl, rfl⟩ <;> cases hop
    · intro o p i iter finish hp hi hop hoperand
      rcases hcases hp hi with ⟨rfl, rfl⟩ | ⟨rfl, rfl⟩
      · cases hoperand
        exact ⟨rfl, rfl⟩
      · cases hop
    · intro o p i hp hi hop
      rcases hcases hp hi with ⟨rfl, rfl⟩ | ⟨rfl, rfl⟩ <;> cases hop
    · intro o p i hp hi hop
      rcases hcases hp hi with ⟨rfl, rfl⟩ | ⟨rfl, rfl⟩
      · rcases hop with hop | hop <;> cases hop
      · exact ⟨0, List.mem_singleton_self 0, _, hopen, rfl⟩
  refine ⟨hagrees, fun n f below hvisit hstack hcode => ?_⟩
  exact (depths_sound {} b 0).1 n f below hvisit hstack d (hcode ▸ hagrees)

end Machine

end ScriptMachine
