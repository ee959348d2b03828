import ScriptMachine.Proofs.Machine.Invariant

/-! Where a frame is in its code and where its open blocks lead. Places that the instructions of a
code lead to are all that a frame ever reaches. -/

namespace ScriptMachine

/-- The places in the code that an open block remembers. -/
def Block.targets : Block → List Nat
  | .loop start iter finish .. => [start, iter, finish]
  | .handler entry .. => [entry]

namespace Frame

/-- The program counter and all places that open blocks remember are in `P`. -/
structure Placed (P : Nat → Prop) (f : Frame) : Prop where
  pc : P f.pc
  targets : ∀ b ∈ f.blocks.toList, ∀ t ∈ b.targets, P t

namespace Placed

variable {P : Nat → Prop} {f g : Frame}

/-- Any other operands, another scope and another place. -/
theorem moved (h : f.Placed P) {stack : Stack Value} {pc lastOffset : Nat} {scope : ScopeId}
    (hpc : P pc) : Frame.Placed P { f with stack, pc, lastOffset, scope } :=
  ⟨hpc, h.targets⟩

/-- Some of the open blocks. -/
theorem with_blocks (h : f.Placed P) {blocks : Stack Block}
    (hblocks : blocks.toList <:+ f.blocks.toList) : Frame.Placed P { f with blocks } :=
  ⟨h.pc, fun b hb => h.targets b (hblocks.subset hb)⟩

/-- One more open block. -/
theorem with_block (h : f.Placed P) {b : Block} (hb : ∀ t ∈ b.targets, P t) :
    Frame.Placed P { f with blocks := f.blocks.push b } := by
  refine ⟨h.pc, ?_⟩
  simp only [Stack.toList_push, List.forall_mem_cons]
  exact ⟨hb, h.targets⟩

theorem expose (h : f.Placed P) (kind : BlockKind) : (f.expose kind).Placed P :=
  h.with_blocks (suffix_expose f kind)

/-- The places that the innermost block of a kind remembers. -/
theorem targets_of_expose (h : f.Placed P) {kind : BlockKind} {b : Block} {rest : Stack Block}
    (hb : (f.expose kind).blocks = rest.push b) : ∀ t ∈ b.targets, P t :=
  (h.expose kind).targets b (by rw [hb]; simp)

theorem push (h : f.Placed P) {v : Value} (hpush : f.push v = .ok g) : g.Placed P := by
  obtain ⟨-, rfl⟩ := push_eq_ok_iff.mp hpush
  exact h.moved h.pc

/-- An instruction leads to the place behind it, to its targets or to what a block remembers. -/
theorem effect (h : f.Placed P) {i : Instruction} {t : Store} {next : Next}
    (htargets : ∀ t ∈ i.targets, t ≤ f.code.code.size → P t) (he : i.Effect f t next g) :
    g.Placed P := by
  cases he with
  | exchanged | scopeChanged | called | returned => exact h.moved h.pc
  | jumped hjump hin =>
      exact h.moved (htargets _ (Instruction.mem_targets_of_mem_jumps hjump) hin)
  | @loopOpened iter finish hop hoperand hiter hfinish =>
      have hpair : i.targets = [iter.toNat, finish.toNat] := by
        simp [Instruction.targets, hop, hoperand]
      rw [hpair, List.forall_mem_cons, List.forall_mem_singleton] at htargets
      refine h.with_block ?_
      simp only [Block.targets, List.forall_mem_cons]
      exact ⟨h.pc, htargets.1 hiter, htargets.2 hfinish, by simp⟩
  | handlerOpened hop hin =>
      refine h.with_block ?_
      simpa only [Block.targets, List.mem_singleton, forall_eq] using
        htargets i.arg (by simp [Instruction.targets, hop]) hin
  | blockClosed _ hblocks =>
      exact (h.with_blocks (Stack.suffix_of_eq_push hblocks)).moved h.pc
  | loopLeft _ hblocks =>
      have hrest := (h.expose .loop).with_blocks (Stack.suffix_of_eq_push hblocks)
      exact hrest.moved (h.targets_of_expose hblocks _ (by simp [Block.targets]))
  | loopRepeated _ hblocks =>
      exact (h.expose .loop).moved (h.targets_of_expose hblocks _ (by simp [Block.targets]))

/-- An interrupted instruction leaves the frame where it is. -/
theorem of_interrupted (h : f.Placed P) {natives : Array Native} {i : Instruction}
    {e : Interrupt} (he : i.Interrupted natives f e g) : g.Placed P := by
  cases he with
  | raised => exact h.moved h.pc
  | @fault y j blocks _ hblocks =>
      refine (h.moved h.pc).with_blocks ?_
      rcases hblocks with rfl | rfl
      · exact List.suffix_refl _
      · exact List.nil_suffix

/-- A handler leads to its entry. -/
theorem restored (h : f.Placed P) {r : Handler} (hr : f.takeHandler = (some r, g)) :
    (g.restored r).Placed P := by
  obtain ⟨rest, hblocks, rfl⟩ := takeHandler_eq_some_iff.mp hr
  have hrest := (h.expose .handler).with_blocks (Stack.suffix_of_eq_push hblocks)
  exact hrest.moved (h.targets_of_expose hblocks _ (by simp [Block.targets]))

end Placed

end Frame

end ScriptMachine
