import ScriptMachine.Proofs.Operator.Faultless
import ScriptMachine.Proofs.Sequence

/-! Actions that only exchange operands. Most instructions are of this kind: they take operands
off, compute, and put operands back. What they may do to a frame is stated once for the actions
they consist of, and follows for the instructions by composition. -/

namespace ScriptMachine

/-! ### Frames with other operands -/

namespace Frame

/-- The frame with the operands `vs` in the place of the `n` topmost ones. -/
def exchange (f : Frame) (n : Nat) (vs : List Value) : Frame :=
  { f with stack := (f.stack.drop n).pushAll vs }

variable {f : Frame} {n k : Nat} {vs : List Value}

@[simp]
theorem code_exchange : (f.exchange n vs).code = f.code :=
  rfl

@[simp]
theorem sp_exchange : (f.exchange n vs).sp = vs.length + (f.sp - n) := by
  simp [exchange, sp]

theorem sp_dropped_le (f : Frame) (n : Nat) : (f.exchange n []).sp ≤ f.sp := by
  simp

@[simp]
theorem exchange_zero : f.exchange 0 [] = f :=
  rfl

/-- Taking operands off twice, and putting some back the second time. -/
theorem exchange_exchange : (f.exchange n []).exchange k vs = f.exchange (n + k) vs := by
  simp only [exchange, Stack.pushAll, List.foldr_nil, Stack.drop_drop]

theorem push_eq_ok_iff {v : Value} {g : Frame} :
    f.push v = .ok g ↔ f.sp < f.code.maxStack ∧ g = f.exchange 0 [v] := by
  rw [push]
  split
  · simp [*, exchange, Stack.pushAll, Stack.drop_zero, eq_comm]
  · simp [*]

theorem code_of_push {v : Value} {g : Frame} (h : f.push v = .ok g) : g.code = f.code := by
  obtain ⟨-, rfl⟩ := push_eq_ok_iff.mp h
  rfl

theorem push_eq_error_iff {v : Value} {x : Fault} :
    f.push v = .error x ↔ f.code.maxStack ≤ f.sp ∧ x = .stackOverflow f.code.maxStack := by
  rw [push]
  split
  · simp
    omega
  · simp [*, eq_comm]
    omega

theorem pop_eq_ok_iff {v : Value} {g : Frame} :
    f.pop = .ok (v, g) ↔ ∃ rest, f.stack = rest.push v ∧ g = { f with stack := rest } := by
  rw [pop]
  rcases f.stack.eq_empty_or_push with h | ⟨w, rest, h⟩
  · simp [h]
  · simp only [h, Stack.pop?_push, Except.ok.injEq, Prod.mk.injEq, Stack.push_inj]
    constructor
    · rintro ⟨rfl, rfl⟩
      exact ⟨rest, ⟨rfl, rfl⟩, rfl⟩
    · rintro ⟨_, ⟨rfl, rfl⟩, rfl⟩
      exact ⟨rfl, rfl⟩

theorem pop_eq_error_iff {x : Fault} : f.pop = .error x ↔ f.sp = 0 ∧ x = .stackExhausted := by
  rw [pop]
  rcases f.stack.eq_empty_or_push with h | ⟨w, rest, h⟩ <;> simp [h, sp, eq_comm]

theorem peek_eq_ok_iff {v : Value} :
    f.peek = .ok v ↔ ∃ rest : Stack Value, f.stack = rest.push v := by
  rw [peek]
  rcases f.stack.eq_empty_or_push with h | ⟨w, rest, h⟩ <;> simp [h]

theorem peek_eq_error_iff {x : Fault} : f.peek = .error x ↔ f.sp = 0 ∧ x = .stackExhausted := by
  rw [peek]
  rcases f.stack.eq_empty_or_push with h | ⟨w, rest, h⟩ <;> simp [h, sp, eq_comm]

end Frame

/-! ### Actions that exchange operands -/

/-- A fault that a native answers some call with. -/
def Native.Answers (n : Native) (y : Fault) : Prop :=
  ∃ scope args s t, n.run scope args s = .error (.fault y) t

/-- The faults that too few operands, or too little room for them, lead to. -/
def OperandFault (f : Frame) (n k : Nat) (x : Fault) : Prop :=
  f.sp < n ∧ x = .stackExhausted ∨
    0 < k ∧ f.code.maxStack + n < f.sp + k ∧ x = .stackOverflow f.code.maxStack

namespace Action

variable {α β : Type} {P : CodeBlock → Fault → Prop} {n k m : Nat}

theorem onFrame_eq_ok_iff {h : Frame → Except Fault (α × Frame)} {f g : Frame} {s t : Store}
    {v : α} : onFrame h ⟨f, s⟩ = .ok v ⟨g, t⟩ ↔ h f = .ok (v, g) ∧ s = t := by
  rw [onFrame]
  cases h f with
  | ok r => simp [Prod.ext_iff, and_assoc]
  | error y => simp

theorem onFrame_eq_error_iff {h : Frame → Except Fault (α × Frame)} {f g : Frame}
    {s t : Store} {e : Interrupt} :
    onFrame h ⟨f, s⟩ = .error e ⟨g, t⟩ ↔ ∃ y, h f = .error y ∧ e = .fault y ∧ f = g ∧ s = t := by
  rw [onFrame]
  cases h f with
  | ok r => simp
  | error y => simp [eq_comm]

theorem push_eq_ok_iff {v : Value} {f g : Frame} {s t : Store} {u : Unit} :
    push v ⟨f, s⟩ = .ok u ⟨g, t⟩ ↔ f.push v = .ok g ∧ s = t := by
  rw [push, onFrame_eq_ok_iff]
  cases f.push v <;> simp [Except.map]

theorem push_eq_error_iff {v : Value} {f g : Frame} {s t : Store} {e : Interrupt} :
    push v ⟨f, s⟩ = .error e ⟨g, t⟩ ↔
      ∃ y, f.push v = .error y ∧ e = .fault y ∧ f = g ∧ s = t := by
  rw [push, onFrame_eq_error_iff]
  cases f.push v <;> simp [Except.map]

/-- To take off an operand that is there, and to go on. -/
theorem pop_bind_apply {g : Value → Action β} {f : Frame} {s : Store} {rest : Stack Value}
    {v : Value} (h : f.stack = rest.push v) :
    (pop >>= g) ⟨f, s⟩ = g v ⟨{ f with stack := rest }, s⟩ := by
  change EStateM.bind pop g ⟨f, s⟩ = _
  have hpop : pop ⟨f, s⟩ = .ok v ⟨{ f with stack := rest }, s⟩ :=
    onFrame_eq_ok_iff.mpr ⟨Frame.pop_eq_ok_iff.mpr ⟨rest, h, rfl⟩, rfl⟩
  rw [EStateM.bind, hpop]

/-- To take off operands that are there, and to go on with them in the order of their pushing. -/
theorem popN_bind_apply {g : List Value → Action β} {f : Frame} {s : Store} {rest : Stack Value}
    {vs : List Value} (h : f.stack = rest.pushAll vs.reverse) :
    (popN vs.length >>= g) ⟨f, s⟩ = g vs ⟨{ f with stack := rest }, s⟩ := by
  change EStateM.bind (popN vs.length) g ⟨f, s⟩ = _
  have hpop : f.popN vs.length = .ok (vs, { f with stack := rest }) := by
    have hheight : ¬ f.sp < vs.length := by simp [Frame.sp, h]
    have hdrop : f.stack.drop vs.length = rest := by
      refine Stack.ext ?_
      simp [h, List.drop_left']
    rw [Frame.popN, if_neg hheight, hdrop]
    simp [h, List.take_left']
  rw [EStateM.bind, popN, onFrame, hpop]

theorem peek_eq_ok_iff {v : Value} {f g : Frame} {s t : Store} :
    peek ⟨f, s⟩ = .ok v ⟨g, t⟩ ↔ f.peek = .ok v ∧ f = g ∧ s = t := by
  rw [peek, onFrame_eq_ok_iff]
  cases f.peek <;> simp [Except.map, and_assoc]

theorem peek_eq_error_iff {f g : Frame} {s t : Store} {e : Interrupt} :
    peek ⟨f, s⟩ = .error e ⟨g, t⟩ ↔
      ∃ y, f.peek = .error y ∧ e = .fault y ∧ f = g ∧ s = t := by
  rw [peek, onFrame_eq_error_iff]
  cases f.peek <;> simp [Except.map]

/-- An action that puts `k` operands in the place of the `n` topmost ones and leaves the rest of
the frame alone. An interrupt may come when some of the `n` operands are off, but before any is
put back; a fault is one of the operand stack, or `P` holds of it. -/
structure Exchanges (P : CodeBlock → Fault → Prop) (n k : Nat) (x : Action α) : Prop where
  ok : ∀ {f s v g t}, x ⟨f, s⟩ = .ok v ⟨g, t⟩ →
    n ≤ f.sp ∧ ∃ vs, vs.length = k ∧ g = f.exchange n vs ∧ (vs ≠ [] → g.sp ≤ f.code.maxStack)
  error : ∀ {f s e g t}, x ⟨f, s⟩ = .error e ⟨g, t⟩ →
    (∃ j ≤ n, j ≤ f.sp ∧ g = f.exchange j []) ∧
      ∀ y, e = .fault y → OperandFault f n k y ∨ P f.code y

namespace Exchanges

theorem ok_zero {x : Action α} (hx : x.Exchanges P n 0) {f g : Frame} {s t : Store} {v : α}
    (h : x ⟨f, s⟩ = .ok v ⟨g, t⟩) : n ≤ f.sp ∧ g = f.exchange n [] := by
  obtain ⟨hn, vs, hvs, rfl, -⟩ := hx.ok h
  rw [List.length_eq_zero_iff] at hvs
  subst hvs
  exact ⟨hn, rfl⟩

/-- An action that takes operands off, and one that goes on from there. -/
theorem bind {x : Action α} {g : α → Action β} (hx : x.Exchanges P n 0)
    (hg : ∀ v, (g v).Exchanges P m k) : (x >>= g).Exchanges P (n + m) k := by
  constructor
  · intro f s w f'' t h
    obtain ⟨v, ⟨f', r⟩, hfirst, hsecond⟩ := bind_eq_ok_iff.mp h
    obtain ⟨hn, rfl⟩ := hx.ok_zero hfirst
    obtain ⟨hm, ws, hws, rfl, hroom⟩ := (hg v).ok hsecond
    simp only [Frame.sp_exchange, List.length_nil, Nat.zero_add] at hm
    exact ⟨by omega, ws, hws, Frame.exchange_exchange, hroom⟩
  · intro f s e f'' t h
    rcases bind_eq_error_iff.mp h with hfirst | ⟨v, ⟨f', r⟩, hfirst, hsecond⟩
    · obtain ⟨⟨j, hj, hjsp, hfr⟩, hfault⟩ := hx.error hfirst
      refine ⟨⟨j, by omega, hjsp, hfr⟩, fun y hy => ?_⟩
      refine (hfault y hy).imp_left fun hop => ?_
      rcases hop with ⟨hlow, rfl⟩ | ⟨hput, _⟩
      · exact .inl ⟨by omega, rfl⟩
      · exact absurd hput (Nat.lt_irrefl 0)
    · obtain ⟨hn, rfl⟩ := hx.ok_zero hfirst
      obtain ⟨⟨j, hj, hjsp, rfl⟩, hfault⟩ := (hg v).error hsecond
      simp only [Frame.sp_exchange, List.length_nil, Nat.zero_add] at hjsp
      refine ⟨⟨n + j, by omega, by omega, Frame.exchange_exchange⟩, fun y hy => ?_⟩
      refine (hfault y hy).imp_left fun hop => ?_
      simp only [OperandFault, Frame.sp_exchange, List.length_nil, Nat.zero_add,
        Frame.code_exchange] at hop
      rcases hop with ⟨hlow, rfl⟩ | ⟨hput, hhigh, rfl⟩
      · exact .inl ⟨by omega, rfl⟩
      · exact .inr ⟨hput, by omega, rfl⟩

/-- An action that does not touch the frame exchanges nothing. -/
theorem of_still {x : Action α} (hok : ∀ {f s v g t}, x ⟨f, s⟩ = .ok v ⟨g, t⟩ → g = f)
    (herror : ∀ {f s e g t}, x ⟨f, s⟩ = .error e ⟨g, t⟩ →
      g = f ∧ ∀ y, e = .fault y → P f.code y) :
    x.Exchanges P 0 0 := by
  constructor
  · intro f s v g t h
    exact ⟨Nat.zero_le _, [], rfl, hok h, by simp⟩
  · intro f s e g t h
    obtain ⟨hfr, hfault⟩ := herror h
    exact ⟨⟨0, Nat.le_refl 0, Nat.zero_le _, hfr⟩, fun y hy => .inr (hfault y hy)⟩

/-- An action that is always interrupted before it touches the frame may stand for any exchange. -/
theorem of_interrupted {x : Action α} {e : Interrupt} (hx : ∀ a, x a = .error e a)
    (he : ∀ y c, e = .fault y → P c y) : x.Exchanges P n k := by
  constructor
  · intro f s v g t h
    simp [hx] at h
  · intro f s e' g t h
    rw [hx] at h
    cases h
    exact ⟨⟨0, Nat.zero_le _, Nat.zero_le _, rfl⟩, fun y hy => .inr (he y _ hy)⟩

/-- An action that leaves the operands alone, and one that goes on from there. -/
theorem still_bind {x : Action α} {g : α → Action β} (hx : x.Exchanges P 0 0)
    (hg : ∀ v, (g v).Exchanges P n k) : (x >>= g).Exchanges P n k := by
  simpa using hx.bind hg

theorem pure (v : α) : (Pure.pure v : Action α).Exchanges P 0 0 :=
  of_still (fun h => by cases h; rfl) (fun h => by cases h)

theorem then_pure {x : Action α} (hx : x.Exchanges P n k) (w : β) :
    (x >>= fun _ => Pure.pure w).Exchanges P n k := by
  constructor
  · intro f s v g t h
    obtain ⟨_, ⟨g', t'⟩, hfirst, hpure⟩ := bind_eq_ok_iff.mp h
    cases hpure
    exact hx.ok hfirst
  · intro f s e g t h
    rcases bind_eq_error_iff.mp h with hfirst | ⟨_, ⟨g', t'⟩, -, hpure⟩
    · exact hx.error hfirst
    · cases hpure

theorem misuse (u : Misuse) : (Action.misuse u : Action α).Exchanges P n k :=
  of_interrupted (fun _ => rfl) (fun _ _ h => by cases h)

theorem fault {y : Fault} (hy : ∀ c, P c y) : (Action.fault y : Action α).Exchanges P n k :=
  of_interrupted (fun _ => rfl) (fun _ c h => by cases h; exact hy c)

/-! ### Operands -/

theorem push (v : Value) : (Action.push v).Exchanges P 0 1 := by
  constructor
  · intro f s u g t h
    obtain ⟨hroom, rfl⟩ := Frame.push_eq_ok_iff.mp (push_eq_ok_iff.mp h).1
    refine ⟨Nat.zero_le _, [v], rfl, rfl, fun _ => ?_⟩
    simp
    omega
  · intro f s e g t h
    obtain ⟨y, hpush, rfl, rfl, rfl⟩ := push_eq_error_iff.mp h
    obtain ⟨hfull, rfl⟩ := Frame.push_eq_error_iff.mp hpush
    refine ⟨⟨0, Nat.le_refl 0, Nat.zero_le _, rfl⟩, fun y hy => .inl (.inr ?_)⟩
    cases hy
    exact ⟨Nat.one_pos, by omega, rfl⟩

theorem pop : Action.pop.Exchanges P 1 0 := by
  constructor
  · intro f s v g t h
    obtain ⟨rest, hrest, rfl⟩ := Frame.pop_eq_ok_iff.mp (onFrame_eq_ok_iff.mp h).1
    refine ⟨by simp [Frame.sp, hrest], [], rfl, ?_, by simp⟩
    simp [Frame.exchange, hrest, Stack.pushAll]
  · intro f s e g t h
    obtain ⟨y, hpop, rfl, rfl, rfl⟩ := onFrame_eq_error_iff.mp h
    obtain ⟨hempty, rfl⟩ := Frame.pop_eq_error_iff.mp hpop
    refine ⟨⟨0, Nat.zero_le _, Nat.zero_le _, rfl⟩, fun y hy => .inl (.inl ?_)⟩
    cases hy
    exact ⟨by omega, rfl⟩

theorem pop_bind {g : Value → Action β} (hg : ∀ v, (g v).Exchanges P n k) :
    (Action.pop >>= g).Exchanges P (n + 1) k := by
  simpa [Nat.add_comm] using pop.bind hg

theorem popN (n : Nat) : (Action.popN n).Exchanges P n 0 := by
  constructor
  · intro f s v g t h
    have hpop := (onFrame_eq_ok_iff.mp h).1
    rw [Frame.popN] at hpop
    split at hpop
    · cases hpop
    · cases hpop
      exact ⟨by omega, [], rfl, rfl, by simp⟩
  · intro f s e g t h
    obtain ⟨y, hpop, rfl, rfl, rfl⟩ := onFrame_eq_error_iff.mp h
    rw [Frame.popN] at hpop
    split at hpop
    · rename_i hlow
      cases hpop
      refine ⟨⟨0, Nat.zero_le _, Nat.zero_le _, rfl⟩, fun y hy => .inl (.inl ?_)⟩
      cases hy
      exact ⟨hlow, rfl⟩
    · cases hpop

theorem popN_bind {g : List Value → Action β} (hg : ∀ vs, (g vs).Exchanges P 0 k) :
    (Action.popN n >>= g).Exchanges P n k := by
  simpa using (popN n).bind hg

theorem discarded {x : Action α} (hx : x.Exchanges P n 0) :
    (Functor.discard x).Exchanges P n 0 := by
  rw [discard_eq]
  exact hx.bind fun _ => pure ()

/-- To double the topmost operand is to take it off and to put it back twice. -/
theorem double : (Action.peek >>= Action.push).Exchanges P 1 2 := by
  constructor
  · intro f s u g t h
    obtain ⟨v, ⟨f', r⟩, hpeek, hpush⟩ := bind_eq_ok_iff.mp h
    obtain ⟨htop, rfl, rfl⟩ := peek_eq_ok_iff.mp hpeek
    obtain ⟨hroom, rfl⟩ := Frame.push_eq_ok_iff.mp (push_eq_ok_iff.mp hpush).1
    obtain ⟨rest, hrest⟩ := Frame.peek_eq_ok_iff.mp htop
    have hsp : f.sp = rest.height + 1 := by simp [Frame.sp, hrest]
    refine ⟨by omega, [v, v], rfl, ?_, fun _ => ?_⟩
    · simp [Frame.exchange, hrest, Stack.pushAll]
    · simp
      omega
  · intro f s e g t h
    rcases bind_eq_error_iff.mp h with hpeek | ⟨v, ⟨f', r⟩, hpeek, hpush⟩
    · obtain ⟨y, hempty, rfl, rfl, rfl⟩ := peek_eq_error_iff.mp hpeek
      obtain ⟨hlow, rfl⟩ := Frame.peek_eq_error_iff.mp hempty
      refine ⟨⟨0, Nat.zero_le _, Nat.zero_le _, rfl⟩, fun y hy => .inl (.inl ?_)⟩
      cases hy
      exact ⟨by omega, rfl⟩
    · obtain ⟨htop, rfl, rfl⟩ := peek_eq_ok_iff.mp hpeek
      obtain ⟨y, hfull, rfl, rfl, rfl⟩ := push_eq_error_iff.mp hpush
      obtain ⟨hfull, rfl⟩ := Frame.push_eq_error_iff.mp hfull
      refine ⟨⟨0, Nat.zero_le _, Nat.zero_le _, rfl⟩, fun y hy => .inl (.inr ?_)⟩
      cases hy
      exact ⟨Nat.two_pos, by omega, rfl⟩

/-! ### The tables and the store -/

/-- What only looks at the frame exchanges nothing. -/
theorem inspect {g : Frame → Except Fault α} (hg : ∀ f y, g f = .error y → P f.code y) :
    (onFrame fun f => (g f).map (·, f)).Exchanges P 0 0 := by
  apply of_still
  · intro f s v f' t h
    have hread := (onFrame_eq_ok_iff.mp h).1
    cases hgf : g f with
    | ok x =>
        rw [hgf] at hread
        cases hread
        rfl
    | error y => simp [hgf, Except.map] at hread
  · intro f s e f' t h
    obtain ⟨y, hread, rfl, rfl, rfl⟩ := onFrame_eq_error_iff.mp h
    refine ⟨rfl, fun z hz => ?_⟩
    cases hz
    cases hgf : g f with
    | ok x => simp [hgf, Except.map] at hread
    | error w =>
        rw [hgf] at hread
        cases hread
        exact hg f y hgf

theorem constant {index : Nat}
    (h : ∀ c : CodeBlock, c.constants.size ≤ index →
      P c (.constantOutOfBounds index c.constants.size)) :
    (Action.constant index).Exchanges P 0 0 := by
  apply inspect
  intro f y hy
  rw [CodeBlock.constant] at hy
  split at hy
  · cases hy
  · rename_i hnone
    cases hy
    exact h _ (Array.getElem?_eq_none_iff.mp hnone)

theorem nameAt {index : Nat}
    (h : ∀ c : CodeBlock, c.names.size ≤ index → P c (.nameOutOfBounds index c.names.size)) :
    (Action.nameAt index).Exchanges P 0 0 := by
  apply inspect
  intro f y hy
  rw [CodeBlock.nameAt] at hy
  split at hy
  · cases hy
  · rename_i hnone
    cases hy
    exact h _ (Array.getElem?_eq_none_iff.mp hnone)

theorem localAt {index : Nat}
    (h : ∀ c : CodeBlock, c.locals.size ≤ index → P c (.localOutOfBounds index c.locals.size)) :
    (Action.localAt index).Exchanges P 0 0 := by
  apply inspect
  intro f y hy
  rw [CodeBlock.localAt] at hy
  split at hy
  · cases hy
  · rename_i hnone
    cases hy
    exact h _ (Array.getElem?_eq_none_iff.mp hnone)

theorem currentScope : Action.currentScope.Exchanges P 0 0 :=
  of_still (fun h => by cases h; rfl) (fun h => by cases h)

theorem readHeap {g : Heap → Except Interrupt α} (hg : ∀ h y c, g h = .error (.fault y) → P c y) :
    (Action.readHeap g).Exchanges P 0 0 := by
  apply of_still
  · intro f s v f' t h
    rw [Action.readHeap] at h
    split at h <;> cases h
    rfl
  · intro f s e f' t h
    rw [Action.readHeap] at h
    split at h <;> cases h
    rename_i hread
    exact ⟨rfl, fun y hy => hg _ y _ (hy ▸ hread)⟩

theorem readHeap_raises {g : Heap → Except Interrupt α} (hg : ∀ h, Raises (·.inFlight) (g h)) :
    (Action.readHeap g).Exchanges P 0 0 :=
  readHeap fun h y _ hy => absurd hy ((hg h).ne_fault y)

theorem readScopes (g : Scopes → ScopeId → Except ScopeError α) :
    (Action.readScopes g).Exchanges P 0 0 := by
  apply of_still
  · intro f s v f' t h
    rw [Action.readScopes] at h
    split at h <;> cases h
    rfl
  · intro f s e f' t h
    rw [Action.readScopes] at h
    split at h <;> cases h
    exact ⟨rfl, fun y hy => by cases hy⟩

theorem onStore (g : Store → α × Store) : (Action.onStore g).Exchanges P 0 0 :=
  of_still (fun h => by cases h; rfl) (fun h => by cases h)

theorem onHeap (g : Heap → α × Heap) : (Action.onHeap g).Exchanges P 0 0 :=
  onStore _

theorem onScopes (g : Scopes → α × Scopes) : (Action.onScopes g).Exchanges P 0 0 :=
  onStore _

theorem setVariable (name : String) (v : Value) :
    (Action.setVariable name v).Exchanges P 0 0 :=
  (readScopes _).still_bind fun _ => onStore _

theorem declare (name : String) (v : Value) (readonly : Bool) :
    (Action.declare name v readonly).Exchanges P 0 0 :=
  (readScopes _).still_bind fun _ => currentScope.still_bind fun _ => onStore _

/-- A native works on the store alone, and what it faults with is its own. -/
theorem callNative {natives : Array Native} {f : NativeRef} {args : List Value}
    (h : ∀ native ∈ natives, ∀ y c, native.Answers y → P c y) :
    (Action.callNative natives f args).Exchanges P 0 0 := by
  apply of_still
  · intro fr s v fr' t hcall
    rw [Action.callNative] at hcall
    split at hcall
    · cases hcall
      rfl
    · split at hcall <;> cases hcall
      rfl
  · intro fr s e fr' t hcall
    rw [Action.callNative] at hcall
    split at hcall
    · cases hcall
    · rename_i native hplace
      split at hcall <;> cases hcall
      rename_i hrun
      refine ⟨rfl, ?_⟩
      rintro y rfl
      obtain ⟨place, -, hat⟩ := Option.bind_eq_some_iff.mp hplace
      exact h native (Array.mem_of_getElem? hat) y _ ⟨_, _, _, _, hrun⟩

end Exchanges

end Action

end ScriptMachine
