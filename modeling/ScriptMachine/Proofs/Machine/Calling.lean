import ScriptMachine.Proofs.Machine.Attempt
import ScriptMachine.Proofs.Machine.StoreEffect

/-! Calls of script code. The arguments are bound in a new scope, each parameter to the argument at
its last place, and the caller waits without them. -/

namespace ScriptMachine

/-! ### Parameters -/

/-- A name that occurs in a list has a last place there. -/
theorem exists_last_place {name : String} {params : List String} (hmem : name ∈ params) :
    ∃ place, params[place]? = some name ∧ name ∉ params.drop (place + 1) := by
  induction params with
  | nil => cases hmem
  | cons p params ih =>
      by_cases hlater : name ∈ params
      · obtain ⟨place, hplace, hlast⟩ := ih hlater
        exact ⟨place + 1, hplace, hlast⟩
      · obtain rfl : name = p := (List.mem_cons.mp hmem).resolve_right hlater
        exact ⟨0, rfl, hlater⟩

namespace Action

variable {s : Scopes} {e : ScopeId} {name : String} {params : List String} {args : List Value}

/-- Parameters of other names leave a binding alone. -/
theorem binding?_bindParameters_of_not_mem (hname : name ∉ params) :
    (bindParameters e params args s).binding? e name = s.binding? e name := by
  induction params generalizing args s with
  | nil => rfl
  | cons p params ih =>
      obtain ⟨hother, hrest⟩ := List.ne_and_not_mem_of_not_mem_cons hname
      rw [bindParameters, ih hrest, Scopes.setForce,
        Scopes.binding?_bind_of_ne fun hsame => hother hsame.2]

/-- A parameter is bound to the argument at its last place, or to null. -/
theorem binding?_bindParameters {place : Nat} (he : e < s.cells.size)
    (hplace : params[place]? = some name) (hlast : name ∉ params.drop (place + 1)) :
    (bindParameters e params args s).binding? e name =
      some ⟨args[place]?.getD .null, false⟩ := by
  induction params generalizing args s place with
  | nil => cases hplace
  | cons p params ih =>
      rw [bindParameters]
      cases place with
      | zero =>
          cases hplace
          -- the parameters that follow have other names
          have hlater : name ∉ params := hlast
          rw [binding?_bindParameters_of_not_mem hlater, Scopes.setForce, Scopes.binding?_bind he,
            if_pos ⟨rfl, rfl⟩, List.headD_eq_head?_getD, List.head?_eq_getElem?]
      | succ place =>
          rw [ih (by rwa [Scopes.setForce, Scopes.size_bind]) hplace hlast, List.getElem?_tail]

end Action

/-! ### The store of a call -/

/-- The store `t` is `s` with a new scope `e` inside `outer`, in which the arguments of a call are
bound. -/
structure Store.Binds (s t : Store) (e outer : ScopeId) (params : List String)
    (args : List Value) : Prop where
  fresh : e = s.scopes.cells.size
  parent : t.scopes.parent e = some outer
  /-- The parameters and `arguments` are bound, and nothing else is. -/
  names : ∀ name, (t.scopes.binding? e name).isSome ↔ name ∈ params ∨ name = "arguments"
  /-- A name stands for the argument at its last place among the parameters. -/
  parameter : ∀ name ≠ "arguments", ∀ place, params[place]? = some name →
    name ∉ params.drop (place + 1) →
      t.scopes.binding? e name = some ⟨args[place]?.getD .null, false⟩
  /-- Arguments beyond the parameters are in a new array. -/
  arguments : ∃ id, t.scopes.binding? e "arguments" = some ⟨.array id, false⟩ ∧
    ¬ s.heap.Exists (.array id) ∧ t.heap.Exists (.array id) ∧
      (t.heap.elements id).toList = args.drop params.length
  bindings : ∀ d ≠ e, ∀ name, t.scopes.binding? d name = s.scopes.binding? d name
  parents : ∀ d ≠ e, t.scopes.parent d = s.scopes.parent d
  grows : s.heap.Grows t.heap
  blocks : t.blocks = s.blocks

namespace Store

variable (s : Store) (outer : ScopeId) (params : List String) (args : List Value)

theorem binding?_called_new (name : String) :
    (s.called outer params args).scopes.binding? s.scopes.cells.size name =
      if name = "arguments" then some ⟨.array s.heap.arrays.size, false⟩
      else (Action.bindParameters s.scopes.cells.size params args
        (s.scopes.enclose outer).2).binding? s.scopes.cells.size name := by
  have hsize : s.scopes.cells.size < (Action.bindParameters s.scopes.cells.size params args
      (s.scopes.enclose outer).2).cells.size := by
    rw [(Action.agreesOff_bindParameters _ _ _ _).size, Scopes.size_enclose]
    exact Nat.lt_succ_self _
  refine (Scopes.binding?_bind hsize _ _ name _).trans ?_
  simp [Action.argumentsName]

/-- A new scope binds nothing before the arguments are bound in it. -/
theorem binding?_enclose_new (name : String) :
    (s.scopes.enclose outer).2.binding? s.scopes.cells.size name = none := by
  rw [Scopes.binding?_enclose]
  simp [Scopes.binding?, Scopes.scope, Array.getD_eq_getD_getElem?]

theorem binds_called :
    s.Binds (s.called outer params args) s.scopes.cells.size outer params args where
  fresh := rfl
  parent := s.inside_called outer params args
  names name := by
    rw [binding?_called_new]
    by_cases hrest : name = "arguments"
    · simp [hrest]
    rw [if_neg hrest, or_iff_left hrest]
    by_cases hname : name ∈ params
    · obtain ⟨place, hplace, hlast⟩ := exists_last_place hname
      rw [Action.binding?_bindParameters (by simp) hplace hlast]
      simp [hname]
    · simp [Action.binding?_bindParameters_of_not_mem, binding?_enclose_new, hname]
  parameter name hname place hplace hlast := by
    rw [binding?_called_new, if_neg hname]
    exact Action.binding?_bindParameters (by simp) hplace hlast
  arguments := by
    refine ⟨s.heap.arrays.size, by rw [binding?_called_new, if_pos rfl], Nat.lt_irrefl _, ?_, ?_⟩
    · simp [called, Heap.newArray, Heap.Exists]
    · simp [called]
  bindings d hd name := by
    rw [(s.agreesOff_called outer params args).binding? d hd, Scopes.binding?_enclose]
  parents d hd := by
    rw [(s.agreesOff_called outer params args).parent, Scopes.parent_enclose, if_neg hd]
  grows := s.heap.grows_newArray _
  blocks := rfl

end Store

/-! ### Calls -/

/-- What a call of this value runs: a block in a new scope inside another one, with parameters. A
plain code block has none, and runs inside the scope of its caller. -/
inductive Value.Runs (caller : ScopeId) : Value → ScopeId → List String → CodeId → Prop where
  | function (r : Closure) : Runs caller (.function r) r.scope r.params r.code
  | code (id : CodeId) : Runs caller (.code id) caller [] id

theorem Instruction.execute_call {natives : Array Native} {i : Instruction} {f : Frame} {s : Store}
    {rest : Stack Value} {callee : Value} {outer : ScopeId} {params : List String}
    {args : List Value} {id : CodeId} (hop : i.opcode = .call) (hargs : i.arg = args.length)
    (hstack : f.stack = (rest.pushAll args.reverse).push callee)
    (hcallee : callee.Runs f.scope outer params id) :
    i.execute natives ⟨f, s⟩ = .ok (.enter (s.block id) s.scopes.cells.size)
      ⟨{ f with stack := rest }, s.called outer params args⟩ := by
  simp only [execute, hop, Action.call]
  rw [Action.pop_bind_apply hstack, hargs, Action.popN_bind_apply rfl]
  cases hcallee with
  | function => rfl
  | code => rfl

namespace Machine

variable {m : Machine} {below : Stack Frame} {f : Frame} {i : Instruction} {rest : Stack Value}
  {callee : Value} {args : List Value}

/-- The next step starts a block with empty stacks on top of the frames that wait, in a new scope
where the arguments are bound. -/
def Enters (m : Machine) (waiting : Stack Frame) (id : CodeId) (outer : ScopeId)
    (params : List String) (args : List Value) : Prop :=
  ∃ t e log, m.step = .running { m with
      store := t,
      frames := waiting.push
        { code := m.store.block id, stack := .empty, blocks := .empty, pc := 0, scope := e },
      log } ∧
    m.store.Binds t e outer params args

/-- A call that the limits allow enters the block. -/
theorem enters_of_runs {outer : ScopeId} {params : List String} {id : CodeId}
    (hframes : m.frames = below.push f) (hi : f.Fetches i) (hop : i.opcode = .call)
    (hargs : i.arg = args.length) (hstack : f.stack = (rest.pushAll args.reverse).push callee)
    (hcallee : callee.Runs f.scope outer params id)
    (hallowed : m.refusal? (m.store.block id) = none) :
    m.Enters (below.push { f.fetched i with stack := rest }) id outer params args := by
  -- the frame that calls counts for the limits after the call as before
  have hwaiting (t : Store) (g : Frame) : ({ m with
      store := t, frames := below.push g } : Machine).refusal? (m.store.block id) = none := by
    rwa [refusal?, hframes] at hallowed
  rw [Enters, step_eq_settle, attempt_eq hframes hi,
    Instruction.execute_call hop hargs (f := f.fetched i) hstack hcallee]
  simp only [tryFollow, tryEnter, hwaiting]
  exact ⟨_, _, _, rfl, m.store.binds_called outer params args⟩

/-- The calling convention. A call that the limits allow takes the callee and the arguments off the
operands of its frame and starts the block of the callee in a new scope. That of a function lies
inside the scope where the function was made and binds its parameters, each to the argument at its
last place or to null, and `arguments` to a new array of what is left. That of a plain code block
lies inside the scope of the caller and binds `arguments` to all of them. No other scope changes. -/
theorem calling_convention (hframes : m.frames = below.push f) (hi : f.Fetches i)
    (hop : i.opcode = .call) (hargs : i.arg = args.length)
    (hstack : f.stack = (rest.pushAll args.reverse).push callee) :
    (∀ r : Closure, callee = .function r → m.refusal? (m.store.block r.code) = none →
      m.Enters (below.push { f.fetched i with stack := rest }) r.code r.scope r.params args) ∧
    ∀ id : CodeId, callee = .code id → m.refusal? (m.store.block id) = none →
      m.Enters (below.push { f.fetched i with stack := rest }) id f.scope [] args := by
  constructor
  · rintro r rfl hallowed
    exact enters_of_runs hframes hi hop hargs hstack (.function r) hallowed
  · rintro id rfl hallowed
    exact enters_of_runs hframes hi hop hargs hstack (.code id) hallowed

/-- Two arguments for parameters `a`, `b` and `a`: the first of them is lost. -/
theorem calling_convention_repeated :
    let b : CodeBlock := { (default : CodeBlock) with code := #[Opcode.call.byte, 0, 2] }
    let r : Closure := ⟨0, "f", ["a", "b", "a"], 0, 0⟩
    let operands := ((Stack.empty.push (.integer 1)).push (.integer 2)).push (.function r)
    let f : Frame := { code := b, stack := operands, scope := 0 }
    let m : Machine := { frames := Stack.empty.push f, store := { scopes := ⟨#[{}]⟩ } }
    f.Fetches ⟨0, .call, .short 2⟩ ∧ m.refusal? (m.store.block 0) = none ∧
      ∃ n e, m.step = .running n ∧ n.frames.height = 2 ∧ n.store.scopes.parent e = some 0 ∧
        n.store.scopes.binding? e "a" = some ⟨.null, false⟩ ∧
          n.store.scopes.binding? e "b" = some ⟨.integer 2, false⟩ := by
  intro b r operands f m
  have hi : f.Fetches ⟨0, .call, .short 2⟩ :=
    Instruction.decodeAt_eq_ok_iff.mpr ⟨rfl, rfl, by decide⟩
  have hallowed : m.refusal? (m.store.block 0) = none := rfl
  have hstack : f.stack =
      (Stack.empty.pushAll [Value.integer 1, .integer 2].reverse).push (.function r) := rfl
  obtain ⟨t, e, log, hstep, hbinds⟩ :=
    (calling_convention (m := m) rfl hi rfl rfl hstack).1 r rfl hallowed
  exact ⟨hi, hallowed, _, e, hstep, rfl, hbinds.parent,
    hbinds.parameter "a" (by decide) 2 rfl (by decide),
    hbinds.parameter "b" (by decide) 1 rfl (by decide)⟩

end Machine

end ScriptMachine
