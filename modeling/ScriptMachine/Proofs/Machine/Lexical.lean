import ScriptMachine.Proofs.Machine.Grounded
import ScriptMachine.Proofs.Machine.Restore

/-! Lexical scoping. An activation owns the scope that was made for its frame, the scopes around
it, and those that it opens itself. Its frame never leaves these scopes, whatever blocks, jumps and
exceptions it goes through, and its variables are looked up, declared and removed in them alone. -/

namespace ScriptMachine

/-! ### Scopes of a frame -/

/-- The scope of the frame, and those that its open blocks remember, are in `S`. -/
structure Frame.DwellsIn (S : ScopeId → Prop) (f : Frame) : Prop where
  scope : S f.scope
  blocks : ∀ b ∈ f.blocks.toList, S b.scope

variable {S T : ScopeId → Prop} {natives : Array Native} {i : Instruction} {f g : Frame}
  {s t : Store} {next : Next}

theorem Frame.DwellsIn.mono (h : f.DwellsIn S) (himp : ∀ e, S e → T e) : f.DwellsIn T :=
  ⟨himp _ h.scope, fun b hb => himp _ (h.blocks b hb)⟩

theorem Frame.DwellsIn.fetched (h : f.DwellsIn S) (i : Instruction) : (f.fetched i).DwellsIn S :=
  ⟨h.scope, h.blocks⟩

/-- A frame that goes back to the scope of an open block, which it closes or keeps. -/
theorem Frame.DwellsIn.restored (h : f.DwellsIn S) {b : Block} {rest : Stack Block}
    (hblocks : (rest.push b).toList <:+ f.blocks.toList) :
    S b.scope ∧ ∀ c ∈ rest.toList, S c.scope := by
  have hall : ∀ c ∈ (rest.push b).toList, S c.scope :=
    fun c hc => h.blocks c (hblocks.subset hc)
  rwa [Stack.toList_push, List.forall_mem_cons] at hall

namespace Instruction

open ScriptMachine.Action

theorem execute_openScope (natives : Array Native) (f : Frame) (s : Store)
    (hop : i.opcode = .openScope) : i.execute natives ⟨f, s⟩ =
      .ok .proceed ⟨{ f with scope := s.scopes.cells.size },
        { s with scopes := (s.scopes.enclose f.scope).2 }⟩ := by
  simp only [execute, hop, executeLocal]
  rfl

theorem inside_of_closeScope (hop : i.opcode = .closeScope)
    (h : i.execute natives ⟨f, s⟩ = .ok next ⟨g, t⟩) : s.scopes.Inside f.scope g.scope := by
  simp only [execute, hop, executeLocal] at h
  obtain ⟨_, ⟨g', t'⟩, hclose, hproceed⟩ := bind_eq_ok_iff.mp h
  cases hproceed
  obtain ⟨parent, a, hread, henter⟩ := bind_eq_ok_iff.mp hclose
  cases hread
  cases hparent : s.scopes.parent f.scope with
  | none =>
      rw [hparent] at henter
      cases henter
  | some p =>
      rw [hparent] at henter
      cases henter
      exact hparent

/-- An instruction takes its frame to a scope that an open block remembers, to the scope around its
own, or to one that it opens. -/
theorem dwellsIn_of_execute (hf : f.DwellsIn S) (hpc : f.pc = i.next)
    (houter : ∀ p, s.scopes.Inside f.scope p → S p)
    (h : i.execute natives ⟨f, s⟩ = .ok next ⟨g, t⟩) :
    g.DwellsIn fun e => S e ∨ i.opcode = .openScope ∧ e = s.scopes.cells.size := by
  have hkept {g : Frame} (hg : g.DwellsIn S) :
      g.DwellsIn fun e => S e ∨ i.opcode = .openScope ∧ e = s.scopes.cells.size :=
    hg.mono fun _ => .inl
  have heffect := execute_ok hpc h
  cases heffect with
  | exchanged | jumped | called | returned => exact hkept ⟨hf.scope, hf.blocks⟩
  | scopeChanged hop =>
      rcases hop with hop | hop
      · rw [execute_openScope natives f s hop] at h
        cases h
        exact ⟨.inr ⟨hop, rfl⟩, fun b hb => .inl (hf.blocks b hb)⟩
      · exact hkept ⟨houter _ (inside_of_closeScope hop h), hf.blocks⟩
  | loopOpened | handlerOpened =>
      refine hkept ⟨hf.scope, ?_⟩
      rw [Stack.toList_push, List.forall_mem_cons]
      exact ⟨hf.scope, hf.blocks⟩
  | blockClosed _ hblocks =>
      obtain ⟨hscope, hrest⟩ := hf.restored (by rw [hblocks])
      exact hkept ⟨hscope, hrest⟩
  | loopLeft _ hexpose =>
      obtain ⟨hscope, hrest⟩ := hf.restored (hexpose ▸ f.suffix_expose .loop)
      exact hkept ⟨hscope, hrest⟩
  | loopRepeated _ hexpose =>
      obtain ⟨hscope, -⟩ := hf.restored (hexpose ▸ f.suffix_expose .loop)
      exact hkept ⟨hscope, fun b hb => hf.blocks b ((f.suffix_expose .loop).subset hb)⟩

/-- A variable that is loaded has the value of the binding to which its name resolves. -/
theorem loaded_of_execute (hop : i.opcode = .loadFast ∨ i.opcode = .loadGlobal)
    (h : i.execute natives ⟨f, s⟩ = .ok next ⟨g, t⟩) : ∃ name d b, i.Touches f s.scopes name d ∧
      s.scopes.binding? d name = some b ∧ g.stack = f.stack.push b.value := by
  have hload {look : Frame → Except Fault String}
      (hlook : ∀ name, look f = .ok name → i.Names f name)
      (hlocal : ((onFrame fun f => (look f).map (·, f)) >>= fun name =>
        getVariable name >>= push) ⟨f, s⟩ = .ok () ⟨g, t⟩) :
      ∃ name d b, i.Touches f s.scopes name d ∧ s.scopes.binding? d name = some b ∧
        g.stack = f.stack.push b.value := by
    obtain ⟨name, ⟨f', s'⟩, hname, hrest⟩ := bind_eq_ok_iff.mp hlocal
    obtain ⟨hfound, rfl, rfl⟩ := look_eq_ok_iff.mp hname
    obtain ⟨v, a, hget, hpush⟩ := bind_eq_ok_iff.mp hrest
    rw [getVariable, readScopes, Scopes.get] at hget
    simp only at hget
    cases hresolve : s'.scopes.resolve? f'.scope name with
    | none =>
        rw [hresolve] at hget
        cases hget
    | some r =>
        rw [hresolve] at hget
        cases hget
        obtain ⟨-, rfl⟩ := Frame.push_eq_ok_iff.mp (push_eq_ok_iff.mp hpush).1
        refine ⟨name, r.1, r.2, ⟨hlook name hfound, ?_⟩,
          (Scopes.nearest_of_resolveTo hresolve).binding?, rfl⟩
        rcases hop with hop | hop <;> simp only [hop] <;> exact ⟨r.2, hresolve⟩
  rcases hop with hop | hop <;> simp only [execute, hop, executeLocal] at h <;>
    obtain ⟨_, ⟨g', t'⟩, hlocal, hproceed⟩ := bind_eq_ok_iff.mp h <;> cases hproceed
  · exact hload (fun _ hname => .inl ⟨by rw [hop]; rfl, hname⟩) hlocal
  · exact hload (fun _ hname => .inr ⟨by rw [hop]; rfl, hname⟩) hlocal

/-- The binding that an instruction touches is on the way outward from the scope of its frame. -/
theorem Touches.reaches {name : String} {d : ScopeId} (h : i.Touches f s.scopes name d) :
    s.scopes.Reaches f.scope d := by
  have hresolved (hr : ∃ b, s.scopes.resolve? f.scope name = some (d, b)) :
      s.scopes.Reaches f.scope d := by
    obtain ⟨b, hr⟩ := hr
    exact (Scopes.nearest_of_resolveTo hr).reaches
  obtain ⟨-, hwhere⟩ := h
  split at hwhere
  case h_1 | h_2 | h_3 | h_4 | h_5 => exact hresolved hwhere
  case h_6 | h_7 | h_8 => exact hwhere ▸ .refl
  case h_9 => exact hwhere.elim

/-- Apart from calls, an instruction changes only bindings that it touches. -/
theorem Alters.touches (h : i.Alters natives f s t) (hcall : i.opcode ≠ .call) {d : ScopeId}
    {name : String} (hchanged : t.scopes.binding? d name ≠ s.scopes.binding? d name) :
    i.Touches f s.scopes name d := by
  cases h with
  | kept | grown | written | counted => exact absurd rfl hchanged
  | @bound name' e b htouches =>
      by_contra hother
      refine hchanged (Scopes.binding?_bind_of_ne ?_)
      rintro ⟨rfl, rfl⟩
      exact hother htouches
  | @removed name' e _ htouches =>
      by_contra hother
      refine hchanged ?_
      rw [Scopes.binding?_unbind, if_neg]
      rintro ⟨rfl, rfl⟩
      exact hother htouches
  | opened => exact absurd (Scopes.binding?_enclose _ _ _ _) hchanged
  | called hop | answered hop | refused hop => exact absurd hop hcall

end Instruction

/-! ### Activations -/

namespace Machine

variable {m n k n₁ : Machine} {below : Stack Frame} {above : List Frame} {code : CodeBlock}
  {scope e d : ScopeId} {depth : Nat} {g' : Frame}

/-- The frame `f` is new, on top of the frames `below`: a run has just started, or a call has just
made it. Then `old` are the scopes from before, and `outer` is the one around what runs: the scope
of the run, or the one around the body of what is called. -/
inductive Begins (m : Machine) (code : CodeBlock) (scope : ScopeId) :
    (below : Stack Frame) → (f : Frame) → (old : Scopes) → (outer : ScopeId) → Machine → Prop where
  | start {n₁ : Machine} : m.start code scope = .running n₁ →
      Begins m code scope .empty { code, scope } m.store.scopes scope n₁
  | called {n n₁ : Machine} {a f : Frame} {rest below : Stack Frame} {i : Instruction}
      {operands : Stack Value} {callee : Value} {outer : ScopeId} :
      m.Visits code scope (.running n) → n.frames = rest.push a → a.Fetches i → i.opcode = .call →
      a.stack = operands.push callee → callee.home? a.scope = some outer →
      n.step = .running n₁ → n₁.frames = below.push f →
      Begins m code scope below f n.store.scopes outer n₁

/-- The innermost frame, with `depth` frames below it, is about to open the scope `e`. -/
def Opens (n : Machine) (depth : Nat) (e : ScopeId) : Prop :=
  ∃ below g i, n.frames = Stack.push below g ∧ below.height = depth ∧ g.Fetches i ∧
    i.opcode = .openScope ∧ e = (n.store.scopes.enclose g.scope).1

/-- The scopes of an activation that has begun in `n₁` with the frame `f` and has come to `k`: the
scope of `f`, the scopes that lay around it then, and those that the activation has opened. -/
def Owns (n₁ : Machine) (below : Stack Frame) (f : Frame) (k : Machine) (e : ScopeId) : Prop :=
  n₁.store.scopes.Reaches f.scope e ∨ ∃ n n', n₁.Stays (below.height < ·.frames.height) n ∧
    n.Opens below.height e ∧ n.step = .running n' ∧
    n'.Stays (below.height < ·.frames.height) k

/-- The frame `g` of a machine is confined to the scopes in `S`. -/
structure Confines (S : ScopeId → Prop) (k : Machine) (g : Frame) : Prop where
  /-- It runs in one of them, and its open blocks remember no others. -/
  dwells : g.DwellsIn S
  /-- The search for a name meets no others. -/
  searches : ∀ d, k.store.scopes.Reaches g.scope d → S d
  /-- What a name resolves to does not depend on others. -/
  resolves : ∀ s : Scopes, s.cells.size = k.store.scopes.cells.size →
    (∀ d, S d → s.parent d = k.store.scopes.parent d ∧
      ∀ name, s.binding? d name = k.store.scopes.binding? d name) →
    ∀ name, s.resolve? g.scope name = k.store.scopes.resolve? g.scope name

/-- What the next instruction of the innermost frame does with variables. -/
structure Handles (S : ScopeId → Prop) (k : Machine) (g : Frame) (i : Instruction) : Prop where
  /-- The bindings that it reads, writes, creates or removes belong to scopes in `S`. -/
  touches : ∀ name d, i.Touches (g.fetched i) k.store.scopes name d → S d
  /-- A variable that it loads has the value of such a binding. -/
  loads : i.opcode = .loadFast ∨ i.opcode = .loadGlobal → ∀ next h t,
    i.execute k.natives ⟨g.fetched i, k.store⟩ = .ok next ⟨h, t⟩ →
    ∃ name d b, i.Touches (g.fetched i) k.store.scopes name d ∧
      k.store.scopes.binding? d name = some b ∧ h.stack = g.stack.push b.value
  /-- Unless it is a call, it changes no other bindings. -/
  changes : i.opcode ≠ .call → ∀ name d,
    k.step.machine.store.scopes.binding? d name ≠ k.store.scopes.binding? d name →
    i.Touches (g.fetched i) k.store.scopes name d

/-! ### The scopes that an activation holds -/

/-- Scopes that exist, with all scopes around them, and in which a frame dwells. -/
structure Holds (S : ScopeId → Prop) (s : Scopes) (g : Frame) : Prop where
  dwells : g.DwellsIn S
  exist : ∀ e, S e → e < s.cells.size
  closed : ∀ e p, S e → s.Inside e p → S p

theorem Holds.searches {s : Scopes} (h : Holds S s g) (hway : s.Reaches g.scope d) : S d := by
  induction hway with
  | refl => exact h.dwells.scope
  | tail _ hp ih => exact h.closed _ _ ih hp

theorem scopes_of_opens (h : n.Opens depth e) (hstep : n.step = .running k) :
    ∃ below g, n.frames = Stack.push below g ∧ below.height = depth ∧
      e = n.store.scopes.cells.size ∧ k.store.scopes = (n.store.scopes.enclose g.scope).2 := by
  obtain ⟨below, g, i, hframes, hheight, hi, hop, rfl⟩ := h
  refine ⟨below, g, hframes, hheight, rfl, ?_⟩
  rw [step_eq_settle, attempt_eq hframes hi,
    Instruction.execute_openScope n.natives _ n.store hop] at hstep
  cases hstep
  rfl

/-- A frame is moved within the scopes that it holds and the one that is opened. -/
theorem Moves.dwellsIn (h : n.Moves below g g') (hg : Holds S n.store.scopes g) :
    g'.DwellsIn fun e => S e ∨ n.Opens below.height e := by
  have hkept {f : Frame} (hf : f.DwellsIn S) :
      f.DwellsIn fun e => S e ∨ n.Opens below.height e :=
    hf.mono fun _ => .inl
  cases h with
  | waited => exact hkept hg.dwells
  | returned hput =>
      obtain ⟨-, rfl⟩ := Frame.push_eq_ok_iff.mp hput
      exact hkept ⟨hg.dwells.scope, hg.dwells.blocks⟩
  | executed hframes hi hexecute _ =>
      refine (Instruction.dwellsIn_of_execute (hg.dwells.fetched _) rfl
        (fun p hp => hg.closed _ p hg.dwells.scope hp) hexecute).mono fun e he => ?_
      exact he.imp_right fun ⟨hop, hnew⟩ => ⟨below, g, _, hframes, rfl, hi, hop, hnew⟩
  | @caught h r outer z left _ hfrom hr =>
      have hh : h.DwellsIn S := by
        rcases hfrom with rfl | ⟨i, t, -, -, hexecute⟩
        · exact hg.dwells
        · cases Instruction.execute_error rfl hexecute with
          | raised => exact ⟨hg.dwells.scope, hg.dwells.blocks⟩
      obtain ⟨inner, hblocks, -⟩ := hr
      obtain ⟨hscope, houter⟩ := hh.restored (hblocks ▸ Stack.suffix_pushAll _ inner)
      exact hkept ⟨hscope, houter⟩

/-- What a frame holds after a step: the same scopes, and the one that is opened. -/
theorem Holds.step (h : Holds S n.store.scopes g) (hleads : n.Leads k)
    (hframes : n.frames = (below.push g).pushAll above) (hstep : n.step = .running k)
    (hmoves : n.Moves below g g') :
    Holds (fun e => S e ∨ n.Opens below.height e) k.store.scopes g' := by
  refine ⟨hmoves.dwellsIn h, fun e he => ?_, fun e p he hp => ?_⟩
  · rcases he with he | he
    · exact (h.exist e he).trans_le hleads.1.size_le
    · obtain ⟨_, _, -, -, rfl, hscopes⟩ := scopes_of_opens he hstep
      rw [hscopes, Scopes.size_enclose]
      exact Nat.lt_succ_self _
  · rcases he with he | he
    · exact .inl (h.closed e p he ((hleads.1.inside_iff (h.exist e he)).mp hp))
    · obtain ⟨below', a, hframes', hheight, rfl, hscopes⟩ := scopes_of_opens he hstep
      obtain ⟨-, rfl, -⟩ := Stack.push_pushAll_inj
        ((Stack.pushAll_nil _).trans (hframes'.symm.trans hframes)) hheight
      rw [hscopes, Scopes.Inside, Scopes.parent_enclose, if_pos rfl] at hp
      cases hp
      exact .inl h.dwells.scope

theorem Owns.step (h : n₁.Owns below f n e) (hstep : n.step = .running k)
    (hheight : below.height < k.frames.height) : n₁.Owns below f k e :=
  h.imp_right fun ⟨n₂, n₃, hn₂, hopens, hn₃, hstays⟩ =>
    ⟨n₂, n₃, hn₂, hopens, hn₃, hstays.step hstep hheight⟩

/-- At any time of an activation its frame is there, and what it holds the activation owns. -/
theorem Stays.holds_owned (hframes : n₁.frames = below.push f)
    (hblocks : f.blocks = .empty) (hground : n₁.Grounded)
    (hnatives : ∀ k, n₁.Stays (below.height < ·.frames.height) k →
      ∀ r ∈ k.natives, r.KeepsChains)
    (hstays : n₁.Stays (below.height < ·.frames.height) k) :
    k.Grounded ∧ n₁.store.scopes.Extends k.store.scopes ∧
      ∃ g above S, k.frames = (below.push g).pushAll above ∧ Holds S k.store.scopes g ∧
        ∀ e, S e → n₁.Owns below f k e := by
  induction hstays with
  | start =>
      have hf := (hground.of_push hframes).1
      refine ⟨hground, .refl _, f, [], n₁.store.scopes.Reaches f.scope, hframes,
        ⟨⟨.refl, by simp [hblocks]⟩, fun e he => ?_, fun e p he hp => he.tail hp⟩, fun e => .inl⟩
      exact Scopes.Closed.lt_of_reaches hground.store.scopes.parents hf.scope he
  | @step n k hstays hstep hheight ih =>
      obtain ⟨hn, hextends, g, above, S, hframes', hholds, howned⟩ := ih
      have hleads : n.Leads k := by
        have hleads := hn.step (hnatives n hstays)
        rwa [hstep] at hleads
      obtain ⟨g', above', hk, hmoves⟩ := moves_of_step hframes' hstep hheight
      refine ⟨hleads.2, hextends.trans hleads.1, g', above', _, hk,
        hholds.step hleads hframes' hstep hmoves, fun e he => ?_⟩
      rcases he with he | he
      · exact (howned e he).step hstep hheight
      · exact .inr ⟨n, k, hstays, he, hstep, .start hheight⟩

/-! ### Lexical scoping -/

theorem Holds.confines (h : Holds S k.store.scopes g) (himp : ∀ e, S e → T e) :
    k.Confines T g := by
  refine ⟨h.dwells.mono himp, fun d hd => himp d (h.searches hd), fun s hsize hagree name => ?_⟩
  rw [Scopes.resolve?, Scopes.resolve?, hsize]
  refine Scopes.resolveTo_congr (fun d hd => ?_) _
  obtain ⟨hparent, hbinding⟩ := hagree d (himp d (h.searches hd))
  exact ⟨hparent, hbinding name⟩

theorem Confines.handles (h : k.Confines S g) (hframes : k.frames = below.push g)
    (hi : g.Fetches i) : k.Handles S g i := by
  refine ⟨fun name d htouches => h.searches d htouches.reaches,
    fun hop next g' t => Instruction.loaded_of_execute hop, fun hcall name d hchanged => ?_⟩
  rcases k.alters_of_step with hsame | ⟨a, below', j, hframes', hj, halters⟩
  · exact absurd (by rw [hsame]) hchanged
  · obtain ⟨rfl, rfl⟩ := Stack.push_inj.mp (hframes.symm.trans hframes')
    cases hi.symm.trans hj
    exact halters.touches hcall hchanged

/-! ### The start of an activation -/

variable {old : Scopes} {outer : ScopeId}

/-- A call of script code makes a new scope inside the one around the body. -/
theorem called_of_step {rest : Stack Value} {callee : Value} {a : Frame}
    (hframes : n.frames = below.push a) (hi : a.Fetches i) (hop : i.opcode = .call)
    (hstack : a.stack = rest.push callee) (hhome : callee.home? a.scope = some outer)
    (hstep : n.step = .running k) : ∃ c g params args,
      k.frames = (below.push g).push { code := c, scope := n.store.scopes.cells.size } ∧
      k.store = n.store.called outer params args := by
  have hscript : (∃ r, callee = .function r) ∨ ∃ id, callee = .code id := by
    cases callee with
    | function r => exact .inl ⟨r, rfl⟩
    | code id => exact .inr ⟨id, rfl⟩
    | _ => cases hhome
  obtain ⟨c, e, g, t, log, hexecute, rfl⟩ := enters_of_step hframes hi hop hstack hscript hstep
  obtain ⟨-, rest', callee', outer', params, args, hstack', hhome', rfl, rfl⟩ :=
    Instruction.called_of_execute hexecute
  obtain ⟨rfl, rfl⟩ := Stack.push_inj.mp (hstack.symm.trans hstack')
  cases hhome.symm.trans hhome'
  exact ⟨c, g, params, args, rfl, rfl⟩

theorem frames_start (h : m.start code scope = .running n₁) :
    n₁.frames = Stack.empty.push { code, scope } := by
  rw [Machine.start, enter] at h
  split at h
  · rename_i r hrefused
    rcases refusal?_eq_some hrefused with ⟨message, rfl⟩ | ⟨y, rfl⟩ <;> cases h
  · cases h
    rfl

/-- Every frame of a run belongs to an activation that has begun. -/
theorem exists_begins (hvisit : m.Visits code scope (.running k))
    (hdepth : depth < k.frames.height) :
    ∃ below f old outer n₁, m.Begins code scope below f old outer n₁ ∧ below.height = depth ∧
      n₁.Stays (below.height < ·.frames.height) k := by
  generalize hp : Progress.running k = p at hvisit
  induction hvisit generalizing k with
  | start =>
      have hheight : (Stack.empty : Stack Frame).height = depth := by
        rw [frames_start hp.symm, Stack.height_push, Stack.height_empty] at hdepth
        rw [Stack.height_empty]
        omega
      exact ⟨.empty, _, _, _, k, .start hp.symm, hheight, .start (hheight ▸ hdepth)⟩
  | @step n hvisit ih =>
      by_cases hold : depth < n.frames.height
      · obtain ⟨below, f, old, outer, n₁, hbegins, rfl, hstays⟩ := ih hold rfl
        exact ⟨below, f, old, outer, n₁, hbegins, rfl, hstays.step hp.symm hdepth⟩
      · have hadded : n.frames.height < k.frames.height := by omega
        obtain ⟨a, rest, i, c, e, g, t, log, hframes, hi, hexecute, rfl⟩ :=
          entered_of_step hp.symm hadded
        obtain ⟨hop, operands, callee, outer, params, args, hstack, hhome, -, -⟩ :=
          Instruction.called_of_execute hexecute
        have hheight : (rest.push g).height = depth := by
          simp only [hframes, Stack.height_push] at hold hdepth ⊢
          omega
        refine ⟨rest.push g, _, _, outer, _,
          .called hvisit hframes hi hop hstack hhome hp.symm rfl, hheight, .start ?_⟩
        rw [Stack.height_push]
        exact Nat.lt_succ_self _

/-- Where an activation begins: its frame is new, and the search from its scope goes on in `outer`
among the scopes that were there. -/
structure Founds (m : Machine) (code : CodeBlock) (scope : ScopeId) (below : Stack Frame)
    (f : Frame) (old : Scopes) (outer : ScopeId) (n₁ : Machine) : Prop where
  visits : m.Visits code scope (.running n₁)
  frames : n₁.frames = below.push f
  blocks : f.blocks = .empty
  size_le : old.cells.size ≤ n₁.store.scopes.cells.size
  reaches : ∀ d, n₁.store.scopes.Reaches f.scope d ↔ d = f.scope ∨ old.Reaches outer d
  spares : f.scope < old.cells.size → f.scope = outer

theorem Begins.founds (h : m.Begins code scope below f old outer n₁) (hroot : m.Rooted code scope)
    (hnatives : ∀ r ∈ m.natives, r.KeepsChains) : m.Founds code scope below f old outer n₁ := by
  cases h with
  | start hstart =>
      have hstore : n₁.store = m.store := by
        rw [← store_start m code scope, hstart]
        rfl
      refine ⟨hstart ▸ .start, frames_start hstart, rfl, by rw [hstore], fun d => ?_, fun _ => rfl⟩
      rw [hstore]
      exact ⟨.inr, by rintro (rfl | hd); exacts [.refl, hd]⟩
  | @called n _ a _ rest' _ i operands callee _ hvisit hframes hi hop hstack hhome hstep hframes' =>
      obtain ⟨c, g, params, args, hk, hstore⟩ :=
        called_of_step hframes hi hop hstack hhome hstep
      obtain ⟨rfl, rfl⟩ := Stack.push_inj.mp (hframes'.symm.trans hk)
      have hground : n.Grounded := (hroot.leads hnatives hvisit).2
      have hextends : n.store.scopes.Extends n₁.store.scopes := by
        have hleads := hground.step (natives_of_visits hvisit ▸ hnatives)
        rw [hstep] at hleads
        exact hleads.1
      refine ⟨hstep ▸ hvisit.step, hframes', rfl, hextends.size_le, fun d => ?_,
        fun h => absurd h (Nat.lt_irrefl _)⟩
      refine hextends.reaches_inside_iff hground.store.scopes.parents ?_
        ((hground.of_push hframes).1.home hstack hhome)
      rw [hstore]
      exact n.store.inside_called outer params args

/-- An activation owns, of the scopes that were there before, only those outward from `outer`. Its
frame and the blocks that are open in it remember scopes that it owns, and what its instructions do
with variables they do in these. -/
theorem Begins.confined (hbegins : m.Begins code scope below f old outer n₁)
    (hroot : m.Rooted code scope) (hnatives : ∀ r ∈ m.natives, r.KeepsChains)
    (hstays : n₁.Stays (below.height < ·.frames.height) k) :
    (∀ d, n₁.store.scopes.Reaches f.scope d ↔ d = f.scope ∨ old.Reaches outer d) ∧
    (∀ d < old.cells.size, n₁.Owns below f k d → old.Reaches outer d) ∧
    ∃ g above, k.frames = (below.push g).pushAll above ∧ k.Confines (n₁.Owns below f k) g ∧
      (above = [] → ∀ i, g.Fetches i → k.Handles (n₁.Owns below f k) g i) := by
  have hfounds := hbegins.founds hroot hnatives
  have hground : n₁.Grounded := (hroot.leads hnatives hfounds.visits).2
  have hkeeps {n : Machine} (hn : n₁.Stays (below.height < ·.frames.height) n) :
      ∀ r ∈ n.natives, r.KeepsChains :=
    natives_of_visits (hfounds.visits.stays hn) ▸ hnatives
  have howned {n : Machine} (hn : n₁.Stays (below.height < ·.frames.height) n) :=
    hn.holds_owned hfounds.frames hfounds.blocks hground fun _ => hkeeps
  refine ⟨hfounds.reaches, fun d hd hown => ?_, ?_⟩
  · rcases hown with hreaches | ⟨n, n', hn, ⟨below', g, i, -, -, -, -, rfl⟩, -, -⟩
    · rcases (hfounds.reaches d).mp hreaches with rfl | hreaches
      · rw [hfounds.spares hd]
        exact .refl
      · exact hreaches
    · have hle := hfounds.size_le.trans (howned hn).2.1.size_le
      exact absurd hd (Nat.not_lt.mpr hle)
  · obtain ⟨-, -, g, above, S, hframes, hholds, himp⟩ := howned hstays
    have hconfines := hholds.confines himp
    refine ⟨g, above, hframes, hconfines, ?_⟩
    rintro rfl i hi
    exact hconfines.handles hframes hi

/-- Lexical scoping. Every frame of a run belongs to an activation, and all the time that this lasts
the frame keeps to the scope that was made for it, those around that, and those that the activation
opens. Of the scopes that were there when it began, these are the ones outward from the scope around
the body; so a function spares a scope that is only on the way outward from its caller. -/
theorem confined_of_visits (hroot : m.Rooted code scope)
    (hnatives : ∀ r ∈ m.natives, r.KeepsChains) :
    (∀ k depth, m.Visits code scope (.running k) → depth < k.frames.height →
      ∃ below f old outer n₁, m.Begins code scope below f old outer n₁ ∧ below.height = depth ∧
        n₁.Stays (below.height < ·.frames.height) k) ∧
    ∀ below f old outer n₁ k, m.Begins code scope below f old outer n₁ →
      n₁.Stays (below.height < ·.frames.height) k →
      (∀ d, n₁.store.scopes.Reaches f.scope d ↔ d = f.scope ∨ old.Reaches outer d) ∧
      (∀ d < old.cells.size, n₁.Owns below f k d → old.Reaches outer d) ∧
      ∃ g above, k.frames = (below.push g).pushAll above ∧ k.Confines (n₁.Owns below f k) g ∧
        (above = [] → ∀ i, g.Fetches i → k.Handles (n₁.Owns below f k) g i) :=
  ⟨fun _ _ => exists_begins, fun _ _ _ _ _ _ hbegins => hbegins.confined hroot hnatives⟩

/-- A function whose body stands in another scope is called: its activation does not own the scope
of its caller. -/
theorem confined_call :
    let c : CodeBlock := { (default : CodeBlock) with
      code := #[Opcode.loadConst.byte, 0, 0, Opcode.call.byte, 0, 0]
      constants := #[.function ⟨0, "f", [], 0, 1⟩]
      maxStack := 1 }
    let m : Machine := {
      store := { scopes := ⟨#[{}, {}]⟩ }
      natives := (Prelude.natives 0).toArray }
    ∃ below f n₁, m.Begins c 0 below f m.store.scopes 1 n₁ ∧ ¬ n₁.Owns below f n₁ 0 := by
  intro c m
  let f₀ : Frame := { code := c, scope := 0 }
  let a : Frame := { f₀ with stack := Stack.empty.push (.function ⟨0, "f", [], 0, 1⟩), pc := 3 }
  let n₀ : Machine := { m with frames := Stack.empty.push f₀, log := #[.framePushed c.name 1] }
  let n : Machine := { n₀ with frames := Stack.empty.push a }
  have hload : f₀.Fetches ⟨0, .loadConst, .short 0⟩ :=
    Instruction.decodeAt_eq_ok_iff.mpr ⟨rfl, rfl, by decide⟩
  have hcall : a.Fetches ⟨3, .call, .short 0⟩ :=
    Instruction.decodeAt_eq_ok_iff.mpr ⟨rfl, rfl, by decide⟩
  have hstart : m.Visits c 0 (.running n₀) := .start
  have hload' : n₀.step = .running n := by
    rw [step_eq_settle, attempt_eq (m := n₀) rfl hload]
    rfl
  have hvisit := hstart.step
  rw [hload'] at hvisit
  obtain ⟨n₁, hstep⟩ : ∃ n₁, n.step = .running n₁ := by
    rw [step_eq_settle, attempt_eq (m := n) rfl hcall]
    exact ⟨_, rfl⟩
  obtain ⟨c', g, _, _, hframes, -⟩ := called_of_step (n := n) rfl hcall rfl rfl rfl hstep
  have hbegins := Begins.called hvisit rfl hcall rfl rfl rfl hstep hframes
  have hunbound (e : ScopeId) (name : String) : m.store.scopes.binding? e name = none := by
    rcases e with _ | _ | e <;> rfl
  have hparent (e p : ScopeId) : ¬ m.store.scopes.Inside e p := by
    rcases e with _ | _ | e <;> rintro ⟨⟩
  have hroot : m.Rooted c 0 := by
    refine ⟨.of_scopes (fun e name b hb => ?_) fun e p hp => (hparent e p hp).elim, fun v hv => ?_,
      by decide⟩
    · rw [hunbound] at hb
      cases hb
    · obtain rfl : v = .function ⟨0, "f", [], 0, 1⟩ := by simpa [c] using hv
      exact (by decide : 1 < 2)
  have hnatives : ∀ r ∈ m.natives, r.KeepsChains := by
    intro r hr
    have hmem : r ∈ Prelude.natives 0 := by simpa [m] using hr
    exact Prelude.keepsChains hmem
  obtain ⟨-, hconfined⟩ := confined_of_visits hroot hnatives
  obtain ⟨-, hspared, -⟩ := hconfined _ _ _ _ _ n₁ hbegins (.start (by simp [hframes]))
  refine ⟨_, _, n₁, hbegins, fun howns => ?_⟩
  rcases Relation.ReflTransGen.cases_head (hspared 0 (by decide) howns) with h | ⟨p, hp, -⟩
  · cases h
  · exact hparent 1 p hp

end Machine

end ScriptMachine
