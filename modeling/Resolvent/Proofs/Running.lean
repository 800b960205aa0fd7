import Resolvent.Proofs.Branching

/-!
# Runs of activations

One step of an activation, forward or back, keeps to the frames that its code is typed in
(`agree_step`), and so does bringing a ball to a handler (`agree_settle`). So a run from the start of
typed code, or from a workspace in which the activation is suspended, ends as a call should
(`agree_run`).

A run is followed with its `Trace`. The path grows where a handler's range is entered, loses the
guards whose range is left, and is brought back with the choice point that the search comes back to.
-/

namespace Resolvent

namespace Chunk

/-- The handler whose range is entered behind the instruction at an offset: the one in force there, if
the instruction saves the barrier for it. -/
def entered? (c : Chunk) (pc : Nat) : Option Handler :=
  match c.fetch pc with
  | .ok (.saveCut n, next) => (c.handlerFor? next).filter (·.slot = n)
  | _ => none

/-- An instruction that saves no barrier enters no range. -/
theorem Stands.entered?_eq_none {c : Chunk} {h : Option Handler} {i : Instruction Term Tag Nat}
    {pc next : Nat} (hs : c.Stands h pc i next) (hi : ∀ n, i ≠ .saveCut n) : c.entered? pc = none := by
  obtain ⟨j, hj, hpacks⟩ := hs.fetch
  rw [entered?, hj]
  split
  · rename_i n _ heq
    cases heq
    cases hpacks
    exact absurd rfl (hi n)
  · rfl

/-- Code is typed with all handlers in force. -/
theorem Typed.mem_handlers {c : Chunk} {s : Symbols} {Γ : Frame} {pc : Nat} {k : Handler}
    (h : c.Typed s Γ pc) (hk : c.handlerFor? pc = some k) : k ∈ Γ.handlers := by
  induction h with
  | weaken h _ ih => rw [Frame.handlers, ← h.marks]; exact ih hk
  | dropAlternative h _ ih => rw [Frame.handlers, h, List.filterMap_cons]; exact ih hk
  | @dropBarrier _ _ hd _ _ _ _ _ hm _ _ ih =>
    rw [Frame.handlers, hm, List.filterMap_cons]
    cases hd with
    | none => exact ih hk
    | some k' => exact List.mem_cons_of_mem _ (ih hk)
  | pushConstant h | pushArgument h | pushEnvironment h | createVariable h | createCompound h
  | allocate h | storeEnvironment h | jump h | call h | leave h | succeed h | unify h | tryMeElse h
  | retryMeElse h | trustMe h | fail h | cut h | saveCut h | guard h | raise h =>
    exact List.mem_of_mem_head? (h.stands.handler.symm.trans hk)

end Chunk

namespace Trace

/-- The guards whose range an offset lies in. -/
def inForce (τ : Trace) (pc : Nat) : List Guard :=
  τ.path.filter (·.handler.covers pc)

/-- The trace while the instruction at an offset is carried out: new choice points belong to the guards
in force there. -/
def during (pc : Nat) (s : Workspace) (τ : Trace) : Trace :=
  { path := τ.inForce pc
    memory := fun i => if i < s.points.length then τ.memory i else τ.inForce pc }

/-- The trace behind the instruction. -/
def advance (c : Chunk) (pc : Nat) (s : Workspace) (τ : Trace) : Trace :=
  { τ.during pc s with path := (c.entered? pc).toList.map (⟨·, s⟩) ++ τ.inForce pc }

/-- The trace when the search comes back to the newest choice point. -/
def back (s : Workspace) (τ : Trace) : Trace :=
  { path := τ.memory (s.points.length - 1)
    memory := fun i =>
      if i < s.points.length then τ.memory i else τ.memory (s.points.length - 1) }

/-- The trace when a ball has been caught: the innermost guard has been left. -/
def caught (τ : Trace) : Trace :=
  { τ with path := τ.path.tail }

/-- The trace behind a step of a run. -/
def step (c : Course) (m : Machine) (τ : Trace) : Trace :=
  match c with
  | .forward => τ.advance m.activation.code.chunk m.activation.next m.workspace
  | .backward => τ.back m.workspace
  | .answer _ => τ

end Trace

namespace Activation

variable {ctx ctx' : Context} {B : Call} {d : Nat} {τ : Trace} {pc next : Nat} {Γ : Frame}
  {bs : List Block} {m : Machine}

/-! ### Forward -/

/-- The instruction is fetched and carried out. -/
theorem agree_fetched {path : List Guard} {cur : Nat} {i : Instruction Term Tag Nat}
    {Q : Course → Machine → Prop} {E : Interrupt → Machine → Prop}
    (h : Live B d ⟨path, τ.memory⟩ cur pc Γ bs m) (hp : τ.inForce pc = path.filter (·.handler.covers pc))
    (hat : B.code.chunk.At Γ pc i next)
    (k : ∀ j m', B.code.chunk.Packs (fun o a => a.toNat = o) i j →
      Live B d (τ.during pc m.workspace) pc next Γ bs m' → m'.workspace = m.workspace →
      (τ.during pc m.workspace).Covers m.workspace →
      B.code.chunk.Faces Γ.handlers pc →
      Agree (perform ctx j) (perform ctx' j) m' Q E) :
    Agree (advance ctx) (advance ctx') m Q E := by
  have hpath : τ.inForce pc = path := by
    rw [hp, List.filter_eq_self]
    intro g hg
    refine hat.covers g.handler ?_
    rw [Frame.handlers, ← h.frame.marks.handlers]
    exact List.mem_map_of_mem hg
  obtain ⟨j, hj, hpacks⟩ := hat.stands.fetch
  have hlive : Live B d (τ.during pc m.workspace) pc next Γ bs
      { m with activation := { m.activation with current := m.activation.next, next := next } } := by
    rw [Trace.during, hpath]
    exact ⟨⟨h.code, h.args, h.entry, h.depth, h.callee⟩, h.next, rfl, h.operands, h.height, h.frame,
      h.chain.of_memory h.frame.tops fun i hi => if_pos hi⟩
  rw [advance, advance]
  refine .bind_same (yields_get.mpr ?_)
  dsimp only
  rw [h.code]
  have hj : B.code.chunk.fetch m.activation.next = .ok (j, next) := h.next ▸ hj
  rw [hj]
  exact .bind_same (k j _ hpacks hlive rfl
    (fun i hi => if_neg (Nat.not_lt_of_le hi)) ⟨hat.stands.handler, hat.covers⟩)

/-- An instruction that saves no barrier. -/
theorem agree_at {path : List Guard} {cur : Nat} {i : Instruction Term Tag Nat}
    (h : Live B d ⟨path, τ.memory⟩ cur pc Γ bs m) (hp : τ.inForce pc = path.filter (·.handler.covers pc))
    (hat : B.code.chunk.At Γ pc i next) (hi : ∀ n, i ≠ .saveCut n)
    (k : ∀ j m', B.code.chunk.Packs (fun o a => a.toNat = o) i j →
      Live B d (τ.during pc m.workspace) pc next Γ bs m' →
      (τ.during pc m.workspace).Covers m'.workspace →
      B.code.chunk.Faces Γ.handlers pc →
      Agree (perform ctx j) (perform ctx' j) m' (Goes B d (τ.during pc m.workspace))
        (Breaks B d (τ.during pc m.workspace))) :
    Agree (advance ctx) (advance ctx') m
      (Goes B d (τ.advance B.code.chunk pc m.workspace))
      (Breaks B d (τ.advance B.code.chunk pc m.workspace)) := by
  have heq : τ.advance B.code.chunk pc m.workspace = τ.during pc m.workspace := by
    rw [Trace.advance, hat.stands.entered?_eq_none hi]
    rfl
  rw [heq]
  exact agree_fetched h hp hat fun j m' hj hm heq hτ => k j m' hj hm (heq ▸ hτ)

/-- An instruction that saves a barrier, and enters a range if it is that of a handler. -/
theorem agree_saveCut {path : List Guard} {cur : Nat} {n : UInt16} {hd : Option Chunk.Handler}
    (h : Live B d ⟨path, τ.memory⟩ cur pc Γ bs m) (hp : τ.inForce pc = path.filter (·.handler.covers pc))
    (hat : B.code.chunk.At Γ pc (.saveCut n) next) (hn : n.toNat < Γ.size) (hk : ¬Γ.keeps n.toNat)
    (ht : ∀ i, Γ.terms i → Γ.keeps i)
    (hh : ∀ k ∈ hd, B.Typed { Γ.barrier n none with height := 1 } k.target.toNat)
    (hent : (B.code.chunk.handlerFor? next).filter (·.slot = n) = hd)
    (k : B.Typed (Γ.barrier n hd) next) :
    Agree (advance ctx) (advance ctx') m
      (Goes B d (τ.advance B.code.chunk pc m.workspace))
      (Breaks B d (τ.advance B.code.chunk pc m.workspace)) := by
  refine agree_fetched h hp hat fun j m' hj hm heq _ _ => ?_
  cases hj
  have hentered : B.code.chunk.entered? pc = hd := by
    obtain ⟨j, hj, hpacks⟩ := hat.stands.fetch
    cases hpacks
    rw [Chunk.entered?, hj]
    exact hent
  rw [Trace.advance, hentered, ← heq]
  rw [← heq] at hm
  have hh' (k : Chunk.Handler) (hk : k ∈ hd) : k.slot = n ∧ k ∈ B.code.chunk.handlers ∧
      B.Typed { Γ.barrier n none with height := 1 } k.target.toNat := by
    obtain ⟨hfind, hslot⟩ := Option.filter_eq_some_iff.mp (hent.trans hk)
    exact ⟨of_decide_eq_true hslot, Array.mem_of_find?_eq_some hfind, hh k hk⟩
  exact .of_yields ((goes_saveCut ctx hm hn hk ht hh' k).imp (fun _ _ h => h) fun _ _ h => h.elim)

/-- An instruction of typed code leads to typed code, to the newest choice point, to an answer or to
an exception for the guards in force. -/
theorem agree_advance (hctx : ctx.Disciplined ctx') (k : B.Typed Γ pc) : ∀ {path : List Guard}
    {cur : Nat} {bs : List Block}, Live B d ⟨path, τ.memory⟩ cur pc Γ bs m →
      τ.inForce pc = path.filter (·.handler.covers pc) →
      Agree (advance ctx) (advance ctx') m
        (Goes B d (τ.advance B.code.chunk pc m.workspace))
        (Breaks B d (τ.advance B.code.chunk pc m.workspace)) := by
  induction k with
  | weaken hw _ ih => exact fun h hp => ih (h.weaken hw) hp
  | dropAlternative hm _ ih =>
    intro path cur bs h hp
    have hmarks := h.frame.marks
    rw [hm] at hmarks
    cases hmarks with
    | alternative hbs he hl hp' hw ht hms =>
      refine ih { h with frame := ⟨h.frame.tops, ?_, h.frame.terms, h.frame.size⟩ } hp
      exact (hms.above hl hp' ((List.suffix_cons _ _).trans hbs) False.elim).widen hw
  | @dropBarrier _ _ hd _ _ _ _ _ hm hc _ ih =>
    intro path cur bs h hp
    have hmarks := h.frame.marks
    rw [hm] at hmarks
    dsimp only at hmarks
    cases hmarks with
    | @barrier _ _ _ _ _ _ path _ _ _ _ _ _ hbs he htops hl hp' hn hslot hw ht hb hh hms =>
      refine @ih path _ _ ⟨⟨h.code, h.args, h.entry, h.depth, h.callee⟩, h.current, h.next,
        h.operands, h.height, ⟨h.frame.tops, ?_, h.frame.terms, h.frame.size⟩, h.chain⟩ (hp.trans ?_)
      · exact (hms.above hl hp' hbs fun h => ⟨h.2, he h.1⟩).widen hw
      · cases hd with
        | none => rfl
        | some k =>
          show List.filter _ (_ :: path) = _
          rw [List.filter_cons_of_neg (by simp [hc k rfl])]
  | pushConstant hat ht k _ =>
    intro path cur bs h hp
    refine agree_at h hp hat (fun _ hj => by cases hj) fun j m' hj hm hτ hpc => ?_
    cases hj with | pushConstant hn => exact .of_yields (goes_pushConstant ctx hm hpc hn ht k)
  | pushArgument hat hn k _ =>
    intro path cur bs h hp
    refine agree_at h hp hat (fun _ hj => by cases hj) fun j m' hj hm hτ hpc => ?_
    cases hj
    exact .of_yields (goes_pushArgument ctx hm hpc hn k)
  | pushEnvironment hat hn k _ =>
    intro path cur bs h hp
    refine agree_at h hp hat (fun _ hj => by cases hj) fun j m' hj hm hτ hpc => ?_
    cases hj
    exact .of_yields (goes_pushEnvironment ctx hm hpc hn k)
  | createVariable hat k _ =>
    intro path cur bs h hp
    refine agree_at h hp hat (fun _ hj => by cases hj) fun j m' hj hm hτ hpc => ?_
    cases hj
    exact .of_yields (goes_createVariable ctx hm hpc k)
  | createCompound hat ha hh k _ =>
    intro path cur bs h hp
    refine agree_at h hp hat (fun _ hj => by cases hj) fun j m' hj hm hτ hpc => ?_
    cases hj with | createCompound hn => exact .of_yields (goes_createCompound ctx hm hpc hn ha hh k)
  | allocate hat hms he ht k _ =>
    intro path cur bs h hp
    refine agree_at h hp hat (fun _ hj => by cases hj) fun j m' hj hm hτ hpc => ?_
    cases hj
    exact .of_yields (goes_allocate ctx hm hms he ht k)
  | storeEnvironment hat hh hn hk k _ =>
    intro path cur bs h hp
    refine agree_at h hp hat (fun _ hj => by cases hj) fun j m' hj hm hτ hpc => ?_
    cases hj
    exact .of_yields (goes_storeEnvironment ctx hm hh hn hk k)
  | jump hat k _ =>
    intro path cur bs h hp
    refine agree_at h hp hat (fun _ hj => by cases hj) fun j m' hj hm hτ hpc => ?_
    cases hj with | jump hl => exact .of_yields (goes_jump ctx hm (hl ▸ k))
  | call hat ha hh hk k _ =>
    intro path cur bs h hp
    refine agree_at h hp hat (fun _ hj => by cases hj) fun j m' hj hm hτ hpc => ?_
    cases hj with | call hn => exact goes_call hctx hm hpc hτ hn ha hh hk k
  | leave hat hh =>
    intro path cur bs h hp
    refine agree_at h hp hat (fun _ hj => by cases hj) fun j m' hj hm hτ hpc => ?_
    cases hj
    exact .of_yields (goes_leave ctx hm hpc hh)
  | succeed hat k _ =>
    intro path cur bs h hp
    refine agree_at h hp hat (fun _ hj => by cases hj) fun j m' hj hm hτ hpc => ?_
    cases hj
    exact .of_yields (goes_succeed ctx hm k)
  | unify hat hh k _ =>
    intro path cur bs h hp
    refine agree_at h hp hat (fun _ hj => by cases hj) fun j m' hj hm hτ hpc => ?_
    cases hj
    have heq : perform ctx' .unify = perform ctx .unify := by rw [perform, perform, hctx.fuel]
    rw [heq]
    exact .of_yields (goes_unify ctx hm hh k)
  | tryMeElse hat hk k kl _ _ =>
    intro path cur bs h hp
    refine agree_at h hp hat (fun _ hj => by cases hj) fun j m' hj hm hτ hpc => ?_
    cases hj with | tryMeElse hl => exact .of_yields (goes_tryMeElse ctx hm hpc hτ hk k (hl ▸ kl))
  | retryMeElse hat hms he k kl _ _ =>
    intro path cur bs h hp
    refine agree_at h hp hat (fun _ hj => by cases hj) fun j m' hj hm hτ hpc => ?_
    cases hj with | retryMeElse hl => exact .of_yields (goes_retryMeElse ctx hm hms he k (hl ▸ kl))
  | trustMe hat hms he k _ =>
    intro path cur bs h hp
    refine agree_at h hp hat (fun _ hj => by cases hj) fun j m' hj hm hτ hpc => ?_
    cases hj
    exact .of_yields (goes_trustMe ctx hm hms he k)
  | fail hat =>
    intro path cur bs h hp
    refine agree_at h hp hat (fun _ hj => by cases hj) fun j m' hj hm hτ hpc => ?_
    cases hj
    exact .of_yields (goes_fail ctx hm)
  | cut hat hms ha k _ =>
    intro path cur bs h hp
    refine agree_at h hp hat (fun _ hj => by cases hj) fun j m' hj hm hτ hpc => ?_
    cases hj
    exact goes_cut hctx hm hms ha k
  | @saveCut Γ _ next n hat hn hk ht k _ =>
    intro path cur bs h hp
    refine agree_saveCut h hp hat hn hk ht (fun _ hk => by cases hk) ?_ k
    rw [Option.filter_eq_none_iff]
    intro k' hk' hslot
    have hmem : k' ∈ Γ.handlers := k.mem_handlers hk'
    exact hk (by simpa [← of_decide_eq_true hslot] using h.frame.marks.keeps_slot hmem)
  | guard hat hn hk ht hc kb kt _ _ =>
    intro path cur bs h hp
    refine agree_saveCut h hp hat hn hk ht (fun k' hk' => ?_) ?_ kb
    · obtain rfl := Option.some.inj hk'
      exact kt
    · rw [hc]
      simp
  | raise hat hh =>
    intro path cur bs h hp
    refine agree_at h hp hat (fun _ hj => by cases hj) fun j m' hj hm hτ hpc => ?_
    cases hj
    exact .of_yields (goes_raise ctx hm hpc hh)

/-! ### Back -/

/-- The search comes back to the newest choice point. -/
theorem agree_backtrack (hctx : ctx.Disciplined ctx') (h : Backs B d τ m) :
    Agree (backtrack ctx) (backtrack ctx') m (Goes B d (τ.back m.workspace))
      (Breaks B d (τ.back m.workspace)) := by
  obtain ⟨hr, keeps, bs, hchain, htops⟩ := h
  obtain ⟨-, hbottom⟩ := hchain.reaches htops
  have hheight : ¬m.workspace.points.length < m.activation.entry := by
    have hle := hbottom.length_le
    rw [List.length_append, List.length_singleton] at hle
    rw [hr.entry, Call.bottom]
    omega
  rw [backtrack, backtrack]
  refine .bind_same (yields_onWorkspace.mpr (Engine.yields_height.mpr (.bind_same
    (yields_get.mpr ?_))))
  simp only [if_neg hheight]
  refine .bind_same (yields_onWorkspace.mpr (Engine.yields_top?.mpr ?_))
  have hready := htops.ready
  cases hchain with
  | nil =>
    obtain ⟨hl, hp⟩ := htops
    rw [hp, List.getLast?_concat]
    refine .of_yields ?_
    simp only [Call.entry, yields_bind, yields_onWorkspace]
    have hundo := Engine.yields_pop_undoTo hl hp rfl
    rw [yields_bind] at hundo
    refine hundo.imp (fun _ _ h => h.imp (fun _ t ht => ?_) fun _ _ h => h.elim) fun _ _ h => h.elim
    obtain ⟨hlt, hmt, hpt, hdt, -⟩ := ht
    exact ⟨⟨hdt.trans hr.depth, hlt, hmt, hpt⟩, by simp⟩
  | @alternative _ _ _ _ Γ path bs s r below hk ht hm hrec typed =>
    have hchain : Chain B m.activation.slots τ.memory Γ.keeps
        (⟨s, .alternative r, Γ.keeps, path⟩ :: bs) := .alternative below (fun _ h => h) ht hm hrec typed
    have hchain : Chain B m.activation.slots (τ.back m.workspace).memory Γ.keeps
        (⟨s, .alternative r, Γ.keeps, path⟩ :: bs) := hchain.of_memory htops fun i hi => if_pos hi
    obtain ⟨hl, hp⟩ := htops
    have hpath : (τ.back m.workspace).path = path := by
      rw [Trace.back, hp, List.length_append, List.length_singleton, Nat.add_sub_cancel]
      exact hrec _ (Nat.le_refl _) (Nat.le_refl _)
    rw [hp, List.getLast?_concat]
    refine .of_yields ?_
    simp only [yields_bind, yields_onWorkspace]
    refine (Engine.yields_undoTo hl (hready.mark_le hp)).imp (fun _ t hundo => ?_)
      fun _ _ h => h.elim
    obtain ⟨hlt, -, hpt, hdt, -⟩ := hundo
    have hpt := hpt.trans hp
    refine ⟨m.activation.current, r, Γ.alternative, ⟨s, .alternative r, Γ.keeps, path⟩ :: bs,
      ⟨⟨hr.code, hr.args, hr.entry, hdt.trans hr.depth, hr.callee⟩, rfl, rfl, by simp, Nat.zero_le _,
        ⟨⟨hlt, hpt⟩, ?_, fun i hi => (hm.terms i hi).later hlt, hm.size⟩, hchain⟩, typed⟩
    rw [hpath]
    exact .alternative (List.suffix_refl _) (fun _ => rfl) hlt (hpt ▸ List.prefix_append _ _)
      (fun _ h => h) (fun i hi => ⟨ht i hi, hm.terms i hi⟩) (hm.marks.loosen False.elim)
  | @retry _ _ _ _ Γ path bs s t callee args r c below hk ht hm hrec typed handler covers fits later
      points suspended =>
    obtain ⟨hl, hp⟩ := htops
    have hlen : m.workspace.points.length = t.points.length + 1 := by
      rw [hp, List.length_append, List.length_singleton]
    have hle := points.length_le
    have hpath : (τ.back m.workspace).path = path := by
      rw [Trace.back, hlen, Nat.add_sub_cancel]
      exact hrec _ hle (Nat.le_refl _)
    have hcovers : (τ.back m.workspace).Covers s := by
      intro i hi
      rw [hpath, Trace.back, hlen]
      dsimp only
      split
      · exact hrec i hi (by omega)
      · exact hrec _ hle (Nat.le_refl _)
    have hbelow : Chain B m.activation.slots (τ.back m.workspace).memory Γ.keeps bs :=
      below.of_memory hm.tops fun i hi => if_pos (by omega)
    rw [← hpath] at hm
    rw [hp, List.getLast?_concat]
    refine .bind_same (yields_onWorkspace.mpr ?_)
    have hundo := Engine.yields_pop_undoTo hl hp rfl
    rw [yields_bind] at hundo
    refine hundo.imp (fun _ u hu => ?_) fun _ _ h => h.elim
    refine .bind_same (yields_onWorkspace.mpr (hu.imp (fun _ v hv => ?_) fun _ _ h => h.elim))
    obtain ⟨hlv, -, hpv, hdv, -⟩ := hv
    -- the call is told of before it is made
    have htold := hlv.ready.stays_told (e := .invoked callee args true) trivial rfl rfl
    have hsuspended := suspended.same (hlv.trans htold.1.toOwes) (htold.1.points.trans hpv)
    have hdepth := hdv.trans hr.depth
    refine .bind_same (yields_update.mpr ?_)
    refine .bind (agree_onWorkspace (m := ⟨v, _⟩) (agree_invoke ((hctx.redo callee args s _ fits
      hsuspended).imp (fun a w ha => ?_) fun e w he => ?_)))
      (fun _ _ h => h) fun _ _ h => h
    · have hruns : Runs B d ⟨w, { m.activation with operands := #[], next := r, current := c }⟩ :=
        ⟨hr.code, hr.args, hr.entry, ha.1.trans hdepth, hr.callee⟩
      exact .of_yields (goes_proceed hruns rfl rfl (by simp) hbelow hm ht hcovers typed ⟨handler, covers⟩
        fits (hdepth ▸ ha))
    · have hruns : Runs B d ⟨v, { m.activation with operands := #[], next := r, current := c }⟩ :=
        ⟨hr.code, hr.args, hr.entry, hdepth, hr.callee⟩
      exact .of_stopped hruns hbelow hm ⟨handler, covers⟩ he

/-! ### Handlers -/

/-- A ball has been brought to the innermost guard: the activation goes on at its handler, and the
workspace is as it was when the range of the handler was entered. -/
structure Caught (B : Call) (d : Nat) (τ : Trace) (x : Exception) (a a' : Activation) (s : Workspace) :
    Prop where
  /-- The guard was the innermost one, and the ball is the only operand. -/
  guard : ∃ g path, τ.path = g :: path ∧ g.entered.Same s ∧
    a' = { a with operands := #[x.ball], next := g.handler.target.toNat } ∧
    Goes B d ⟨path, τ.memory⟩ .forward ⟨s, a'⟩
  /-- The ball is as it was thrown. -/
  sealed : x.Sealed s.database.terms

/-- What lies above a workspace is cut off, the cleanup goals in it are run, and the bindings made
since are undone. -/
theorem agree_unwind (hctx : ctx.Disciplined ctx') {s t : Workspace} {n : Nat} (hl : t.Later s)
    (hp : t.points <+: s.points) (hn : n = t.points.length) (ht : ∀ p ∈ t.points, p.mark ≤ t.mark)
    {α : Type} {f : EngineM α} {Q : α → Workspace → Prop} {E : Stop → Workspace → Prop}
    (hf : ∀ s', t.Same s' → s.symbols.Extends s'.symbols → s'.engine.depth = s.engine.depth →
      Yields f s' Q E)
    (hspent : ∀ s', s.Tells s' → E .spent s')
    (hhalted : ∀ i s', t.Later s' → s'.points = t.points → s'.engine.depth = s.engine.depth →
      s'.Asked → E (.halted i) s') :
    Agree (do ctx.runCleanups (← Engine.cutTo n); Engine.undoTo t.mark; f)
      (do ctx'.runCleanups (← Engine.cutTo n); Engine.undoTo t.mark; f) s Q E := by
  subst hn
  refine .bind_same ((Engine.yields_cutTo hl.ready t.points.length).imp (fun goals u hu => ?_)
    fun _ _ h => h.elim)
  obtain ⟨hgoals, howes, hpu, -, hdu⟩ := hu
  obtain ⟨rest, hrest⟩ := hp
  rw [← hrest, List.take_left] at hpu
  refine .bind (hctx.cleanups goals u howes.ready hgoals) (fun _ v hv => ?_) fun e v he => ?_
  · have hlv := hl.trans (howes.clear hv)
    have hpv := hv.points.trans hpu
    refine .of_yields (yields_bind.mpr ?_)
    refine (Engine.yields_undoTo hlv (hpv ▸ ht)).imp (fun _ w hw => ?_) fun _ _ h => h.elim
    obtain ⟨hlw, hmw, hpw, hdw, hsw⟩ := hw
    exact hf w ⟨hlw, hmw, hpw.trans hpv⟩ (howes.symbols.trans (hv.grows.symbols.trans hsw))
      (hdw.trans (hv.depth.trans hdu))
  · obtain ⟨rfl, htells⟩ | ⟨i, rfl, hv, hasked⟩ := he
    · exact hspent v (howes.tells.trans htells)
    · exact hhalted i v (hl.trans (howes.clear hv)) (hv.points.trans hpu) (hv.depth.trans hdu) hasked

/-- A ball is brought to the innermost guard, or thrown on with all that the activation has done taken
back. -/
theorem agree_handle (hctx : ctx.Disciplined ctx') {x : Exception} (hg : Guarded B d τ m)
    (hx : x.Sealed m.workspace.database.terms) :
    Agree (handle ctx x m.activation) (handle ctx' x m.activation) m.workspace
      (fun a s' => B.code.chunk.handlerFor? m.activation.current ≠ none ∧
        Caught B d τ x m.activation a s')
      (fun e s' => B.origin.Undone d e s' ∧
        ∀ y, e = .thrown y → y = x ∧ B.code.chunk.handlerFor? m.activation.current = none ∧
          τ.path = []) := by
  have hframe := hg.frame
  unfold handle handler?
  rw [hg.code]
  cases hk : B.code.chunk.handlerFor? m.activation.current with
  | some k =>
    rw [hk] at hframe
    obtain ⟨Γ, bs, u, hm, hchain, hlu, hpu, hhead⟩ := hframe
    obtain ⟨ms, exact', keeps, terms, path, bs', t, hpath, hbs, htops, hlt, hpt, hslot, hfresh, hterms,
      hkeeps, htyped, hmarks⟩ := hm.marks.innermost hhead
    have hready := htops.ready
    have hl := hlt.trans hlu
    obtain ⟨-, hbottom⟩ := (hchain.suffix hbs).reaches htops
    have hmax : max t.points.length m.activation.entry = t.points.length := by
      have hle := hbottom.length_le
      rw [List.length_append, List.length_singleton] at hle
      rw [hg.entry]
      exact Nat.max_eq_left hle
    have hmarksle : ∀ p ∈ t.points, p.mark ≤ t.mark := fun p hp => hready.made.mark_le hp
    simp only [hslot]
    refine agree_unwind hctx hl (hpt.trans hpu) hmax hmarksle (fun s' hs hsym hd => ?_)
      (fun s' htells => ⟨⟨hg.later.tells.trans htells, by simp⟩, by simp⟩)
      fun i s' hs hp hd _ => ⟨⟨⟨hd.trans hg.depth, ?_, ?_, fun _ => .inl ?_⟩, by simp⟩, by simp⟩
    · refine ⟨Option.some_ne_none k, ⟨⟨k, t⟩, path, hpath, hs, by rw [hg.code], ?_⟩, hs.sealed hl hsym hx⟩
      refine ⟨m.activation.current, k.target.toNat, { (Frame.mk ms exact' keeps terms
        m.activation.slots.size 0).barrier k.slot none with height := 1 }, bs', ?_, htyped⟩
      refine ⟨⟨rfl, hg.args, hg.entry, hd.trans hg.depth, hg.callee⟩, rfl, rfl, ?_, Nat.le_refl 1,
        ⟨htops.same hs, ?_, fun i hi => ((hterms i hi).2).later hs.toOwes, rfl⟩, ?_⟩
      · intro y hy
        rw [List.mem_toArray, List.mem_singleton] at hy
        rw [hy]
        exact hx.fits.mono hsym
      · exact .barrier (List.suffix_refl _) (fun _ => rfl) htops hs.toOwes
          (hs.points ▸ List.prefix_refl _) ⟨.inr rfl, hfresh⟩ hslot (fun _ hi => .inl hi) hterms hkeeps
          (fun _ hk => by cases hk) hmarks
      · exact (hchain.suffix hbs).narrow fun b hb i hi => .inl (hkeeps b hb i hi)
    · exact (hchain.suffix hbs).reaches htops |>.1.trans hs
    · exact (List.prefix_append _ _).trans (hp ▸ hbottom)
    · exact (topped_of_chain (hchain.suffix hbs) htops).of_points hp
  | none =>
    rw [hk] at hframe
    obtain ⟨rest, hrest⟩ := hg.points
    have hbottom : m.activation.entry - 1 = B.origin.points.length := by
      rw [hg.entry, Call.bottom, Nat.add_sub_cancel]
    have hentry : m.workspace.engine.choices.get? (m.activation.entry - 1) = some B.entry := by
      rw [ChoiceStack.get?, ← Array.getElem?_toList, ← Workspace.points, ← hrest, hbottom]
      simp
    have hmarksle : ∀ p ∈ B.origin.points, p.mark ≤ B.origin.mark := by
      have hsorted := hg.later.ready.made.sorted
      rw [← hrest, List.append_assoc, List.pairwise_append] at hsorted
      exact fun p hp => hsorted.2.2 p hp B.entry (List.mem_append_left _ (List.mem_singleton_self _))
    refine .bind_same (yields_get.mpr ?_)
    simp only [hentry, Option.map_some]
    refine agree_unwind hctx hg.later ((List.prefix_append _ _).trans hg.points) hbottom hmarksle
      (fun s' hs hsym hd => ?_) (fun s' htells => ⟨⟨hg.later.tells.trans htells, by simp⟩, by simp⟩)
      fun i s' hs hp hd hasked => ⟨⟨⟨hd.trans hg.depth, hs, hp ▸ List.prefix_refl _,
        fun _ => .inr ⟨hasked, hp⟩⟩, by simp⟩, by simp⟩
    refine ⟨⟨⟨hd.trans hg.depth, hs.toOwes, hs.points ▸ List.prefix_refl _, hs.sealed hg.later hsym hx,
      fun _ => .inr hs⟩, fun _ _ => hs⟩, fun y hy => ?_⟩
    cases hy
    exact ⟨rfl, trivial, hframe⟩

/-- An exception may have been made of a fault before it is thrown. -/
theorem Guarded.stays {s : Workspace} (h : Guarded B d τ m) (hs : m.workspace.Stays s) :
    Guarded B d τ ⟨s, m.activation⟩ := by
  refine ⟨h.toRuns.move hs.2, h.later.trans hs.1.toOwes, hs.1.points ▸ h.points, h.covers, ?_⟩
  have hframe := h.frame
  cases hk : B.code.chunk.handlerFor? m.activation.current with
  | none =>
    rw [hk] at hframe
    exact hframe
  | some k =>
    rw [hk] at hframe
    obtain ⟨Γ, bs, t, hm, hchain, hl, hp, hhead⟩ := hframe
    exact ⟨Γ, bs, t, hm, hchain, hl.trans hs.1.toOwes, hs.1.points ▸ hp, hhead⟩

/-- What an instruction was interrupted by is brought to the innermost guard, or ends the run. -/
theorem agree_settle (hctx : ctx.Disciplined ctx') {i : Interrupt} (h : Breaks B d τ i m) :
    Agree (settle ctx i m.activation) (settle ctx' i m.activation) m.workspace
      (fun a s' => Goes B d τ.caught .forward ⟨s', a⟩)
      (fun e s' => B.origin.Undone d e s' ∧ ∀ y, e = .thrown y →
        τ.path = [] ∧ (i = .stop (.thrown y) ∨ i = .fault .stackOverflow)) := by
  have hball {s : Workspace} {x : Exception} (hx : x.Sealed s.database.terms)
      (hg : Guarded B d τ ⟨s, m.activation⟩) (hi : i = .stop (.thrown x) ∨ i = .fault .stackOverflow) :
      Agree (handle ctx x m.activation) (handle ctx' x m.activation) s
        (fun a s' => Goes B d τ.caught .forward ⟨s', a⟩)
        (fun e s' => B.origin.Undone d e s' ∧ ∀ y, e = .thrown y →
          τ.path = [] ∧ (i = .stop (.thrown y) ∨ i = .fault .stackOverflow)) := by
    refine (agree_handle hctx hg hx).imp (fun a s' ha => ?_) fun e s' he => ⟨he.1, fun y hy => ?_⟩
    · obtain ⟨g, path, hpath, -, -, hgoes⟩ := ha.2.guard
      rw [Trace.caught, hpath]
      exact hgoes
    · obtain ⟨rfl, -, hpath⟩ := he.2 y hy
      exact ⟨hpath, hi⟩
  rcases i with (x | n) | f
  · exact hball h.1 h.2 (.inl rfl)
  · exact .of_yields ⟨⟨h, by simp⟩, by simp⟩
  · exact .of_yields ⟨⟨h, by simp⟩, by simp⟩
  · obtain ⟨rfl, hg⟩ := h
    rw [settle, settle]
    refine .bind (hctx.report m.workspace hg.later.ready) (fun x s' hx => ?_) fun _ _ h => h.elim
    exact hball hx.2 (hg.stays hx.1) (.inr rfl)

/-! ### Runs -/

/-- A run can go on in a workspace that differs in nothing that counts. -/
theorem Goes.stays {c : Course} {s : Workspace} (h : Goes B d τ c m) (hc : ∀ a, c ≠ .answer a)
    (hs : m.workspace.Stays s) : Goes B d τ c ⟨s, m.activation⟩ := by
  cases c with
  | forward =>
    obtain ⟨pc, next, Γ, bs, hlive, htyped⟩ := h
    exact ⟨pc, next, Γ, bs, hlive.stays hs, htyped⟩
  | backward =>
    obtain ⟨hr, keeps, bs, hchain, htops⟩ := h
    exact ⟨hr.move hs.2, keeps, bs, hchain, htops.same hs.1⟩
  | answer a => exact absurd rfl (hc a)

theorem Goes.later {c : Course} (h : Goes B d τ c m) : B.origin.Later m.workspace := by
  cases c with
  | forward =>
    obtain ⟨pc, next, Γ, bs, hlive, -⟩ := h
    exact hlive.origin
  | backward =>
    obtain ⟨-, keeps, bs, hchain, htops⟩ := h
    exact (hchain.reaches htops).1
  | answer a => exact Callee.Answered.later h.1

/-- A step of a run keeps to the frames that the code is typed in. -/
theorem agree_step (hctx : ctx.Disciplined ctx') {c : Course} (h : Goes B d τ c m)
    (hc : ∀ a, c ≠ .answer a) :
    Agree (step ctx c) (step ctx' c) m (Goes B d (τ.step c m)) (Breaks B d (τ.step c m)) := by
  cases c with
  | forward =>
    obtain ⟨pc, next, Γ, bs, hlive, htyped⟩ := h
    have hlive : Live B d ⟨τ.path, τ.memory⟩ _ _ Γ bs m := hlive
    have hadvance := agree_advance hctx htyped hlive rfl
    rw [Trace.step, hlive.code, hlive.next]
    exact hadvance
  | backward => exact agree_backtrack hctx h
  | answer a => exact absurd rfl (hc a)

/-- A run that goes on as it should ends as a call should. -/
theorem agree_run (hctx : ctx.Disciplined ctx') (n : Nat) : ∀ {c : Course} {τ : Trace} {m : Machine},
    Goes B d τ c m → Agree (run ctx n c m.activation) (run ctx' n c m.activation) m.workspace
      ((Callee.code B.code).Answered B.args B.origin d)
      (B.origin.Undone d) := by
  induction n with
  | zero =>
    intro c τ m h
    have hspent : B.origin.Undone d .spent m.workspace := ⟨h.later.tells, by simp⟩
    exact .of_yields (yields_throw.mpr hspent)
  | succ n ih =>
    intro c τ m h
    by_cases hc : ∃ a, c = .answer a
    · obtain ⟨a, rfl⟩ := hc
      have hanswered : (Callee.code B.code).Answered B.args B.origin d a m.workspace := h.1
      exact .of_yields (yields_pure.mpr hanswered)
    · have hc (a : Answer) : c ≠ .answer a := fun heq => hc ⟨a, heq⟩
      have hstep := agree_step hctx (h.stays hc h.later.ready.stays_pass) hc
      obtain ⟨heq, hy⟩ := hstep
      cases hx : step ctx c ⟨m.workspace.pass, m.activation⟩ with
      | ok c' m' =>
        rw [hx] at heq
        refine .of_eq (run_of_ok hc hx) (run_of_ok hc heq) (ih (yields_ok hy hx))
      | error i m' =>
        rw [hx] at heq
        obtain ⟨heq', hy'⟩ := agree_settle hctx (yields_error hy hx)
        cases hx' : settle ctx i m'.activation m'.workspace with
        | ok a s =>
          rw [hx'] at heq'
          have hgoes := yields_ok hy' hx'
          exact .of_eq (run_of_caught hc hx hx') (run_of_caught hc heq heq') (ih hgoes)
        | error e s =>
          rw [hx'] at heq'
          have hstopped := (yields_error hy' hx').1
          exact .of_eq (run_of_uncaught hc hx hx') (run_of_uncaught hc heq heq')
            (.of_yields (yields_throw.mpr hstopped))

/-! ### Calls of code -/

variable {code : Code} {args : Array Term} {ρ s s₀ : Workspace}

/-- The run of a call begins above the entry of the activation. -/
theorem goes_start (hρ : ρ.Same s) (hfits : (Callee.code code).Fits ρ.database args) :
    Yields (Engine.pushChoice (.entry code)) s
      (fun _ t => Goes ⟨code, args, ρ⟩ s.engine.depth ⟨[], fun _ => []⟩ .forward
        ⟨t, code, args, 0, 0, #[], #[], t.points.length⟩) s.Raised := by
  refine (Engine.yields_pushChoice hρ.ready (by simp [ChoicePoint.cleanup?])).imp (fun _ t ht => ?_)
    fun _ _ h => h
  obtain ⟨hl, hp, -, hd⟩ := ht
  let B : Call := ⟨code, args, ρ⟩
  have hpoints : t.points = ρ.points ++ [B.entry] := by
    rw [hp, hρ.points, Call.entry, Workspace.mark, Workspace.mark, hρ.moment.mark_eq]
  refine ⟨0, 0, .entry, [], ⟨⟨rfl, rfl, ?_, hd, hfits⟩, rfl, rfl, by simp, Nat.zero_le _,
    ⟨⟨hρ.toOwes.trans hl, hpoints⟩, .nil fun _ => rfl, fun _ h => h.elim, rfl⟩, .nil⟩,
    hfits.sound.chunk⟩
  rw [hpoints, List.length_append, List.length_singleton]
  rfl

/-- A call of typed code, in a workspace like the one in which the call was made. -/
theorem agree_start (hctx : ctx.Disciplined ctx') (hρ : ρ.Same s)
    (hfits : (Callee.code code).Fits ρ.database args) :
    Agree (start ctx code args) (start ctx' code args) s
      ((Callee.code code).Answered args ρ s.engine.depth)
      (ρ.Undone s.engine.depth) := by
  rw [start, start]
  refine .bind_same ((goes_start hρ hfits).imp (fun _ t hgoes => ?_)
    fun e t ht => ⟨ht.stopped hρ _, fun _ _ => ht.same hρ⟩)
  refine .bind_same (Engine.yields_height.mpr ?_)
  rw [hctx.fuel]
  exact agree_run hctx ctx.fuel hgoes

/-- The run of a call for another solution begins where the activation was left. -/
theorem goes_resume {mem : Nat → List Guard} (hfits : (Callee.code code).Fits s₀.database args)
    (hs : Call.Exited ⟨code, args, s₀⟩ mem s) : ∃ slots m,
      s.points.getLast? = some ⟨m, .exit slots (s₀.points.length + 1)⟩ ∧
      Yields (do Engine.pop; Engine.undoTo m) s
        (fun _ t => Goes ⟨code, args, s₀⟩ s.engine.depth ⟨[], mem⟩ .backward
          ⟨t, code, args, 0, 0, #[], slots, s₀.points.length + 1⟩) fun _ _ => False := by
  obtain ⟨slots, keeps, bs, t, chain, tops, -, later, points⟩ := hs
  refine ⟨slots, t.mark, by rw [points, List.getLast?_concat]; rfl, ?_⟩
  refine (Engine.yields_pop_undoTo later points rfl).imp (fun _ v hv => ?_) fun _ _ h => h
  obtain ⟨hl, -, hp, hd, -⟩ := hv
  exact ⟨⟨rfl, rfl, rfl, hd, hfits⟩, keeps, bs, chain, tops.later hl hp⟩

/-- A call of typed code for another solution. -/
theorem agree_resume (hctx : ctx.Disciplined ctx') (hfits : (Callee.code code).Fits s₀.database args)
    (hs : Suspended (.code code) args s₀ s) :
    Agree (resume ctx code args) (resume ctx' code args) s
      ((Callee.code code).Answered args s₀ s.engine.depth)
      (s₀.Undone s.engine.depth) := by
  obtain ⟨mem, hexited⟩ := hs.exited
  obtain ⟨slots, m, hlast, hundo⟩ := goes_resume hfits hexited
  rw [yields_bind] at hundo
  rw [resume, resume]
  refine .bind_same (Engine.yields_top?.mpr ?_)
  rw [hlast]
  refine .bind_same (hundo.imp (fun _ u hu => ?_) fun _ _ h => h.elim)
  refine .bind_same (hu.imp (fun _ v hgoes => ?_) fun _ _ h => h.elim)
  rw [hctx.fuel]
  exact agree_run hctx ctx.fuel hgoes

end Activation

end Resolvent
