import Resolvent.Proofs.Compiled

/-!
# Where balls go

The run of a call is followed with its trace (`Activation.Followed`), and so are the runs of the calls
for other solutions. The path of the trace is made of the guards that are open: those of the `catch/3`
goals that have been entered and not been left, on the way that the search has taken to where it is
now. When the search comes back to a choice point, the path is that of the time at which the choice
point was made, even if the goal has been left since; so a callee that is asked for another solution
throws its balls to the goals around its call.

A ball that a step throws is brought to the innermost open guard, and thrown on if there is none
(`Activation.Followed.brought`). So a call that throws a ball has thrown it where no guard was open
(`Activation.Leaves`), and so has a goal that ends with an exception (`Engine.yields_execute_leaves`).
-/

namespace Resolvent

/-- A limit has just not allowed what was to be done. -/
def Workspace.AtLimit (s : Workspace) : Prop :=
  ∃ l, s.chronicle = .limited :: l

/-- What a term is thrown as: as a variant of the tree that it denotes at that time, or as an error if
it is an unbound variable. -/
def Term.ThrownAs (t : Term) (u : Universe) (x : Exception) : Prop :=
  match u.store.deref t with
  | .var _ => x = (Exception.ofError .instantiation u).1
  | _ => (u.store.resolve t).Variant x.ball.erase

theorem Term.thrownAs_of_nonvar {t : Term} {u : Universe} {x : Exception}
    (ht : ∀ v, u.store.deref t ≠ .var v) (hx : (u.store.resolve t).Variant x.ball.erase) :
    t.ThrownAs u x := by
  unfold ThrownAs
  split
  · exact absurd ‹_› (ht _)
  · exact hx

/-- The machine after the search has passed through its workspace. -/
def Machine.pass (m : Machine) : Machine :=
  ⟨m.workspace.pass, m.activation⟩

namespace Activation

/-! ### Runs with their traces -/

/-- The run of a call of the code, made in a workspace like the first one, or of a call for another
solution, comes by with a trace. -/
inductive Followed (host : Host) (code : Code) (args : Array Term) (s : Workspace) :
    Trace → Course → Machine → Prop where
  /-- A call begins. -/
  | called {ρ t : Workspace} (hρ : s.Same ρ) (hx : Engine.pushChoice (.entry code) ρ = .ok () t) :
      Followed host code args s ⟨[], fun _ => []⟩ .forward
        ⟨t, code, args, 0, 0, #[], #[], t.points.length⟩
  /-- A call for another solution begins, where the search has come back to the exit. -/
  | redone {τ : Trace} {m : Machine} {t u : Workspace} {mark entry : Nat} {slots : Array Slot}
      (h : Followed host code args s τ (.answer .more) m) (hl : m.workspace.Later t)
      (hp : t.points = m.workspace.points) (htop : t.points.getLast? = some ⟨mark, .exit slots entry⟩)
      (hx : (do Engine.pop; Engine.undoTo mark) t = .ok () u) :
      Followed host code args s ⟨[], τ.memory⟩ .backward ⟨u, code, args, 0, 0, #[], slots, entry⟩
  /-- A step is taken. -/
  | stepped {n : Nat} {τ : Trace} {c c' : Course} {m m' : Machine}
      (h : Followed host code args s τ c m) (hc : ∀ a, c ≠ .answer a)
      (hx : step (Solver.context host n) c m.pass = .ok c' m') :
      Followed host code args s (τ.step c m.pass) c' m'
  /-- What a step is interrupted by is caught by the innermost guard. -/
  | caught {n : Nat} {τ : Trace} {c : Course} {m m' : Machine} {i : Interrupt} {a : Activation}
      {t : Workspace} (h : Followed host code args s τ c m) (hc : ∀ a, c ≠ .answer a)
      (hx : step (Solver.context host n) c m.pass = .error i m')
      (hcaught : settle (Solver.context host n) i m'.activation m'.workspace = .ok a t) :
      Followed host code args s (τ.step c m.pass).caught .forward ⟨t, a⟩

/-- What becomes of a ball where the guards are open: it is brought to the innermost one, with the
workspace as it was when that one was entered, unless a cleanup goal ends the run; or, without one,
thrown on, with the workspace as it was when the activation was called. -/
def Brought (s : Workspace) (x : Exception) (path : List Guard) (m : Machine) (f : EngineM Activation) :
    Prop :=
  match path with
  | [] => Yields f m.workspace (fun _ _ => False) fun e t => ∀ y, e = .thrown y → y = x ∧ s.Same t
  | g :: _ => Yields f m.workspace (fun a t => g.entered.Same t ∧
      a = { m.activation with operands := #[x.ball], next := g.handler.target.toNat } ∧
      t.database.terms.store.resolve x.ball = x.ball.erase) fun e _ => ∀ y, e ≠ .thrown y

/-- The ball was thrown at a step with no guard open, and thrown on in the workspace. -/
def Leaves (host : Host) (code : Code) (args : Array Term) (s : Workspace) (x : Exception)
    (t : Workspace) : Prop :=
  ∃ n τ c m i m', Followed host code args s τ c m ∧ (∀ a, c ≠ .answer a) ∧
    step (Solver.context host n) c m.pass = .error i m' ∧
    (i = .stop (.thrown x) ∨ i = .fault .stackOverflow) ∧ (τ.step c m.pass).path = [] ∧
    settle (Solver.context host n) i m'.activation m'.workspace = .error (.thrown x) t

/-- The code may be called in the workspace, as in the first one, or asked for another solution there,
as a run has left it. -/
inductive Pending (host : Host) (code : Code) (args : Array Term) (s : Workspace) :
    Bool → Workspace → Prop where
  /-- It may be called. -/
  | fresh {ρ : Workspace} (h : s.Same ρ) : Pending host code args s false ρ
  /-- It may be asked for another solution. -/
  | exited {τ : Trace} {m : Machine} {t : Workspace} (h : Followed host code args s τ (.answer .more) m)
      (hl : m.workspace.Later t) (hp : t.points = m.workspace.points) :
      Pending host code args s true t

section Followed

variable {host : Host} {code : Code} {args : Array Term} {s ρ t u : Workspace} {τ : Trace} {c : Course}
  {m m' : Machine} {n : Nat} {x : Exception}

theorem disciplined_host (host : Host) (n : Nat) :
    (Solver.context host n).Disciplined (Solver.context .none n) :=
  Solver.disciplined_context Host.within_none n

/-- Where a run is followed, it goes on as the code is typed. -/
theorem Followed.goes (hfits : (Callee.code code).Fits s.database args)
    (h : Followed host code args s τ c m) : ∃ d, Goes ⟨code, args, s⟩ d τ c m := by
  induction h with
  | called hρ hx =>
    have hgoes := yields_ok (goes_start hρ hfits) hx
    exact ⟨_, hgoes⟩
  | redone _ hl hp htop hx ih =>
    obtain ⟨d, hgoes⟩ := ih
    obtain ⟨slots', mark', hlast, hgoes⟩ := goes_resume hfits ((hgoes.2 rfl).later hl hp)
    rw [htop, Option.some.injEq, ChoicePoint.mk.injEq, ChoiceKind.exit.injEq] at hlast
    obtain ⟨rfl, rfl, rfl⟩ := hlast
    have hgoes := yields_ok hgoes hx
    exact ⟨_, hgoes⟩
  | @stepped n _ _ _ _ _ _ hc hx ih =>
    obtain ⟨d, hgoes⟩ := ih
    have hpass := hgoes.stays hc hgoes.later.ready.stays_pass
    exact ⟨d, yields_ok (agree_step (disciplined_host host n) hpass hc).yields hx⟩
  | @caught n _ _ _ _ _ _ _ _ hc hx hcaught ih =>
    obtain ⟨d, hgoes⟩ := ih
    have hpass := hgoes.stays hc hgoes.later.ready.stays_pass
    have hbreaks := yields_error (agree_step (disciplined_host host n) hpass hc).yields hx
    have hgoes := yields_ok (agree_settle (disciplined_host host n) hbreaks).yields hcaught
    exact ⟨d, hgoes⟩

/-- What a step is interrupted by finds the guards that are open. -/
theorem Followed.breaks (hfits : (Callee.code code).Fits s.database args)
    (h : Followed host code args s τ c m) (hc : ∀ a, c ≠ .answer a) {i : Interrupt}
    (hx : step (Solver.context host n) c m.pass = .error i m') :
    ∃ d, Breaks ⟨code, args, s⟩ d (τ.step c m.pass) i m' := by
  obtain ⟨d, hgoes⟩ := h.goes hfits
  have hpass := hgoes.stays hc hgoes.later.ready.stays_pass
  exact ⟨d, yields_error (agree_step (disciplined_host host n) hpass hc).yields hx⟩

/-- A ball that a step throws is brought to the innermost open guard. -/
theorem Followed.brought (hfits : (Callee.code code).Fits s.database args)
    (h : Followed host code args s τ c m) (hc : ∀ a, c ≠ .answer a)
    (hx : step (Solver.context host n) c m.pass = .error (.stop (.thrown x)) m') :
    Brought s x (τ.step c m.pass).path m'
      (settle (Solver.context host n) (.stop (.thrown x)) m'.activation) := by
  obtain ⟨d, hball, hguarded⟩ := h.breaks hfits hc hx
  have hhandle := (agree_handle (disciplined_host host n) hguarded hball).yields
  unfold Brought
  split
  · rename_i hpath
    refine hhandle.imp (fun a t ha => ?_) fun e t he y hy => ?_
    · obtain ⟨g, path, hcons, -⟩ := ha.2.guard
      exact List.cons_ne_nil _ _ (hcons.symm.trans hpath)
    · exact ⟨(he.2 y hy).1, he.1.2 y hy⟩
  · rename_i g path hpath
    refine hhandle.imp (fun a t ha => ?_) fun e t he y hy => ?_
    · obtain ⟨g', path', hcons, hsame, ha', -⟩ := ha.2.guard
      obtain ⟨rfl, rfl⟩ := List.cons.inj (hpath.symm.trans hcons)
      exact ⟨hsame, ha', ha.2.sealed.resolve_eq⟩
    · exact List.cons_ne_nil _ _ (hpath.symm.trans (he.2 y hy).2.2)

/-! ### Ends of runs -/

/-- A ball that leaves an activation leaves the workspace as it was when the activation was called. -/
theorem Leaves.undone (hfits : (Callee.code code).Fits s.database args)
    (h : Leaves host code args s x t) : s.Same t ∧ x.Sealed t.database.terms := by
  obtain ⟨n, τ, c, m, i, m', hfollowed, hc, hx, -, -, hsettle⟩ := h
  obtain ⟨d, hbreaks⟩ := hfollowed.breaks hfits hc hx
  have hundone := yields_error (agree_settle (disciplined_host host n) hbreaks).yields hsettle
  exact ⟨hundone.1.2 x rfl, hundone.1.1.2.2.2.1⟩

/-- A run ends where it is followed to an answer, or with a ball that leaves the activation. -/
theorem Followed.yields_run (hfits : (Callee.code code).Fits s.database args) (k : Nat) :
    ∀ {τ : Trace} {c : Course} {m : Machine}, Followed host code args s τ c m →
      Yields (run (Solver.context host n) k c m.activation) m.workspace
        (fun a t => ∃ τ' m', Followed host code args s τ' (.answer a) m' ∧ m'.workspace = t)
        fun e t => ∀ x, e = .thrown x → Leaves host code args s x t := by
  induction k with
  | zero =>
    intro τ c m _
    exact yields_throw.mpr fun x hx => by cases hx
  | succ k ih =>
    intro τ c m h
    by_cases hc : ∃ a, c = .answer a
    · obtain ⟨a, rfl⟩ := hc
      exact yields_pure.mpr ⟨τ, m, h, rfl⟩
    have hc (a : Answer) : c ≠ .answer a := fun heq => hc ⟨a, heq⟩
    cases hx : step (Solver.context host n) c m.pass with
    | ok c' m' =>
      rw [Yields, run_of_ok hc hx]
      exact ih (h.stepped hc hx)
    | error i m' =>
      cases hx' : settle (Solver.context host n) i m'.activation m'.workspace with
      | ok a t =>
        rw [Yields, run_of_caught hc hx hx']
        exact ih (h.caught hc hx hx')
      | error e t =>
        rw [Yields, run_of_uncaught hc hx hx']
        rintro x rfl
        obtain ⟨d, hbreaks⟩ := h.breaks hfits hc hx
        have hundone := yields_error (agree_settle (disciplined_host host n) hbreaks).yields hx'
        obtain ⟨hpath, hi⟩ := hundone.2 x rfl
        exact ⟨n, τ, c, m, i, m', h, hc, hx, hi, hpath, hx'⟩

/-- A limit does not allow what is to be done. -/
theorem atLimit_exceed {α : Type} {Q : α → Workspace → Prop} (resource : String) (s : Workspace) :
    Yields (Engine.exceed resource : EngineM α) s Q fun _ t => t.AtLimit := by
  rw [Engine.exceed, yields_bind, Engine.note, yields_modify, Engine.raise, Engine.yields_onDatabase]
  exact ⟨s.chronicle, (Workspace.chronicle_note s _).trans (by rw [Ghost.value_of])⟩

theorem atLimit_pushChoice (kind : ChoiceKind) (s : Workspace) :
    Yields (Engine.pushChoice kind) s (fun _ _ => True) fun _ t => t.AtLimit := by
  rw [Engine.pushChoice, yields_bind]
  refine (show Yields Engine.mark s (fun _ _ => True) fun _ _ => False from trivial).imp
    (fun mark t _ => ?_) fun _ _ h => h.elim
  rw [yields_bind, Engine.yields_now, yields_bind, Engine.yields_onChoices]
  split
  · rw [if_pos rfl]
    trivial
  · rw [if_neg Bool.false_ne_true, yields_bind]
    exact atLimit_exceed _ _

theorem atLimit_checkDepth (s : Workspace) :
    Yields Solver.checkDepth s (fun _ t => t = s) fun _ t => t.AtLimit := by
  have hstack : Yields (if s.engine.config.maxStackBytes < s.engine.depth * Solver.bytesPerCall
      then Engine.exceed "stack" else pure () : EngineM Unit) s (fun _ t => t = s) fun _ t => t.AtLimit :=
    yields_ite.mpr ⟨fun _ => atLimit_exceed _ s, fun _ => rfl⟩
  rw [Solver.checkDepth, yields_bind, yields_get]
  dsimp only
  split
  · exact yields_bind.mpr (atLimit_exceed _ s)
  · exact hstack

/-- A call of the code, or a call for another solution, ends so that it may be asked for more, or with a
ball that leaves the activation, if it is not a limit that ends it. -/
theorem Pending.yields_run (hfits : (Callee.code code).Fits s.database args) {redo : Bool}
    (h : Pending host code args s redo t) :
    Yields (if redo then resume (Solver.context host n) code args
        else start (Solver.context host n) code args) t
      (fun a u => a = .more → Pending host code args s true u)
      fun e u => ∀ x, e = .thrown x → Leaves host code args s x u ∨ u.AtLimit := by
  have hrun {τ : Trace} {c : Course} {m : Machine} (hm : Followed host code args s τ c m) :
      Yields (run (Solver.context host n) (Solver.context host n).fuel c m.activation) m.workspace
        (fun a u => a = .more → Pending host code args s true u)
        fun e u => ∀ x, e = .thrown x → Leaves host code args s x u ∨ u.AtLimit :=
    (hm.yields_run hfits (n := n) (Solver.context host n).fuel).imp
      (fun a u hu hmore => by
        obtain ⟨τ', m', hfollowed, rfl⟩ := hu
        obtain ⟨d, hgoes⟩ := hfollowed.goes hfits
        exact .exited (hmore ▸ hfollowed) hgoes.later.ready.later rfl)
      fun e u he x hx => .inl (he x hx)
  cases h with
  | fresh hρ =>
    rw [if_neg Bool.false_ne_true, start, yields_bind]
    cases hx : Engine.pushChoice (.entry code) t with
    | ok a u =>
      rw [Yields, hx]
      exact yields_bind.mpr (Engine.yields_height.mpr (hrun (.called hρ hx)))
    | error e u =>
      have hlimit := yields_error (atLimit_pushChoice _ t) hx
      rw [Yields, hx]
      exact fun _ _ => .inr hlimit
  | @exited τ m _ hfollowed hl hp =>
    obtain ⟨d, hgoes⟩ := hfollowed.goes hfits
    obtain ⟨slots, mark, hlast, hundo⟩ := goes_resume hfits ((hgoes.2 rfl).later hl hp)
    rw [if_pos rfl, resume, yields_bind, Engine.yields_top?, hlast]
    cases hx : (do Engine.pop; Engine.undoTo mark) t with
    | ok a u =>
      have hu : Yields (do Engine.pop; Engine.undoTo mark) t (fun _ v => v = u) fun _ _ => False := by
        rw [Yields, hx]
      rw [yields_bind] at hu
      refine yields_bind.mpr (hu.imp (fun _ v hv => ?_) fun _ _ h => h.elim)
      refine yields_bind.mpr (hv.imp (fun _ w hw => ?_) fun _ _ h => h.elim)
      rw [hw]
      exact hrun (.redone hfollowed hl hp hlast hx)
    | error e u => exact (yields_error hundo hx).elim

theorem Pending.ready {redo : Bool} (h : Pending host code args s redo t) : t.Ready := by
  cases h with
  | fresh hρ => exact hρ.ready
  | exited _ hl _ => exact hl.ready

theorem Pending.later {redo : Bool} (h : Pending host code args s redo t) (hs : t.Same u) :
    Pending host code args s redo u := by
  cases h with
  | fresh hρ => exact .fresh (hρ.trans hs)
  | exited hfollowed hl hp => exact .exited hfollowed (hl.trans hs.toOwes) (hs.points.trans hp)

/-- So does a call that is counted. -/
theorem Pending.yields_invoke (hfits : (Callee.code code).Fits s.database args) {redo : Bool}
    (h : Pending host code args s redo t) :
    Yields ((Solver.context host n).invoke (.code code) args redo) t
      (fun a u => a = .more → Pending host code args s true u)
      fun e u => ∀ x, e = .thrown x →
        (s.Same u ∧ x.Sealed u.database.terms ∧ ∃ v, Leaves host code args s x v) ∨ u.AtLimit := by
  cases n with
  | zero => exact yields_throw.mpr fun x hx => by cases hx
  | succ n =>
    show Yields (Solver.invoke host (Solver.context host n) (.code code) args redo) t _ _
    unfold Solver.invoke
    rw [yields_bind]
    refine (atLimit_checkDepth t).imp (fun _ u hu => ?_) fun _ _ hlimit _ _ => .inr hlimit
    subst hu
    have hready := h.ready
    have hrun := (h.later (hready.same_atDepth (u.engine.depth + 1))).yields_run hfits (n := n)
    refine (Solver.agree_nested (.of_yields (hrun.imp (fun a v hv hmore => ?_) fun e v he x hx => ?_))).yields
    · have hv := hv hmore
      exact hv.later (hv.ready.same_atDepth _)
    · refine (he x hx).imp (fun hleaves => ?_) id
      obtain ⟨hsame, hsealed⟩ := hleaves.undone hfits
      exact ⟨hsame.trans (hsame.ready.same_atDepth _), hsealed, v, hleaves⟩

end Followed

section Throwing

variable {m m' : Machine}

/-! ### Throwing -/

/-- The newest operand is thrown. -/
theorem yields_raise {ctx : Context} {ball : Term} (hs : m.workspace.Ready)
    (hfits : ball.Fits m.workspace.symbols) (hball : m.activation.operands.back? = some ball) :
    Yields (perform ctx .raise) m (fun _ _ => False) fun i m' =>
      ∃ x, i = .stop (.thrown x) ∧ ball.ThrownAs m.workspace.database.terms x ∧
        m.workspace.Stays m'.workspace := by
  have hpop : Yields pop m (fun t m' => t = ball ∧ m'.workspace = m.workspace) fun _ _ => False := by
    unfold pop Yields
    simp only [hball]
    exact ⟨trivial, trivial⟩
  rw [perform, yields_bind]
  refine hpop.imp (fun t m₁ h => ?_) fun _ _ h => h.elim
  obtain ⟨rfl, hworkspace⟩ := h
  have hthrown (hnonvar : ∀ v, m.workspace.database.terms.store.deref t ≠ .var v) :
      Yields (onWorkspace (Engine.throwTerm t : EngineM Course)) ⟨m.workspace, m₁.activation⟩
        (fun _ _ => False) fun i m' => ∃ x, i = .stop (.thrown x) ∧
          t.ThrownAs m.workspace.database.terms x ∧ m.workspace.Stays m'.workspace := by
    rw [yields_onWorkspace]
    have hraised : Yields (Engine.throwTerm t : EngineM Course) m.workspace (fun _ _ => False)
        m.workspace.Raised := Engine.yields_throwTerm hs hfits hnonvar _
    have hvariant : Yields (Engine.throwTerm t : EngineM Course) m.workspace (fun _ _ => False)
        fun e _ => ∃ x, e = .thrown x ∧
          (m.workspace.database.terms.store.resolve t).Variant x.ball.erase := by
      rw [Engine.throwTerm, yields_bind, Engine.yields_onTerms]
      exact ⟨_, rfl, m.workspace.database.terms.store.variant_copy t⟩
    refine (hraised.and hvariant).imp (fun _ _ h => h.1) fun e t' he => ?_
    obtain ⟨⟨x, rfl, -, hstays⟩, y, hy, hx⟩ := he
    obtain rfl := Stop.thrown.inj hy
    exact ⟨x, rfl, Term.thrownAs_of_nonvar hnonvar hx, hstays⟩
  rw [yields_bind, yields_onWorkspace, Engine.yields_deref, hworkspace]
  cases hd : m.workspace.database.terms.store.deref t with
  | var v =>
    rw [yields_onWorkspace]
    have hraised : Yields (Engine.raise .instantiation : EngineM Course) m.workspace (fun _ _ => False)
        m.workspace.Raised := Engine.yields_raise hs (e := .instantiation) trivial _
    have hvalue : Yields (Engine.raise .instantiation : EngineM Course) m.workspace (fun _ _ => False)
        fun e _ => e = .thrown (Exception.ofError .instantiation m.workspace.database.terms).1 := by
      rw [Engine.raise, Engine.yields_onDatabase]
      rfl
    refine (hraised.and hvalue).imp (fun _ _ h => h.1) fun e t' he => ?_
    obtain ⟨⟨x, rfl, -, hstays⟩, hx⟩ := he
    exact ⟨x, rfl, by rw [Term.ThrownAs, hd]; exact Stop.thrown.inj hx, hstays⟩
  | const c => exact hthrown (by simp [hd])
  | compound stamp tag args => exact hthrown (by simp [hd])

end Throwing

end Activation

namespace Engine

/-- What executing a goal with the code leads to: it may be executed again if there may be more
solutions; and it ends with an exception only if a ball has left the activation, or a limit did not
allow what was to be done. The exception carries a variant of the ball, and the workspace is as it was
when the goal was first executed. -/
structure Concludes (host : Host) (code : Code) (args : Array Term) (s : Workspace) (o : GoalOutcome)
    (t : Workspace) : Prop where
  /-- There may be more solutions. -/
  pending : o = .more → Activation.Pending host code args s true t
  /-- An exception has been thrown. -/
  raised : ∀ y, o = .raised y → (s.Same t ∧ ∃ x u, Activation.Leaves host code args s x u ∧
    x.ball.erase.Variant y.ball.erase) ∨ t.AtLimit

variable {host : Host} {code : Code} {args : Array Term} {s t : Workspace} {g : PreparedGoal}

/-- A ball that has left the activation is caught with a copy of it. -/
theorem yields_ofStop_leaves {e : Stop} (he : ∀ x, e = .thrown x →
    (s.Same t ∧ x.Sealed t.database.terms ∧ ∃ u, Activation.Leaves host code args s x u) ∨ t.AtLimit) :
    Yields (GoalOutcome.ofStop e) t (Concludes host code args s) fun e _ => e = .spent := by
  cases e with
  | thrown x =>
    rw [GoalOutcome.ofStop, yields_bind, yields_onTerms]
    refine ⟨(fun h => by cases h), fun y hy => ?_⟩
    obtain rfl := GoalOutcome.raised.inj hy
    obtain ⟨hsame, hsealed, u, hleaves⟩ | ⟨l, hl⟩ := he x rfl
    · have hterms := (yields_ok (yields_onTerms_of_extending (s := t) hsame.ready
        (Exception.extending_ofTerm x.ball)) rfl).1
      exact .inl ⟨hsame.trans hterms.same, x, u, hleaves, hsealed.variant_ofTerm⟩
    · exact .inr ⟨l, hl⟩
  | halted k => exact ⟨(fun h => by cases h), fun y hy => by cases hy⟩
  | spent => exact rfl

/-- A goal that is executed, for the first time or again, ends with an exception only if a ball has left
the activation of its code. -/
theorem yields_execute_leaves (hfits : (Callee.code code).Fits s.database args) (hcode : g.code = code)
    (hargs : g.args = args) (hdone : g.isDone = false) (hactive : t.engine.active = some g.id)
    (h : Activation.Pending host code args s g.started t) (n : Nat) :
    Yields (execute (Solver.context host n) g) t (fun r u => Concludes host code args s r.1 u)
      fun e _ => e = .spent := by
  subst hcode hargs
  rw [execute, hdone, if_neg Bool.false_ne_true, yields_bind, yields_get]
  simp only [hactive, ne_eq, not_true_eq_false, if_false]
  rw [yields_bind]
  refine Yields.imp (Q := Concludes host g.code g.args s) (E := fun e _ => e = .spent) ?_
    (fun _ _ h => yields_pure.mpr h) fun _ _ h => h
  refine yields_tryCatch.mpr (yields_map.mpr ((h.yields_invoke hfits).imp (fun a u hu => ?_)
    fun e u he => yields_ofStop_leaves he))
  refine ⟨fun hmore => hu ?_, fun y hy => ?_⟩
  · cases a with
    | more => rfl
    | last => cases hmore
    | fail => cases hmore
  · cases a <;> cases hy

end Engine

end Resolvent
