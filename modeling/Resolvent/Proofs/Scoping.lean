import Resolvent.Proofs.Catching

/-!
# The scope of `catch/3`

Balls thrown in compiled code are brought from handler to handler (`Activation.compiled_scopes`). A ball
is a variant of what is thrown, and is brought to the innermost `catch/3` goal that is open where it is
thrown, on the way that the search has taken there; nothing but the ball is left of what has been done
since that goal was entered. Where the catcher does not unify with it, the ball is thrown again, and the
next goal around has it. A ball that no goal has caught leaves the activation, to interrupt an instruction
of the caller in the same way, or to be what the execution of the goal ends with.
-/

namespace Resolvent

/-- The handlers of compiled code are those of the `catch/3` goals in its clauses, and the catchers fit. -/
theorem Code.Compiled.catches {d : Database} {tag : Tag} {code : Code} (h : code.Compiled d tag) :
    ∃ slots, ∀ j, j < code.chunk.handlers.size →
      code.chunk.Catches slots (Tree.Fits d.terms.symbols) j := by
  obtain ⟨u, u', n, cs, hu, -, hcs, hchunk, hext⟩ := h.chunk
  obtain ⟨rules, s, hrules, hholds, -, -, hext'⟩ := Chunk.holds_of_ofClauses hchunk
  obtain ⟨-, hfits⟩ := yields_ok (Rule.fits_mapM hu hcs u.symbols (.refl _)) hrules
  exact ⟨_, hholds.catches _ fun r hr => Body.each_imp (fun t ht => (ht.mono (hext'.trans hext)).fits)
    (hfits r hr).body⟩

namespace Activation

section Scopes

variable {host : Host} {code : Code} {args : Array Term} {s t : Workspace} {τ : Trace} {c : Course}
  {m m' : Machine} {n : Nat} {x : Exception} {P : Trace → Course → Machine → Prop} {g : Guard}
  {path : List Guard} {a : Activation}

/-- Where steps lead from a run that is followed, it is followed there. -/
theorem GetsTo.followed (h : GetsTo (Solver.context host n) P τ c m) (hm : Followed host code args s τ c m) :
    GetsTo (Solver.context host n) (fun τ c m => Followed host code args s τ c m ∧ P τ c m) τ c m := by
  induction h with
  | here h => exact .here ⟨hm, h⟩
  | step hc hx _ ih => exact .step hc hx (ih (hm.stepped hc hx))
  | limited hc hx h => exact .limited hc hx h

/-- `throw/1` throws a variant of its argument. -/
theorem Followed.throws (hfits : (Callee.code code).Fits s.database args)
    (h : Followed host code args s τ .forward m) {next : Nat}
    (hraise : code.chunk.fetch m.activation.next = .ok (.raise, next)) :
    Yields (step (Solver.context host n) .forward) m.pass (fun _ _ => False) fun i _ =>
      ∃ ball x, m.activation.operands.back? = some ball ∧ i = .stop (.thrown x) ∧
        ball.ThrownAs m.pass.workspace.database.terms x := by
  obtain ⟨d, hgoes⟩ := h.goes hfits
  obtain ⟨_, _, _, _, hlive, -⟩ := hgoes.stays (by simp) hgoes.later.ready.stays_pass
  have hcode : m.activation.code = code := hlive.code
  rw [← hcode] at hraise
  let a : Activation := { m.activation with current := m.activation.next, next := next }
  cases hback : m.activation.operands.back? with
  | some ball =>
    refine (yields_advance (m := m.pass) hraise).mpr ?_
    refine (yields_raise (m := ⟨m.pass.workspace, a⟩) hlive.ready
      (hlive.operands _ (Array.mem_of_back? hback)) hback).imp (fun _ _ h => h) fun i m' hi => ?_
    obtain ⟨x, hx, hball, -⟩ := hi
    exact ⟨ball, x, rfl, hx, hball⟩
  | none =>
    -- there is an operand, since the run goes on without a fault
    have hfault : Yields (step (Solver.context host n) .forward) m.pass (fun _ _ => False)
        fun i _ => i = .fault .stackUnderflow := by
      refine (yields_advance (m := m.pass) hraise).mpr ?_
      rw [perform, yields_bind]
      unfold pop Yields
      simp only [Machine.pass, hback]
    cases hx : step (Solver.context host n) .forward m.pass with
    | ok c' m' => exact (yields_ok hfault hx).elim
    | error i m' =>
      obtain rfl := yields_error hfault hx
      obtain ⟨_, hbreaks⟩ := h.breaks hfits (by simp) hx
      cases hbreaks.1

/-- The guards that are open where a ball is thrown are those of `catch/3` goals with the instruction in
their code, the innermost one first. -/
theorem Followed.surrounds (hfits : (Callee.code code).Fits s.database args)
    (h : Followed host code args s τ c m) (hc : ∀ a, c ≠ .answer a)
    (hx : step (Solver.context host n) c m.pass = .error (.stop (.thrown x)) m') :
    ((τ.step c m.pass).path.map Guard.handler).head? = code.chunk.handlerFor? m'.activation.current ∧
      ∀ g ∈ (τ.step c m.pass).path, g.handler.covers m'.activation.current := by
  obtain ⟨d, -, hguarded⟩ := h.breaks hfits hc hx
  refine ⟨?_, hguarded.covers⟩
  have hframe := hguarded.frame
  split at hframe
  · rename_i hnone
    rw [hframe, hnone]
    rfl
  · rename_i k hk
    obtain ⟨Γ, bs, t, hm, -, -, -, hhead⟩ := hframe
    rw [hk, hm.marks.handlers]
    exact hhead

/-- A ball that is thrown where no guard is open ends the run. -/
theorem Followed.ends (hfits : (Callee.code code).Fits s.database args)
    (h : Followed host code args s τ c m) (hc : ∀ a, c ≠ .answer a)
    (hx : step (Solver.context host n) c m.pass = .error (.stop (.thrown x)) m')
    (hpath : (τ.step c m.pass).path = []) (k : Nat) :
    Yields (run (Solver.context host n) (k + 1) c m.activation) m.workspace (fun _ _ => False)
      fun e t => ∀ y, e = .thrown y → y = x ∧ s.Same t := by
  have hbrought := h.brought hfits hc hx
  rw [hpath] at hbrought
  have hbrought : Yields (settle (Solver.context host n) (.stop (.thrown x)) m'.activation) m'.workspace
      (fun _ _ => False) fun e t => ∀ y, e = .thrown y → y = x ∧ s.Same t := hbrought
  cases hx' : settle (Solver.context host n) (.stop (.thrown x)) m'.activation m'.workspace with
  | ok a t => exact (yields_ok hbrought hx').elim
  | error e t =>
    have hended := yields_error hbrought hx'
    rw [Yields, run_of_uncaught hc hx hx']
    exact hended

/-- A ball that is thrown where guards are open is tried on the catcher of the innermost one. -/
theorem Followed.tried (hfits : (Callee.code code).Fits s.database args) {slots : Program.Slots}
    (hcatches : ∀ j, j < code.chunk.handlers.size → code.chunk.Catches slots (Tree.Fits s.symbols) j)
    (h : Followed host code args s τ c m) (hc : ∀ a, c ≠ .answer a)
    (hx : step (Solver.context host n) c m.pass = .error (.stop (.thrown x)) m')
    (hpath : (τ.step c m.pass).path = g :: path)
    (hcaught : settle (Solver.context host n) (.stop (.thrown x)) m'.activation m'.workspace = .ok a t) :
    ∃ hd goal catcher recovery pc k pc' k' q l q',
      code.chunk.Guards slots hd g.handler goal catcher recovery pc k pc' k' ∧
      Body.Stands code.chunk slots hd g.handler.slot recovery q l q' k' ∧
      GetsTo (Solver.context host n) (fun τ c m => Followed host code args s τ c m ∧
        Tried (Solver.context host n) slots a.slots catcher x.ball t path q τ c m)
        (τ.step c m.pass).caught .forward ⟨t, a⟩ := by
  have hctx := disciplined_host host n
  obtain ⟨d, hsealed, hguarded⟩ := h.breaks hfits hc hx
  obtain ⟨-, hhandled⟩ := yields_ok (agree_handle hctx hguarded hsealed).yields hcaught
  obtain ⟨g', path', hpath', -, ha, hgoes⟩ := hhandled.guard
  obtain ⟨rfl, rfl⟩ := List.cons.inj (hpath'.symm.trans hpath)
  obtain ⟨hd, goal, catcher, recovery, pc, k, pc', k', hcatcher, hguards, hbehind, hcovers⟩ :=
    hguarded.guards hcatches hpath
  have hstage : Stage t t.points a.slots [x.ball] g'.handler.target.toNat ⟨t, a⟩ :=
    ⟨hgoes.later.ready.later, .refl hgoes.later.ready.recording, rfl, rfl, by rw [ha], by rw [ha]⟩
  obtain ⟨q, l, q', hrecovery, hgets⟩ := Poised.tries hctx hguards hbehind hcatcher hcovers
    hhandled.sealed ⟨hgoes, rfl, fun hlt => absurd hlt (Nat.lt_irrefl _), hstage⟩
  have htrace : (τ.step c m.pass).caught = ⟨path', (τ.step c m.pass).memory⟩ := by
    rw [Trace.caught, hpath]
    rfl
  exact ⟨hd, goal, catcher, recovery, pc, k, pc', k', q, l, q', hguards, hrecovery,
    GetsTo.followed (htrace ▸ hgets) (h.caught hc hx hcaught)⟩

end Scopes

end Activation

namespace Engine

/-- A ball that leaves the code of a goal is what the execution of the goal ends with. -/
theorem yields_execute_thrown {host : Host} {code : Code} {args : Array Term} {s t u : Workspace}
    {g : PreparedGoal} {x : Exception} {n : Nat} (hfits : (Callee.code code).Fits s.database args)
    (hcode : g.code = code) (hargs : g.args = args) (hdone : g.isDone = false)
    (hactive : t.engine.active = some g.id) (h : Activation.Pending host code args s g.started t)
    (hx : (Solver.context host n).invoke (.code code) args g.started t = .error (.thrown x) u) :
    Yields (execute (Solver.context host n) g) t (fun r w => ∃ y, r.1 = .raised y ∧
      (s.Same w ∧ x.ball.erase.Variant y.ball.erase ∨ w.AtLimit)) fun _ _ => False := by
  subst hcode hargs
  have hthrown := yields_error (h.yields_invoke hfits) hx x rfl
  rw [execute, hdone, if_neg Bool.false_ne_true, yields_bind, yields_get]
  simp only [hactive, ne_eq, not_true_eq_false, if_false]
  rw [yields_bind]
  refine Yields.imp (Q := fun o w => ∃ y, o = .raised y ∧
    (s.Same w ∧ x.ball.erase.Variant y.ball.erase ∨ w.AtLimit)) (E := fun _ _ => False) ?_
    (fun _ _ h => yields_pure.mpr h) fun _ _ h => h
  refine yields_tryCatch.mpr (yields_map.mpr ?_)
  rw [Yields, hx]
  show Yields (GoalOutcome.ofStop (.thrown x)) u _ _
  rw [GoalOutcome.ofStop, yields_bind, yields_onTerms]
  refine ⟨_, rfl, hthrown.imp (fun hthrown => ?_) fun hlimit => hlimit⟩
  obtain ⟨hsame, hsealed, -⟩ := hthrown
  have hterms := (yields_ok (yields_onTerms_of_extending (s := u) hsame.ready
    (Exception.extending_ofTerm x.ball)) rfl).1
  exact ⟨hsame.trans hterms.same, hsealed.variant_ofTerm⟩

end Engine

namespace Activation

/-- What becomes of a ball that a step has thrown, where the guards of a trace are open. -/
structure Lands (host : Host) (code : Code) (args : Array Term) (s : Workspace) (n : Nat) (x : Exception)
    (τ : Trace) (c : Course) (m m' : Machine) : Prop where
  /-- The innermost guard is that of the innermost handler around the instruction. -/
  innermost : (τ.path.map Guard.handler).head? = code.chunk.handlerFor? m'.activation.current
  /-- The instruction is in the code that the guards are for. -/
  covers : ∀ g ∈ τ.path, g.handler.covers m'.activation.current
  /-- The ball is brought to the innermost guard, or thrown on. -/
  brought : Brought s x τ.path m' (settle (Solver.context host n) (.stop (.thrown x)) m'.activation)
  /-- A guard tries it on its catcher. -/
  tried : ∀ {g : Guard} {path : List Guard} {a : Activation} {t : Workspace}, τ.path = g :: path →
    settle (Solver.context host n) (.stop (.thrown x)) m'.activation m'.workspace = .ok a t →
      ∃ slots hd goal catcher recovery pc k pc' k' q l q',
        code.chunk.Guards slots hd g.handler goal catcher recovery pc k pc' k' ∧
        Body.Stands code.chunk slots hd g.handler.slot recovery q l q' k' ∧
        GetsTo (Solver.context host n) (fun τ c m => Followed host code args s τ c m ∧
          Tried (Solver.context host n) slots a.slots catcher x.ball t path q τ c m) τ.caught .forward ⟨t, a⟩
  /-- Without a guard, it ends the run. -/
  ends : τ.path = [] → ∀ k, Yields (run (Solver.context host n) (k + 1) c m.activation) m.workspace
    (fun _ _ => False) fun e t => ∀ y, e = .thrown y → y = x ∧ s.Same t

/-- Balls that are thrown in a call of the code, or in a call for another solution, keep to the scopes of
the `catch/3` goals. -/
structure Scopes (host : Host) (code : Code) (args : Array Term) (s : Workspace) : Prop where
  /-- The code may be called. -/
  pending : Pending host code args s false s
  /-- `throw/1` throws a variant of what its argument is then. -/
  throws : ∀ {n τ m next}, Followed host code args s τ .forward m →
    code.chunk.fetch m.activation.next = .ok (.raise, next) →
      Yields (step (Solver.context host n) .forward) m.pass (fun _ _ => False) fun i _ =>
        ∃ ball x, m.activation.operands.back? = some ball ∧ i = .stop (.thrown x) ∧
          ball.ThrownAs m.pass.workspace.database.terms x
  /-- What a step throws, be it of its own or a ball that a callee has thrown on, is brought from guard to
  guard. -/
  lands : ∀ {n τ c m m' x}, Followed host code args s τ c m → (∀ a, c ≠ .answer a) →
    step (Solver.context host n) c m.pass = .error (.stop (.thrown x)) m' →
      Lands host code args s n x (τ.step c m.pass) c m m'
  /-- A call throws nothing but balls that have left the code, and is undone then. -/
  leaves : ∀ {n redo t}, Pending host code args s redo t →
    Yields ((Solver.context host n).invoke (.code code) args redo) t
      (fun a u => a = .more → Pending host code args s true u) fun e u => ∀ x, e = .thrown x →
        (s.Same u ∧ x.Sealed u.database.terms ∧ ∃ v, Leaves host code args s x v) ∨ u.AtLimit
  /-- The execution of a goal with the code ends with an exception only where a ball has left the code. -/
  raised : ∀ {n g t}, g.code = code → g.args = args → g.isDone = false → t.engine.active = some g.id →
    Pending host code args s g.started t →
      Yields (Engine.execute (Solver.context host n) g) t
        (fun r u => Engine.Concludes host code args s r.1 u) fun e _ => e = .spent
  /-- Where one has, that is what it ends with. -/
  raises : ∀ {n g t u x}, g.code = code → g.args = args → g.isDone = false →
    t.engine.active = some g.id → Pending host code args s g.started t →
      (Solver.context host n).invoke (.code code) args g.started t = .error (.thrown x) u →
        Yields (Engine.execute (Solver.context host n) g) t (fun r w => ∃ y, r.1 = .raised y ∧
          (s.Same w ∧ x.ball.erase.Variant y.ball.erase ∨ w.AtLimit)) fun _ _ => False

/-- The clause `true :- catch(throw(true), true, true)`. -/
def catchingClause : Clause :=
  ⟨.atom .trueGoal, .compound 0 .catchGoal
    [.compound 0 .throwGoal [.atom .trueGoal], .atom .trueGoal, .atom .trueGoal]⟩

theorem fits_catchingClause {u : Universe} (htrue : u.symbols.HasArity ⟨8⟩ 0)
    (hthrow : u.symbols.HasArity .throwGoal 1) (hcatch : u.symbols.HasArity .catchGoal 3) :
    ∀ c ∈ [catchingClause], c.Heads u ⟨8⟩ ∧ c.head.Fits u.symbols ∧ c.body.Fits u.symbols := by
  have hatom : (Term.atom .trueGoal).Fits u.symbols := .const _
  refine List.forall_mem_singleton.mpr ⟨?_, hatom, .compound hcatch ?_⟩
  · rw [Clause.Heads, catchingClause, u.store.deref_of_nonvar (by simp)]
    exact htrue
  · refine List.forall_mem_cons.mpr ⟨.compound hthrow (List.forall_mem_singleton.mpr hatom), ?_⟩
    exact List.forall_mem_cons.mpr ⟨hatom, List.forall_mem_singleton.mpr hatom⟩

/-- Balls thrown in compiled code keep to the scopes of the `catch/3` goals: each is brought to the
innermost one that is open on the way that the search has taken, whether the code is called or asked for
another solution after it has been left, with nothing but the ball left of what has been done since that
goal was entered. Where its catcher does not unify with the ball, the next one is tried; and where there
is none, the execution of the goal ends with the ball, and nothing is left of what it has done. -/
theorem compiled_scopes {host : Host} {code : Code} {args : Array Term} {s : Workspace} {tag : Tag}
    (hs : s.Ready) (hcode : code.Compiled s.database tag) (hargs : ∀ t ∈ args, t.Fits s.symbols)
    (hsize : args.size = s.symbols.arity tag) : Scopes host code args s := by
  have hfits := hcode.fits hargs hsize
  obtain ⟨slots, hcatches⟩ := hcode.catches
  refine ⟨.fresh hs.same, fun h hraise => h.throws hfits hraise, fun h hc hx => ?_,
    fun h => h.yields_invoke hfits,
    fun hg hgargs hdone hactive h => Engine.yields_execute_leaves hfits hg hgargs hdone hactive h _,
    fun hg hgargs hdone hactive h hx => Engine.yields_execute_thrown hfits hg hgargs hdone hactive h hx⟩
  obtain ⟨hinnermost, hcovers⟩ := h.surrounds hfits hc hx
  exact ⟨hinnermost, hcovers, h.brought hfits hc hx, fun hpath hcaught =>
    ⟨slots, h.tried hfits hcatches hc hx hpath hcaught⟩, h.ends hfits hc hx⟩

theorem compiled_scopes_sample : ∃ (code : Code) (s : Workspace), s.Ready ∧
    code.Compiled s.database ⟨8⟩ ∧ code.chunk.handlers.size = 1 ∧ Scopes .none code #[] s := by
  have hmade : (answer? (Chunk.ofClauses ⟨8⟩ [catchingClause]) .initial).map
      (fun made => made.1.handlers.size) = some 1 := by decide +kernel
  obtain ⟨⟨chunk, u⟩, hmade, hsize⟩ := Option.map_eq_some_iff.mp hmade
  have hthrow : Universe.initial.symbols.HasArity .throwGoal 1 := hasArity_of_pairs (by decide +kernel)
  have hcatch : Universe.initial.symbols.HasArity .catchGoal 3 := hasArity_of_pairs (by decide +kernel)
  obtain ⟨code, s, rfl, hs, hcode, hargs⟩ := exists_compiled hmade fun v htrue hv =>
    fits_catchingClause htrue (hv ▸ hthrow) (hv ▸ hcatch)
  exact ⟨code, s, hs, hcode, hsize, compiled_scopes hs hcode (by simp) hargs⟩

/-- The inner catcher does not unify with the ball, and the outer one does; by then the variable is unbound
again. -/
example : (answer? (do
    let x := Term.var (← Engine.onTerms Universe.fresh)
    let goal := Term.compound 0 .conj
      [.compound 1 .equation [x, .atom .trueGoal], .compound 2 .throwGoal [x]]
    let inner := Term.compound 3 .catchGoal [goal, .atom .nil, .atom .failGoal]
    let outer := Term.compound 4 .catchGoal
      [inner, .atom .trueGoal, .compound 5 .equation [x, .atom .nil]]
    Engine.execute (Solver.context .none 60) (← Engine.prepare outer))
    .initial).any (fun r => r.1.1 matches .last) = true := by
  decide +kernel

end Activation

end Resolvent
