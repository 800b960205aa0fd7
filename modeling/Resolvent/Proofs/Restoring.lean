import Resolvent.Proofs.Confining

/-!
# What a search leaves behind

A host prepares a goal, executes it any number of times and stops it. If another goal was active, or
if there was nothing on the trail and on the choice stack, this leaves the engine as it was
(`Engine.search_restores`): the choice points, the trail, the goal, the searches set aside, the depth
and all bindings. Steps that are refused change nothing of it either.

An engine without a goal is a different matter if a host has taken marks, bound variables or put
choice points on the stack before. Stopping the goal undoes all of this too
(`Engine.stop_idle_undoes_all`).
-/

namespace Resolvent

/-- A new engine over a new database. -/
def Workspace.initial : Workspace :=
  ⟨.initial, .ofConfig .standard⟩

/-- A host without predicates. -/
def Host.none : Host :=
  fun _ _ _ _ => throw .spent

theorem Host.within_none : Host.none.Within :=
  fun _ _ _ _ _ => .throw _

theorem Store.ordered_of_size_eq_zero {σ : Store} (h : σ.size = 0) : σ.Ordered := by
  intro v w hv
  rw [value?_of_size_le (h ▸ Nat.zero_le _)] at hv
  cases hv

theorem Database.ordered_initial : Database.initial.terms.store.Ordered :=
  Store.ordered_of_size_eq_zero (by decide +kernel)

/-- A new engine over a database in which a variable has been made. -/
def Workspace.varied (d : Database) : Workspace :=
  ⟨{ d with terms := ⟨d.terms.symbols, d.terms.store.fresh.2⟩ }, .ofConfig .standard⟩

theorem Workspace.ordered_varied {d : Database} (h : d.terms.store.Ordered) :
    (varied d).database.terms.store.Ordered :=
  (Store.Extends.fresh _).ordered h

theorem GoalOutcome.eq_more_of_isOpen {o : GoalOutcome} (h : o.isOpen) : o = .more := by
  cases o with
  | more => rfl
  | _ => cases h

namespace Engine

open Workspace (Encloses)

/-- Executing a goal any number of times, with whatever fuel and outcomes. -/
inductive Executions (host : Host) (g : PreparedGoal) (s : Workspace) :
    PreparedGoal → Workspace → Prop where
  /-- Not at all. -/
  | none : Executions host g s g s
  /-- Once more. -/
  | more {g' g'' : PreparedGoal} {s' s'' : Workspace} {n : Nat} {o : GoalOutcome}
      (h : Executions host g s g' s')
      (hx : execute (Solver.context host n) g' s' = .ok (o, g'') s'') : Executions host g s g'' s''

variable {host : Host} {g g' : PreparedGoal} {s p t u : Workspace} {goal : Term}

/-- Executing a goal stays within its search. -/
theorem Executions.encloses (hhost : host.Within) (h : Executions host g p g' t) :
    p.Encloses t ∧ g'.id = g.id ∧ g'.isNested = g.isNested := by
  induction h with
  | none => exact ⟨.refl p, rfl, rfl⟩
  | @more g' g'' s' s'' n o _ hx ih =>
    obtain ⟨hs, hid, hnested⟩ := ih
    obtain ⟨hs', hid', hnested'⟩ :=
      yields_ok (yields_execute (Solver.within_context hhost n) g' s') hx
    exact ⟨hs.trans hs', hid'.trans hid, hnested'.trans hnested⟩

/-- A goal that has been executed is still the one that was prepared. -/
theorem Begun.executions (hhost : host.Within) (hb : Begun s g p) (h : Executions host g p g' t) :
    Begun s g' p ∧ p.Encloses t := by
  obtain ⟨hactive, hbase⟩ := hb
  obtain ⟨ht, hid, hnested⟩ := h.encloses hhost
  exact ⟨⟨hid ▸ hactive, hnested ▸ hbase⟩, ht⟩

/-- While a goal is executed other goals can be prepared. -/
theorem Executions.ordered (hhost : host.Within) (hs : s.database.terms.store.Ordered)
    (hempty : s.engine.active.isSome ∨ s.engine.trail.entries = #[]) (hp : prepare goal s = .ok g p)
    (h : Executions host g p g' t) : t.engine.active.isSome ∧ t.database.terms.store.Ordered := by
  obtain ⟨hb, ht⟩ := (yields_ok (begun_prepare s goal) hp).1.executions hhost h
  have hbegun : p.moment.mark = 0 ∧ p.moment.Recording := by
    obtain ⟨d, hd, ⟨-, -, rfl⟩ | ⟨-, hnone, rfl⟩⟩ := hb.base
    · exact ⟨rfl, rfl, hd.store.ordered hs⟩
    · exact ⟨congrArg Array.size (hempty.resolve_left (by simp [hnone])), rfl, hd.store.ordered hs⟩
  exact ⟨by rw [ht.active, hb.active]; rfl, (ht.before _ hbegun.1 (.refl hbegun.2)).recording.ordered⟩

/-- A goal that is not the active one is not executed. -/
theorem yields_execute_inactive (ctx : Context) (hdone : g.isDone = false)
    (hactive : s.engine.active ≠ some g.id) : Yields (execute ctx g) s
      (fun r u => (∃ e, r = (.raised e, g)) ∧ u.engine = s.engine ∧
        s.database.terms.Extends u.database.terms) fun _ _ => False := by
  rw [execute, if_neg (by simp [hdone]), yields_bind, yields_get, if_pos hactive, yields_bind,
    yields_onTerms, yields_pure]
  exact ⟨⟨_, rfl⟩, rfl, Exception.extending_ofError (.system "goal_not_active") s.database.terms⟩

/-- A goal that is not the active one is not stopped. -/
theorem stop_inactive (ctx : Context) (hactive : s.engine.active ≠ some g.id) :
    stop ctx g s = .ok () s := by
  show (if s.engine.active ≠ some g.id then (pure () : EngineM Unit) else _) s = _
  rw [if_pos hactive]
  rfl

/-- A goal that is prepared, executed any number of times and stopped leaves the search before as it
was, and what is refused changes nothing of it. -/
theorem search_restores (hhost : host.Within) (hs : s.database.terms.store.Ordered) :
    ((s.engine.active.isSome ∨ s.engine.active = none ∧ s.engine.trail.entries = #[] ∧
        s.engine.choices.points = #[]) →
      ∀ goal g p g' t n, prepare goal s = .ok g p → Executions host g p g' t →
        Yields (stop (Solver.context host n) g') t (fun _ u => s.Restored u)
          fun e _ => e = .spent) ∧
    (∀ goal e u, prepare goal s = .error e u →
      u.engine = s.engine ∧ s.database.terms.store.Extends u.database.terms.store) ∧
    (∀ (g : PreparedGoal) n, g.isDone = false → s.engine.active ≠ some g.id →
      ∃ e u, execute (Solver.context host n) g s = .ok (.raised e, g) u ∧ u.engine = s.engine ∧
        s.database.terms.store.Extends u.database.terms.store) ∧
    ∀ (g : PreparedGoal) n, s.engine.active ≠ some g.id →
      stop (Solver.context host n) g s = .ok () s := by
  refine ⟨fun hbase goal g p g' t n hp hx => ?_, fun goal e u hp => ?_, fun g n hdone hactive => ?_,
    fun g n hactive => stop_inactive _ hactive⟩
  · obtain ⟨hb, ht⟩ := (yields_ok (begun_prepare s goal) hp).1.executions hhost hx
    have hempty : s.engine.active.isSome ∨ s.moment.mark = 0 ∧ s.engine.choices.points = #[] :=
      hbase.imp_right fun ⟨_, hentries, hpoints⟩ => ⟨congrArg Array.size hentries, hpoints⟩
    exact (begun_stop (Solver.within_context hhost n) hb ht).imp (fun _ u hu => hu.2 hs hempty)
      fun _ _ he => he
  · obtain ⟨-, hengine, hcontains⟩ := yields_error (begun_prepare s goal) hp
    exact ⟨hengine, hcontains.store⟩
  · have hraised := yields_execute_inactive (Solver.context host n) hdone hactive
    unfold Yields at hraised
    split at hraised
    · rename_i r u heq
      obtain ⟨⟨e, rfl⟩, hengine, hextends⟩ := hraised
      exact ⟨e, u, heq, hengine, hextends.store⟩
    · exact hraised.elim

/-- A goal is prepared and executed once. -/
def firstAnswer (ctx : Context) (goal : Term) : EngineM (GoalOutcome × PreparedGoal) := do
  execute ctx (← prepare goal)

theorem firstAnswer_eq_ok {ctx : Context} {r : GoalOutcome × PreparedGoal}
    (h : firstAnswer ctx goal s = .ok r t) :
    ∃ g p, prepare goal s = .ok g p ∧ execute ctx g p = .ok r t := by
  simp only [firstAnswer, Bind.bind, EStateM.bind] at h
  split at h
  · rename_i g p hp
    exact ⟨g, p, hp, h⟩
  · cases h

/-- The goal `call_cleanup((true ; true), true)`. -/
def heldGoal : Term :=
  .compound 0 ⟨24⟩ [.compound 1 .disj [.atom .trueGoal, .atom .trueGoal], .atom .trueGoal]

/-- The goal `between(8, 9, X)`. -/
def rangeGoal : Term :=
  .compound 2 ⟨22⟩ [.int 8, .int 9, .var ⟨0⟩]

/-- After a first answer other goals can be prepared. -/
theorem ordered_heldGoal {n : Nat} {o : GoalOutcome}
    (h : firstAnswer (Solver.context .none n) heldGoal (.varied .initial) = .ok (o, g) s) :
    s.engine.active.isSome ∧ s.database.terms.store.Ordered := by
  obtain ⟨g₀, p, hp, hx⟩ := firstAnswer_eq_ok h
  exact Executions.ordered Host.within_none (Workspace.ordered_varied Database.ordered_initial)
    (.inr rfl) hp (.more .none hx)

/-- While there are choice points of one goal, another one binds a variable, with more solutions to come,
and is stopped. -/
theorem search_restores_nested :
    let ctx := Solver.context .none 20
    ∃ g s r q r' t u, firstAnswer ctx heldGoal (.varied .initial) = .ok (.more, g) s ∧
      s.engine.choices.points ≠ #[] ∧ prepare rangeGoal s = .ok r q ∧
      execute ctx r q = .ok (.more, r') t ∧ (t.database.terms.store.value? ⟨0⟩).isSome ∧
      stop ctx r' t = .ok () u ∧ s.Restored u ∧ u.database.terms.store.value? ⟨0⟩ = none := by
  intro ctx
  have hrun : (((answer? (firstAnswer ctx heldGoal) (.varied .initial)).filter fun x =>
        x.1.1.isOpen && !x.2.engine.choices.points.isEmpty &&
          (x.2.database.terms.store.value? ⟨0⟩).isNone).bind fun x =>
      (answer? (prepare rangeGoal) x.2).bind fun y =>
      ((answer? (execute ctx y.1) y.2).filter fun z =>
        z.1.1.isOpen && (z.2.database.terms.store.value? ⟨0⟩).isSome).bind fun z =>
      answer? (stop ctx z.1.2) z.2).isSome := by
    decide +kernel
  obtain ⟨⟨⟨⟩, u⟩, hrun⟩ := Option.isSome_iff_exists.mp hrun
  obtain ⟨⟨⟨o, g⟩, s⟩, hx, hrun⟩ := Option.bind_eq_some_iff.mp hrun
  obtain ⟨⟨r, q⟩, hq, hrun⟩ := Option.bind_eq_some_iff.mp hrun
  obtain ⟨⟨⟨o', r'⟩, t⟩, hy, hu⟩ := Option.bind_eq_some_iff.mp hrun
  obtain ⟨hx, hs⟩ := Option.filter_eq_some_iff.mp hx
  obtain ⟨hy, ht⟩ := Option.filter_eq_some_iff.mp hy
  simp only [Bool.and_eq_true, Bool.not_eq_true', Array.isEmpty_eq_false_iff,
    Option.isNone_iff_eq_none] at hs ht
  obtain ⟨⟨hopen, hpoints⟩, hfree⟩ := hs
  obtain ⟨hopen', hbound⟩ := ht
  obtain rfl : o = .more := GoalOutcome.eq_more_of_isOpen hopen
  obtain rfl : o' = .more := GoalOutcome.eq_more_of_isOpen hopen'
  rw [answer?_eq_some] at hx hq hy hu
  obtain ⟨hactive, hordered⟩ := ordered_heldGoal hx
  have hrestored : s.Restored u := yields_ok (Q := fun _ u => s.Restored u)
    ((search_restores Host.within_none hordered).1 (.inl hactive) _ r q r' t 20 hq (.more .none hy)) hu
  exact ⟨g, s, r, q, r', t, u, hx, hpoints, hq, hy, hbound, hu, hrestored,
    (hrestored.store.value ⟨0⟩).trans hfree⟩

/-! ### Engines without a goal -/

/-- Stopping the goal of an engine that had none empties the trail and the choice stack, whatever was
on them before the goal was prepared: all bindings are as they were at the last moment at which the
trail was empty. -/
theorem stop_idle_undoes_all (hhost : host.Within) {m : Moment} (hzero : m.mark = 0)
    (hm : m.Before s.moment) (hactive : s.engine.active = none) (hp : prepare goal s = .ok g p)
    (hx : Executions host g p g' t) (n : Nat) : Yields (stop (Solver.context host n) g') t
      (fun _ u => u.engine.active = none ∧ u.engine.choices.points = #[] ∧
        u.engine.trail.entries = #[] ∧ m.Same u.moment) fun e _ => e = .spent := by
  obtain ⟨hb, ht⟩ := (yields_ok (begun_prepare s goal) hp).1.executions hhost hx
  obtain ⟨d, hd, ⟨-, hsome, -⟩ | ⟨hnested, -, rfl⟩⟩ := hb.base
  · simp [hactive] at hsome
  have hbefore : m.Before (Workspace.awake ⟨d, s.engine⟩).moment := by
    have hcontains := Moment.same_of_extends hd.store hm.recording
    exact (hm.trans hcontains.before).trans (Moment.same_mark _ hcontains.recording.ordered).before
  have hgoal : t.engine.active = some g'.id := ht.active.trans hb.active
  rw [stop, yields_bind, yields_get]
  simp only [hgoal, ne_eq, not_true_eq_false, if_false]
  rw [yields_bind]
  refine (within_drop (Solver.within_context hhost n) ht (by rw [hgoal]; rfl)).imp
    (fun _ u hu => ?_) fun _ _ h => h
  obtain ⟨hu, hpoints⟩ := hu
  have hnone := hpoints (ht.before m hzero hbefore).recording.ordered
  simp only [hnested, Bool.false_eq_true, if_false]
  rw [yields_bind, yields_undoTo_iff, yields_modify]
  have hmark : (u.moment.undoTo 0).mark = 0 := (Moment.mark_undoTo u.moment 0).trans (Nat.zero_min _)
  exact ⟨rfl, hnone, Array.eq_empty_of_size_eq_zero hmark, hzero ▸ (hu.before m hzero hbefore).same_undoTo⟩

/-- A new engine on which a mark has been taken, over a database in which a variable has been made. -/
def marked (d : Database) : Workspace :=
  ⟨{ d with terms := ⟨d.terms.symbols, d.terms.store.fresh.2⟩ },
    { Engine.ofConfig .standard with trail := ⟨#[], true⟩ }⟩

theorem mark_marked (d : Database) : (marked d).moment.mark = 0 := rfl

theorem recording_marked {d : Database} (h : d.terms.store.Ordered) : (marked d).moment.Recording :=
  ⟨rfl, (Store.Extends.fresh _).ordered h⟩

theorem stop_idle_undoes_all_bound : ∃ s g p g' t u,
    unify 9 (.var ⟨0⟩) (.atom .nil) (marked .initial) = .ok true s ∧
    (s.database.terms.store.value? ⟨0⟩).isSome ∧
    prepare (.atom .trueGoal) s = .ok g p ∧
    execute (Solver.context .none 9) g p = .ok (.last, g') t ∧
    stop (Solver.context .none 9) g' t = .ok () u ∧
    u.database.terms.store.value? ⟨0⟩ = none := by
  have hrun : (match unify 9 (.var ⟨0⟩) (.atom .nil) (marked .initial) with
    | .ok true s => match prepare (.atom .trueGoal) s with
      | .ok g p => match execute (Solver.context .none 9) g p with
        | .ok (.last, g') t => match stop (Solver.context .none 9) g' t with
          | .ok .. => (s.database.terms.store.value? ⟨0⟩).isSome && s.engine.active.isNone
          | .error .. => false
        | _ => false
      | .error .. => false
    | _ => false) = true := by decide +kernel
  split at hrun <;> try cases hrun
  rename_i s hs
  split at hrun <;> try cases hrun
  rename_i g p hp
  split at hrun <;> try cases hrun
  rename_i g' t hx
  split at hrun <;> try cases hrun
  rename_i u hu
  rw [Bool.and_eq_true, Option.isNone_iff_eq_none] at hrun
  have hbefore : (marked .initial).moment.Before s.moment :=
    (yields_ok (keeps_unify 9 (.var ⟨0⟩) (.atom .nil) _) hs).before _ (mark_marked _)
      (.refl (recording_marked Database.ordered_initial))
  have hstop := stop_idle_undoes_all Host.within_none (mark_marked _) hbefore hrun.2 hp (.more .none hx) 9
  have hsame := (yields_ok hstop hu).2.2.2
  exact ⟨s, g, p, g', t, u, hs, hrun.1, hp, hx, hu, (hsame.value ⟨0⟩).trans (by decide +kernel)⟩

end Engine

end Resolvent
