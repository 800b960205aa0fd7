import Resolvent.Proofs.Calling
import Resolvent.Proofs.Replacing
import Resolvent.Proofs.Restoring

/-!
# What a host does with an engine

A `Session` is what a host does with an engine: it prepares goals, finds solutions of the goal that
was prepared last, and stops it; between these it may make terms, and change the database. Goals that
have been prepared and not yet stopped are a stack. `Underway` says of each of them that it is being
searched for since it was prepared, in the workspace that the goals below it have led to; every call of
the host keeps to this, with whatever outcome. After a change of the database the goals are being
searched for as if they had been prepared under the predicates that there are then (`Underway.under`).

So all choice points can bring back the bindings of the moments at which they were made, in all states
that an engine passes through (`Engine.recoverable_throughout`), and all cleanup goals are started
exactly once by the time at which the goal they belong to has been stopped
(`Engine.cleanups_started_once`).
-/

namespace Resolvent

/-- What is undone does not depend on whether a mark has been taken. -/
theorem Trail.store_undoNewest {α : Type} (n : Nat) : ∀ (σ : Store) {τ τ' : Trail α} (found : List α),
    τ'.entries = τ.entries → (undoNewest n σ τ' found).1 = (undoNewest n σ τ found).1 := by
  induction n with
  | zero => exact fun _ _ _ _ _ => rfl
  | succ n ih =>
    intro σ τ τ' found h
    rw [undoNewest, undoNewest, h]
    cases τ.entries.back? with
    | none => rfl
    | some e =>
      cases e with
      | binding v => exact ih _ _ rfl
      | action a => exact ih _ _ rfl

namespace Workspace

variable {s : Workspace}

theorem value_scene (s : Workspace) :
    s.scene.value = ⟨s.moment, s.engine.choices.points, s.made⟩ := by
  rw [scene, Ghost.value_map]
  rfl

theorem Ready.recoverable (h : s.Ready) : s.scene.value.Recoverable := by
  rw [value_scene]
  exact h.made.recoverable

/-- The choice points of an engine without a goal can bring back the bindings of their moments, too. -/
theorem Idle.recoverable (h : s.Idle) : s.scene.value.Recoverable := by
  obtain ⟨hsorted, hbounded, hrecovers⟩ := h.ready.recoverable
  rw [value_scene] at *
  refine ⟨hsorted, hbounded, hrecovers.imp fun p m hp v => ?_⟩
  rw [← hp v]
  exact congrArg (Store.value? · v) (Trail.store_undoNewest _ _ _ rfl)

/-- Code may be added for an engine without a goal. -/
theorem Idle.adds (h : s.Idle) {d : Database} (hd : s.database.Adds d) : Idle ⟨d, s.engine⟩ :=
  ⟨h.active, (Engine.stays_of_adds h.ready hd).1.ready, h.held⟩

/-- A new engine over a database has no goal. -/
theorem idle_ofConfig {d : Database} (hd : d.Sound) (hordered : d.terms.store.Ordered)
    (config : Config) : Idle ⟨d, .ofConfig config⟩ := by
  refine ⟨rfl, ⟨hd, ⟨rfl, hordered⟩, rfl, fun _ h => absurd h List.not_mem_nil, ?_⟩, rfl⟩
  rw [made, show (awake ⟨d, .ofConfig config⟩).engine.choices.made.value = [] from Ghost.value_of []]
  exact .nil

theorem idle_initial : initial.Idle := by
  dsimp only [initial]
  exact idle_ofConfig Database.sound_initial Database.ordered_initial .standard

end Workspace

namespace Engine

open Workspace

variable {host : Host} {s₀ b s t : Workspace} {g g' : PreparedGoal} {gs : List PreparedGoal}
  {goal : Term}

/-! ### Sessions -/

/-- What a host may do with an engine, and the goals that it has not stopped yet, the last one first. -/
inductive Session (host : Host) (s₀ : Workspace) : List PreparedGoal → Workspace → Prop where
  /-- Nothing. -/
  | none : Session host s₀ [] s₀
  /-- A goal is prepared. -/
  | prepared {gs : List PreparedGoal} {s t : Workspace} {goal : Term} {g : PreparedGoal}
      (h : Session host s₀ gs s) (hgoal : goal.Fits s.symbols) (hx : prepare goal s = .ok g t) :
      Session host s₀ (g :: gs) t
  /-- A goal is refused. -/
  | refused {gs : List PreparedGoal} {s t : Workspace} {goal : Term} {e : Stop}
      (h : Session host s₀ gs s) (hgoal : goal.Fits s.symbols) (hx : prepare goal s = .error e t) :
      Session host s₀ gs t
  /-- The next solution of the last goal is searched for. -/
  | executed {gs : List PreparedGoal} {s t : Workspace} {g g' : PreparedGoal} {n : Nat}
      {o : GoalOutcome} (h : Session host s₀ (g :: gs) s)
      (hx : execute (Solver.context host n) g s = .ok (o, g') t) : Session host s₀ (g' :: gs) t
  /-- The last goal is stopped. -/
  | stopped {gs : List PreparedGoal} {s t : Workspace} {g : PreparedGoal} {n : Nat}
      (h : Session host s₀ (g :: gs) s) (hx : stop (Solver.context host n) g s = .ok () t) :
      Session host s₀ gs t
  /-- Terms are made. -/
  | made {gs : List PreparedGoal} {s t : Workspace} {α : Type} {x : StateM Universe α} {a : α}
      (h : Session host s₀ gs s) (hmakes : Universe.Extending x) (hx : onTerms x s = .ok a t) :
      Session host s₀ gs t
  /-- The database is changed, or the change is refused. -/
  | changed {gs : List PreparedGoal} {s : Workspace} {d : Database} {m : Database.Mutation}
      (h : Session host s₀ gs s) (hm : m.Suits s.symbols) (hx : Ends m.run s.database d) :
      Session host s₀ gs ⟨d, s.engine⟩

/-- The goals are being searched for, each since it was prepared in the workspace that the goals below
it have led to. -/
inductive Underway (s₀ : Workspace) : List PreparedGoal → Workspace → Prop where
  | base {s : Workspace} (h : s.Ready ∨ s.Idle) (hsettled : s₀.Settles [] [] s) : Underway s₀ [] s
  | goal {gs : List PreparedGoal} {b p s : Workspace} {g : PreparedGoal} (h : Underway s₀ gs b)
      (ho : Opened b g p) (hs : Searching g p s) : Underway s₀ (g :: gs) s

namespace Underway

theorem sound (h : Underway s₀ gs s) : s.database.Sound := by
  cases h with
  | base h _ => exact h.elim Ready.database fun hs => hs.ready.database
  | goal _ _ hs => exact hs.later.ready.database

theorem tells (h : Underway s₀ gs s) : s₀.Tells s := by
  induction h with
  | base _ hsettled => exact hsettled.tells
  | goal _ ho hs ih => exact (ih.trans ho.tells).trans hs.later.tells

theorem ready_or_idle (h : Underway s₀ gs s) : s.Ready ∨ s.Idle := by
  cases h with
  | base h _ => exact h
  | goal _ _ hs => exact .inl hs.later.ready

theorem recoverable (h : Underway s₀ gs s) : s.scene.value.Recoverable :=
  h.ready_or_idle.elim Ready.recoverable Idle.recoverable

/-- An engine without a goal. -/
theorem of_idle (h : Underway s₀ gs b) (hb : b.Idle) (hs : s.Idle) (hsettled : b.Settles [] [] s) :
    Underway s₀ gs s := by
  cases h with
  | base _ hsettled₀ => exact .base (.inr hs) (hsettled₀.trans hsettled)
  | goal _ _ hb' =>
    have hactive := hb'.later.ready.active
    rw [hb.active] at hactive
    cases hactive

/-- The search is not disturbed by what leaves nothing behind. -/
theorem stays (h : Underway s₀ gs s) (hs : s.Stays t) : Underway s₀ gs t := by
  cases h with
  | base _ hsettled => exact .base (.inl hs.same.ready) (hsettled.trans hs.settled)
  | goal h ho hs' => exact .goal h ho (hs'.stays hs)

/-- Code is added to the database. -/
theorem adds (h : Underway s₀ gs s) {d : Database} (hd : s.database.Adds d) :
    Underway s₀ gs ⟨d, s.engine⟩ := by
  obtain hs | hs := h.ready_or_idle
  · exact h.stays (stays_of_adds hs hd)
  · exact h.of_idle hs (hs.adds hd) (.of_chronicle rfl _)

/-- The predicates may be others. -/
theorem under {d : Database} (hd : d.Sound) (h : Underway s₀ gs s)
    (hs : s.symbols.Extends d.terms.symbols) : Underway s₀ gs (s.under d) := by
  induction h with
  | base h hsettled =>
    exact .base (h.imp (Ready.under hd · hs) (Idle.under hd · hs)) (hsettled.trans (.of_chronicle rfl _))
  | goal _ ho hsearching ih =>
    have hp := hsearching.later.symbols.trans hs
    exact .goal (ih (ho.symbols.trans hp)) (ho.under hd hp) (hsearching.under hd hs)

/-- The database is changed. -/
theorem changed {d : Database} (h : Underway s₀ gs s) (hd : s.database.Updated d) :
    Underway s₀ gs ⟨d, s.engine⟩ :=
  (h.under hd.sound hd.terms.symbols).adds hd.adds

/-- A goal is prepared. -/
theorem prepare (h : Underway s₀ gs s) (hgoal : goal.Fits s.symbols) :
    Yields (prepare goal) s (fun g t => Underway s₀ (g :: gs) t) fun _ t => Underway s₀ gs t := by
  obtain hs | hs := h.ready_or_idle
  · refine (yields_prepare hs hgoal).imp (fun g t ht => ?_) fun e t ht => ?_
    · exact .goal h ht.1 (ht.1.searching ht.2.2.1)
    · obtain ⟨_, _, _, hstays⟩ := ht
      exact h.stays hstays
  · refine (yields_prepare_idle hs hgoal).imp (fun g t ht => ?_) fun e t ht => ?_
    · exact .goal h ht.1 (ht.1.searching ht.2.2.1)
    · exact h.of_idle hs ht.1 (.of_chronicle (congrArg (Ghost.value ∘ Engine.chronicle) ht.2.1) _)

/-- The next solution of the last goal is searched for. -/
theorem execute (h : Underway s₀ (g :: gs) s) (n : Nat) :
    Yields (execute (Solver.context host n) g) s (fun r t => Underway s₀ (r.2 :: gs) t)
      fun e t => e = .spent ∧ s₀.Tells t := by
  cases h with
  | goal h ho hs =>
    refine (agree_execute (Solver.disciplined_context Host.within_none n) ho hs).yields.imp
      (fun r t ht => .goal h ht.1.1 ht.1.2.1) fun e t ht => ?_
    exact ⟨ht.1, (h.tells.trans ho.tells).trans ht.2⟩

/-- The last goal is stopped. -/
theorem stop (h : Underway s₀ (g :: gs) s) (n : Nat) :
    Yields (stop (Solver.context host n) g) s (fun _ t => Underway s₀ gs t)
      fun e t => e = .spent ∧ s₀.Tells t := by
  have hctx : (Solver.context host n).Disciplined (Solver.context .none n) :=
    Solver.disciplined_context Host.within_none n
  cases h with
  | goal h ho hs =>
    cases hnested : g.isNested with
    | true =>
      refine (agree_stop hctx ho hnested hs).yields.imp (fun _ t ht => h.stays ht.1.stays)
        fun e t ht => ⟨ht.1, h.tells.trans ht.2⟩
    | false =>
      obtain ⟨d, -, ⟨htrue, -⟩ | ⟨-, hb, -⟩⟩ := ho.base
      · rw [hnested] at htrue
        cases htrue
      · refine (agree_stop_idle hctx ho hnested hs).yields.imp (fun _ t ht => ?_)
          fun e t ht => ⟨ht.1, h.tells.trans ht.2⟩
        exact h.of_idle hb ht.idle (hb.held ▸ ht.settled)

end Underway

/-- Whatever a host does, its goals are being searched for. -/
theorem Session.underway (hs₀ : s₀.Ready ∨ s₀.Idle) (h : Session host s₀ gs s) :
    Underway s₀ gs s := by
  induction h with
  | none => exact .base hs₀ (.of_chronicle rfl _)
  | prepared _ hgoal hx ih => exact (yields_ok (ih.prepare hgoal) hx :)
  | refused _ hgoal hx ih => exact (yields_error (ih.prepare hgoal) hx :)
  | executed _ hx ih => exact (yields_ok (ih.execute _) hx :)
  | stopped _ hx ih => exact (yields_ok (ih.stop _) hx :)
  | @made gs s t α x a _ hmakes hx ih =>
    have hadds : s.database.Adds { s.database with terms := (x s.database.terms).2 } :=
      .of_terms ih.sound (hmakes s.database.terms)
    cases hx
    exact ih.adds hadds
  | changed _ hm hx ih => exact ih.changed (hm.updated ih.sound hx)

/-! ### Choice points -/

/-- In all states that an engine passes through while a host runs goals on it, and between the calls of
the host, the choice points can bring back the bindings of the moments at which they were made. -/
theorem recoverable_throughout (hs₀ : s₀.Ready ∨ s₀.Idle) (h : Session host s₀ gs s) :
    s.scene.value.Recoverable ∧ s₀.Tells s ∧ ∀ g gs' n, gs = g :: gs' →
      Yields (execute (Solver.context host n) g) s (fun _ t => s₀.Tells t)
        (fun e t => e = .spent ∧ s₀.Tells t) ∧
      Yields (stop (Solver.context host n) g) s (fun _ t => s₀.Tells t)
        fun e t => e = .spent ∧ s₀.Tells t := by
  have hs := h.underway hs₀
  refine ⟨hs.recoverable, hs.tells, ?_⟩
  rintro g gs' n rfl
  exact ⟨(hs.execute n).imp (fun _ _ ht => ht.tells) fun _ _ he => he,
    (hs.stop n).imp (fun _ _ ht => ht.tells) fun _ _ he => he⟩

theorem fits_heldGoal_of {sym : Symbols} (hcleanup : sym.pairs[24]?.map Prod.snd = some 2)
    (hdisj : sym.pairs[Tag.disj.index]?.map Prod.snd = some 2) : heldGoal.Fits sym := by
  obtain ⟨⟨a, _⟩, ha, rfl⟩ := Option.map_eq_some_iff.mp hcleanup
  obtain ⟨⟨a', _⟩, ha', rfl⟩ := Option.map_eq_some_iff.mp hdisj
  refine .compound ⟨a, ha⟩ (List.forall_mem_cons.mpr ⟨.compound ⟨a', ha'⟩ ?_,
    List.forall_mem_singleton.mpr (.const _)⟩)
  exact List.forall_mem_cons.mpr ⟨.const _, List.forall_mem_singleton.mpr (.const _)⟩

theorem fits_heldGoal : heldGoal.Fits Workspace.initial.symbols :=
  fits_heldGoal_of (by decide +kernel) (by decide +kernel)

/-- The goal has a solution with others to come, and can be stopped then, also if `call_cleanup/2` is not
given any more. -/
theorem held_runs : ∃ g p g' s, prepare heldGoal .initial = .ok g p ∧
    execute (Solver.context .none 20) g p = .ok (.more, g') s ∧
    ∃ d t, Database.abolish ⟨24⟩ s.database = .ok true d ∧
      stop (Solver.context .none 20) g' ⟨d, s.engine⟩ = .ok () t := by
  have hrun : ((answer? (prepare heldGoal) .initial).bind fun r =>
      ((answer? (execute (Solver.context .none 20) r.1) r.2).filter (·.1.1.isOpen)).bind fun r =>
        ((answer? (Database.abolish ⟨24⟩) r.2.database).filter (·.1)).bind fun x =>
          answer? (stop (Solver.context .none 20) r.1.2) ⟨x.2, r.2.engine⟩).isSome := by
    decide +kernel
  obtain ⟨⟨⟨⟩, t⟩, hrun⟩ := Option.isSome_iff_exists.mp hrun
  obtain ⟨⟨g, p⟩, hp, hrun⟩ := Option.bind_eq_some_iff.mp hrun
  obtain ⟨⟨⟨o, g'⟩, s⟩, hx, hrun⟩ := Option.bind_eq_some_iff.mp hrun
  obtain ⟨⟨gone, d⟩, hd, ht⟩ := Option.bind_eq_some_iff.mp hrun
  obtain ⟨hx, hopen⟩ := Option.filter_eq_some_iff.mp hx
  obtain ⟨hd, rfl : gone = true⟩ := Option.filter_eq_some_iff.mp hd
  obtain rfl : o = .more := GoalOutcome.eq_more_of_isOpen hopen
  exact ⟨g, p, g', s, answer?_eq_some.mp hp, answer?_eq_some.mp hx, d, t, answer?_eq_some.mp hd,
    answer?_eq_some.mp ht⟩

theorem recoverable_throughout_held : ∃ g p g' s,
    prepare heldGoal .initial = .ok g p ∧
    execute (Solver.context .none 20) g p = .ok (.more, g') s ∧
    s.scene.value.Recoverable ∧ Workspace.initial.Tells s := by
  obtain ⟨g, p, g', s, hp, hx, -⟩ := held_runs
  have h := recoverable_throughout (.inr Workspace.idle_initial)
    (.executed (.prepared .none fits_heldGoal hp) hx)
  exact ⟨g, p, g', s, hp, hx, h.1, h.2.1⟩

/-! ### Cleanup goals -/

/-- Every goal for which a cleanup point is made is started exactly once before the goal that the host
was running has been stopped, unless a cleanup goal asks for the end of the run. -/
theorem cleanups_started_once (hs₀ : s₀.Ready ∨ s₀.Idle) (hb : Session host s₀ gs b)
    (h : Session host b [] t) : ∃ l, t.chronicle = l ++ b.chronicle ∧
      ((∀ g, .halted g ∉ l) → Chronicle.Settles l [] [] ∧
        (l.filterMap Chronicle.Event.held?).Perm (l.filterMap Chronicle.Event.started?)) := by
  have ht := h.underway (hb.underway hs₀).ready_or_idle
  cases ht with
  | base _ hsettled =>
    obtain ⟨l, hl, -, hgoals⟩ := hsettled
    refine ⟨l, hl, fun hnone => ?_⟩
    obtain ⟨g, hg⟩ | hgoals := hgoals
    · exact absurd hg (hnone g)
    · exact ⟨hgoals, by simpa using hgoals.perm⟩

/-- While the goal is held, the predicate that holds it is taken out of the database. -/
theorem cleanups_started_once_held : ∃ g p g' s d t,
    prepare heldGoal .initial = .ok g p ∧
    execute (Solver.context .none 20) g p = .ok (.more, g') s ∧
    Database.abolish ⟨24⟩ s.database = .ok true d ∧
    stop (Solver.context .none 20) g' ⟨d, s.engine⟩ = .ok () t ∧
    ∃ l, t.chronicle = l ++ Workspace.initial.chronicle ∧
      ((∀ g, .halted g ∉ l) → Chronicle.Settles l [] [] ∧
        (l.filterMap Chronicle.Event.held?).Perm (l.filterMap Chronicle.Event.started?)) := by
  obtain ⟨g, p, g', s, hp, hx, d, t, hd, ht⟩ := held_runs
  have hchanged : Ends (Database.Mutation.abolish ⟨24⟩).run s.database d := .discard (.inl ⟨true, hd⟩)
  have hheld : Session .none .initial [g'] s := .executed (.prepared .none fits_heldGoal hp) hx
  exact ⟨g, p, g', s, d, t, hp, hx, hd, ht, cleanups_started_once (.inr Workspace.idle_initial) .none
    (.stopped (.changed (m := .abolish ⟨24⟩) hheld trivial hchanged) ht)⟩

end Engine

end Resolvent
