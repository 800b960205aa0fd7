import Resolvent.Proofs.Enclosing

/-!
# Searches of their own

A goal that is prepared, executed any number of times and stopped is a search of its own. Whatever the
outcomes are, stopping it takes up again what has been set aside for it, so what is left is
`Workspace.Restored`: the choice points, the trail and all bindings are as they were when the goal was
prepared (`Engine.begun_stop`). This is so because the search begins with an empty trail and what it
does stays within it; of the calls that it makes in turn only this is asked (`Context.Within`).

Collecting solutions, running a goal once and running cleanup goals are such searches.
-/

namespace Resolvent

/-- The search is as it was: only tags, variables and code have been added. -/
structure Workspace.Restored (s u : Workspace) : Prop where
  /-- The tags are kept. -/
  symbols : s.database.terms.symbols.Extends u.database.terms.symbols
  /-- All bindings are kept. -/
  store : s.database.terms.store.Extends u.database.terms.store
  /-- The limits. -/
  config : u.engine.config = s.engine.config
  /-- The limit of the choice stack. -/
  limit : u.engine.choices.limit = s.engine.choices.limit
  /-- The choice points. -/
  points : u.engine.choices.points = s.engine.choices.points
  /-- The trail, but for the mark that an idle engine has taken. -/
  entries : u.engine.trail.entries = s.engine.trail.entries
  /-- Whether a mark has been taken. -/
  marked : s.engine.active.isSome → u.engine.trail.marked = s.engine.trail.marked
  /-- The searches set aside. -/
  returnPoints : u.engine.returnPoints = s.engine.returnPoints
  /-- The goal. -/
  active : u.engine.active = s.engine.active
  /-- The depth. -/
  depth : u.engine.depth = s.engine.depth

namespace Workspace.Restored

theorem trans {s₁ s₂ s₃ : Workspace} (h : s₁.Restored s₂) (h' : s₂.Restored s₃) : s₁.Restored s₃ :=
  ⟨h.symbols.trans h'.symbols, h.store.trans h'.store, h'.config.trans h.config,
    h'.limit.trans h.limit, h'.points.trans h.points, h'.entries.trans h.entries,
    fun ha => (h'.marked (h.active ▸ ha)).trans (h.marked ha), h'.returnPoints.trans h.returnPoints,
    h'.active.trans h.active, h'.depth.trans h.depth⟩

/-- The moment is the same where marks had been taken before. -/
theorem same {s u : Workspace} (h : s.Restored u) (hs : s.moment.Recording)
    (hm : u.engine.trail.marked = s.engine.trail.marked) : s.moment.Same u.moment :=
  ⟨⟨hm.trans hs.marked, h.store.ordered hs.ordered⟩, h.store.size, congrArg Array.toList h.entries,
    h.store.value⟩

end Workspace.Restored

/-- The calls stay within the search. -/
structure Context.Within (ctx : Context) : Prop where
  /-- Calls of callees. -/
  invoke : ∀ callee args redo, Engine.Within (ctx.invoke callee args redo)
  /-- Cleanup goals. -/
  runCleanups : ∀ goals, Engine.Within (ctx.runCleanups goals)
  /-- Cleanup goals leave the search as it was. -/
  restores : ∀ goals (s : Workspace), s.engine.active.isSome → s.database.terms.store.Ordered →
    Yields (ctx.runCleanups goals) s (fun _ u => s.Restored u) fun e u => e ≠ .spent → s.Restored u
  /-- Faults. -/
  report : ∀ f, Engine.Within (ctx.report f)

namespace Engine

open Workspace (Encloses)

variable {α : Type} {ctx : Context}

/-! ### Searches of their own -/

theorem yields_park {Q : Unit → Workspace → Prop} {E : Stop → Workspace → Prop} :
    Yields park s Q E ↔ Q () s.parked :=
  Iff.rfl

theorem yields_activate {Q : Nat → Workspace → Prop} {E : Stop → Workspace → Prop} :
    Yields activate s Q E ↔ Q s.engine.nextGoal s.awake :=
  Iff.rfl

theorem yields_unpark {r : ReturnPoint} {rest : List ReturnPoint}
    (h : s.engine.returnPoints = r :: rest) {Q : Unit → Workspace → Prop}
    {E : Stop → Workspace → Prop} : Yields unpark s Q E ↔ Q () (s.unparked r rest) := by
  rw [unpark, yields_modify, h]
  exact Iff.rfl

/-- The goal has been prepared in the first workspace, which led to the second one. -/
structure Begun (s : Workspace) (g : PreparedGoal) (p : Workspace) : Prop where
  /-- The goal is the active one. -/
  active : p.engine.active = some g.id
  /-- The search before has been set aside if there was one. -/
  base : ∃ d, s.database.Contains d ∧
    (g.isNested = true ∧ s.engine.active.isSome ∧ p = (Workspace.parked ⟨d, s.engine⟩).awake ∨
      g.isNested = false ∧ s.engine.active = none ∧ p = Workspace.awake ⟨d, s.engine⟩)

/-- A goal is prepared; where it cannot be compiled, nothing happens to the engine. -/
theorem begun_prepare (s : Workspace) (goal : Term) : Yields (prepare goal) s
    (fun g p => Begun s g p ∧ g.started = false ∧ g.isDone = false)
    fun e s' => e ≠ .spent ∧ s'.engine = s.engine ∧ s.database.Contains s'.database := by
  rw [prepare, yields_bind, yields_onDatabase]
  refine (Database.keeps_compileGoal Database.builds_contains .query goal s.database).imp (fun r d h => ?_)
    fun e d h => ⟨nofun, rfl, h⟩
  rw [yields_bind, yields_get]
  cases hactive : s.engine.active with
  | some id =>
    simp only [Option.isSome_some, if_true]
    rw [yields_bind, yields_park, yields_bind, yields_activate, yields_pure]
    exact ⟨⟨rfl, d, h, .inl ⟨rfl, by rw [hactive]; rfl, rfl⟩⟩, rfl, rfl⟩
  | none =>
    simp only [Option.isSome_none, Bool.false_eq_true, if_false]
    rw [yields_bind, yields_activate, yields_pure]
    exact ⟨⟨rfl, d, h, .inr ⟨rfl, hactive, rfl⟩⟩, rfl, rfl⟩

/-- A goal is executed, whether it is the active one or not. -/
theorem yields_execute (hctx : ctx.Within) (g : PreparedGoal) (s : Workspace) :
    Yields (execute ctx g) s
      (fun r u => s.Encloses u ∧ r.2.id = g.id ∧ r.2.isNested = g.isNested)
      fun e _ => e = .spent := by
  rw [execute]
  split
  · exact ⟨.refl s, rfl, rfl⟩
  rw [yields_bind, yields_get]
  split
  · rw [yields_bind]
    exact (encloses_onTerms (Exception.extending_ofError _) s).imp (fun _ _ h => ⟨h, rfl, rfl⟩)
      fun _ _ h => h.elim
  rw [yields_bind]
  refine (yields_tryCatch.mpr ?_ : Yields (tryCatch _ _) s (fun _ u => s.Encloses u) _).imp
    (fun o u h => ⟨h, rfl, rfl⟩) fun _ _ h => h
  rw [yields_map]
  refine (hctx.invoke (.code g.code) g.args g.started s).imp (fun a u h => h) fun e u h => ?_
  · cases e with
    | thrown x =>
      rw [GoalOutcome.ofStop, yields_bind]
      exact (encloses_onTerms (Exception.extending_ofTerm x.ball) u).imp
        (fun _ _ h' => (h nofun).trans h') fun _ _ h' => h'.elim
    | halted n => exact h nofun
    | spent => rfl

/-- What is left of a search is dropped within it. -/
theorem within_drop (hctx : ctx.Within) {p t : Workspace} (h : p.Encloses t)
    (hactive : t.engine.active.isSome) : Yields (drop ctx) t
      (fun _ u => p.Encloses u ∧ (t.database.terms.store.Ordered → u.engine.choices.points = #[]))
      fun e _ => e = .spent := by
  rw [drop, yields_bind, cutTo, yields_onChoices, yields_bind, note, yields_modify, yields_bind,
    yields_tryCatch]
  have hcut : p.Encloses
      { t with engine := { t.engine with choices := (t.engine.choices.cutTo 0).2 } } :=
    h.trans (.of_choices rfl)
  generalize hu : Workspace.note (.of .stopping)
    { t with engine := { t.engine with choices := (t.engine.choices.cutTo 0).2 } } = u
  have hpu : p.Encloses u := hu ▸ hcut.trans (.of_note _)
  have hpoints : u.engine.choices.points = #[] := by
    subst hu
    simp [ChoiceStack.cutTo, Workspace.note]
  have hordered : t.database.terms.store.Ordered → u.database.terms.store.Ordered := by
    subst hu
    exact id
  have hactive : u.engine.active.isSome := by
    subst hu
    exact hactive
  -- what the cleanup goals lead to, whatever they end with
  have hdone {v : Workspace} (hv : u.Encloses v)
      (hr : u.database.terms.store.Ordered → u.Restored v) : Yields (note .stopped) v
      (fun _ u => p.Encloses u ∧ (t.database.terms.store.Ordered → u.engine.choices.points = #[]))
      fun e _ => e = .spent :=
    ⟨(hpu.trans hv).trans (.of_note _), fun ho => (hr (hordered ho)).points.trans hpoints⟩
  have hrun := (hctx.runCleanups (t.engine.choices.cutTo 0).1 u).and
    (Yields.of_imp (hctx.restores (t.engine.choices.cutTo 0).1 u hactive))
  refine hrun.imp (fun _ v hv => hdone hv.1 hv.2) fun e v hv => ?_
  cases e with
  | spent => exact rfl
  | _ => exact hdone (hv.1 (by simp)) fun ho => hv.2 ho (by simp)

/-- The search that was set aside is taken up as it was when all bindings made since are undone. -/
theorem restored_unparked {s v : Workspace} {d : Database} (hd : s.database.Contains d)
    (hv : (Workspace.parked ⟨d, s.engine⟩).awake.Encloses v)
    (hm : (Workspace.parked ⟨d, s.engine⟩).awake.moment.Same v.moment) :
    s.Restored (v.unparked ⟨s.engine.choices.points, s.engine.choices.made, s.engine.trail,
      s.engine.active⟩ s.engine.returnPoints) :=
  ⟨hd.symbols.trans hv.symbols, hd.store.trans ⟨hm.size, hm.value⟩, hv.config, hv.limit, rfl, rfl,
    fun _ => rfl, rfl, rfl, hv.depth⟩

/-- An engine that was idle is idle again when all bindings made since are undone. -/
theorem restored_idle {s v : Workspace} {d : Database} (hd : s.database.Contains d)
    (hs : s.engine.active = none) (hv : (Workspace.awake ⟨d, s.engine⟩).Encloses v)
    (hm : (Workspace.awake ⟨d, s.engine⟩).moment.Same v.moment)
    (hp : v.engine.choices.points = s.engine.choices.points) :
    s.Restored { v with engine := { v.engine with active := none } } :=
  ⟨hd.symbols.trans hv.symbols, hd.store.trans ⟨hm.size, hm.value⟩, hv.config, hv.limit, hp,
    Array.toList_inj.mp hm.entries, fun ha => by simp [hs] at ha, hv.returnPoints, hs.symm, hv.depth⟩

/-- The search that was set aside for a goal is taken up as it was, and an engine that was idle is
idle again. -/
theorem begun_stop (hctx : ctx.Within) {s p t : Workspace} {g : PreparedGoal} (hb : Begun s g p)
    (ht : p.Encloses t) : Yields (stop ctx g) t
      (fun _ u => s.Encloses u ∧ (s.database.terms.store.Ordered →
        (s.engine.active.isSome ∨ s.moment.mark = 0 ∧ s.engine.choices.points = #[]) →
          s.Restored u)) fun e _ => e = .spent := by
  have hactive : t.engine.active = some g.id := ht.active.trans hb.active
  rw [stop, yields_bind, yields_get]
  simp only [hactive, ne_eq, not_true_eq_false, if_false]
  rw [yields_bind]
  refine (within_drop hctx ht (by rw [hactive]; rfl)).imp (fun _ u hu => ?_) fun _ _ h => h
  obtain ⟨hu, hpoints⟩ := hu
  rw [yields_bind, yields_undoTo_iff]
  have hv : p.Encloses (rebind u (u.moment.undoTo 0)) := hu.trans (keeps_undoTo 0 u)
  generalize hundone : rebind u (u.moment.undoTo 0) = v at hv ⊢
  have hmoment : v.moment = u.moment.undoTo 0 := by
    subst hundone
    rfl
  have hchoices : v.engine.choices = u.engine.choices := by
    subst hundone
    rfl
  obtain ⟨d, hd, ⟨hg, hs, rfl⟩ | ⟨hg, hs, rfl⟩⟩ := hb.base
  · simp only [hg, if_true]
    refine (yields_unpark hv.returnPoints).mpr ?_
    have hrestored (ho : s.database.terms.store.Ordered) : s.Restored (v.unparked
        ⟨s.engine.choices.points, s.engine.choices.made, s.engine.trail, s.engine.active⟩
        s.engine.returnPoints) := by
      have hrecording : (Workspace.parked ⟨d, s.engine⟩).awake.moment.Recording :=
        ⟨rfl, hd.store.ordered ho⟩
      have hbefore := hu.before _ rfl (.refl hrecording)
      exact restored_unparked hd hv (hmoment ▸ hbefore.same_undoTo)
    refine ⟨⟨hd.symbols.trans hv.symbols, hv.config, hv.limit, rfl, rfl, hv.depth, fun m _ hm => ?_⟩,
      fun ho _ => hrestored ho⟩
    exact hm.trans ((hrestored hm.recording.ordered).same hm.recording rfl).before
  · simp only [hg, Bool.false_eq_true, if_false]
    rw [yields_modify]
    have hbegun (m : Moment) (hm : m.Before s.moment) :
        m.Before (Workspace.awake ⟨d, s.engine⟩).moment := by
      have hcontains := Moment.same_of_extends hd.store hm.recording
      exact (hm.trans hcontains.before).trans
        (Moment.same_mark _ hcontains.recording.ordered).before
    refine ⟨⟨hd.symbols.trans hv.symbols, hv.config, hv.limit, hv.returnPoints, hs.symm, hv.depth,
      fun m hzero hm => hv.before m hzero (hbegun m hm)⟩, fun ho hempty => ?_⟩
    obtain ⟨hzero, hnone⟩ := hempty.resolve_left (by simp [hs])
    have hrecording : (Workspace.awake ⟨d, s.engine⟩).moment.Recording :=
      ⟨rfl, hd.store.ordered ho⟩
    have hzero : (Workspace.awake ⟨d, s.engine⟩).moment.mark = 0 := hzero
    have hbefore := hu.before _ hzero (.refl hrecording)
    have hordered := (ht.before _ hzero (.refl hrecording)).recording.ordered
    refine restored_idle hd hs hv ?_ ?_
    · rw [hmoment, ← hzero]
      exact hbefore.same_undoTo
    · rw [hchoices, hpoints hordered, hnone]

/-- What a search of its own leaves behind, whatever its outcome is. -/
def Leaves (s u : Workspace) : Prop :=
  s.Encloses u ∧ (s.database.terms.store.Ordered → s.engine.active.isSome → s.Restored u)

theorem Leaves.of_contains {s u : Workspace} (he : u.engine = s.engine)
    (hd : s.database.Contains u.database) : Leaves s u := by
  obtain ⟨d, e⟩ := u
  obtain rfl : e = s.engine := he
  exact ⟨.of_contains hd, fun _ _ => ⟨hd.symbols, hd.store, rfl, rfl, rfl, rfl, fun _ => rfl, rfl,
    rfl, rfl⟩⟩

/-- What is done with a goal from preparing it to stopping it is a search of its own. -/
theorem leaves_search (hctx : ctx.Within) {s : Workspace} {goal : Term} {β : Type}
    {x : PreparedGoal → EngineM α} {k : α → PreparedGoal} {f : α → EngineM β}
    (hx : ∀ g t, Yields (x g) t
      (fun r u => t.Encloses u ∧ (k r).id = g.id ∧ (k r).isNested = g.isNested)
      fun e _ => e = .spent)
    (hf : ∀ r u, Yields (f r) u (fun _ v => v = u) fun _ v => v = u) :
    Yields (do
        let g ← prepare goal
        let r ← x g
        stop ctx (k r)
        f r) s (fun _ u => Leaves s u) fun e u => e ≠ .spent → Leaves s u := by
  rw [yields_bind]
  refine (begun_prepare s goal).imp (fun g p hb => ?_) fun e u h _ => .of_contains h.2.1 h.2.2
  rw [yields_bind]
  refine (hx g p).imp (fun r t hr => ?_) fun e _ he hne => absurd he hne
  obtain ⟨ht, hid, hnested⟩ := hr
  have hb' : Begun s (k r) p := by
    obtain ⟨hactive, hbase⟩ := hb.1
    exact ⟨hid ▸ hactive, hnested ▸ hbase⟩
  rw [yields_bind]
  refine (begun_stop hctx hb' ht).imp (fun _ u hu => ?_) fun e _ he hne => absurd he hne
  have hleaves : Leaves s u := ⟨hu.1, fun ho ha => hu.2 ho (.inl ha)⟩
  exact (hf r u).imp (fun _ v hv => hv ▸ hleaves) fun _ v hv _ => hv ▸ hleaves

theorem leaves_runOnce (hctx : ctx.Within) (goal : Term) (s : Workspace) :
    Yields (runOnce ctx goal) s (fun _ u => Leaves s u) fun e u => e ≠ .spent → Leaves s u := by
  refine leaves_search hctx (x := execute ctx) (k := Prod.snd) (yields_execute hctx)
    (f := fun r => r.1.isSolution) fun r u => ?_
  obtain ⟨o, g⟩ := r
  cases o <;> rfl

theorem yields_collectLoop (hctx : ctx.Within) (template : Term) (limit : Option Nat) (n : Nat) :
    ∀ (g : PreparedGoal) (found : List Term) (s : Workspace),
      Yields (collectLoop ctx template limit n g found) s
        (fun r u => s.Encloses u ∧ r.2.2.id = g.id ∧ r.2.2.isNested = g.isNested)
        fun e _ => e = .spent := by
  induction n with
  | zero => exact fun _ _ _ => rfl
  | succ n ih =>
    intro g found s
    rw [collectLoop]
    split
    · exact ⟨.refl s, rfl, rfl⟩
    rw [yields_bind]
    refine (yields_execute hctx g s).imp (fun r t hr => ?_) fun _ _ h => h
    obtain ⟨o, g'⟩ := r
    obtain ⟨ht, hid, hnested⟩ := hr
    cases o with
    | more =>
      rw [yields_bind]
      refine (encloses_onTerms (Universe.extending_copy template) t).imp (fun c u hu => ?_)
        fun _ _ h => h.elim
      refine (ih g' (c :: found) u).imp (fun r v hv => ?_) fun _ _ h => h
      exact ⟨(ht.trans hu).trans hv.1, hv.2.1.trans hid, hv.2.2.trans hnested⟩
    | last =>
      rw [yields_bind]
      exact (encloses_onTerms (Universe.extending_copy template) t).imp
        (fun c u hu => ⟨ht.trans hu, hid, hnested⟩) fun _ _ h => h.elim
    | _ => exact ⟨ht, hid, hnested⟩

theorem leaves_collect (hctx : ctx.Within) (template goal : Term) (limit : Option Nat)
    (s : Workspace) : Yields (collect ctx template goal limit) s (fun _ u => Leaves s u)
      fun e u => e ≠ .spent → Leaves s u := by
  refine leaves_search hctx (x := fun g => collectLoop ctx template limit ctx.fuel g [])
    (k := fun r => r.2.2) (yields_collectLoop hctx template limit ctx.fuel · [])
    (f := fun r => r.2.1.collected r.1) fun r u => ?_
  obtain ⟨found, o, g⟩ := r
  cases o <;> rfl

theorem Leaves.trans {s t u : Workspace} (h : Leaves s t) (h' : Leaves t u) : Leaves s u :=
  ⟨h.1.trans h'.1, fun ho ha => by
    have hr := h.2 ho ha
    exact hr.trans (h'.2 (hr.store.ordered ho) (hr.active ▸ ha))⟩

theorem leaves_note (e : Chronicle.Event) (s : Workspace) : Yields (note e) s
    (fun _ u => Leaves s u) fun _ _ => False :=
  ⟨.of_note _, fun _ _ => ⟨.refl _, .refl _, rfl, rfl, rfl, rfl, fun _ => rfl, rfl, rfl, rfl⟩⟩

/-- Cleanup goals are searches of their own. -/
theorem leaves_runCleanups (hctx : ctx.Within) (goals : List Term) (s : Workspace) :
    Yields (runCleanups ctx goals) s (fun _ u => Leaves s u) fun e u => e ≠ .spent → Leaves s u := by
  induction goals generalizing s with
  | nil => exact .of_contains rfl (.refl _)
  | cons goal goals ih =>
    refine yields_bind.mpr (Yields.imp (Q := fun _ u => Leaves s u)
      (E := fun e u => e ≠ .spent → Leaves s u) ?_ (fun _ t ht => ?_) fun _ _ h => h)
    · rw [yields_bind]
      refine (leaves_note (.started goal) s).imp (fun _ t ht => ?_) fun _ _ h => h.elim
      have hended {u : Workspace} (hu : Leaves s u) : Yields (note (.ended goal)) u
          (fun _ v => Leaves s v) fun e v => e ≠ .spent → Leaves s v :=
        (leaves_note (.ended goal) u).imp (fun _ v hv => hu.trans hv) fun _ _ h => h.elim
      rw [yields_bind, yields_tryCatch, yields_discard]
      refine (leaves_runOnce hctx goal t).imp (fun _ u hu => hended (ht.trans hu)) fun e u hu => ?_
      cases e with
      | thrown x => exact hended (ht.trans (hu nofun))
      | halted n =>
        rw [cleanupStopped, yields_bind]
        exact (leaves_note (.halted goal) u).imp (fun _ v hv _ => (ht.trans (hu nofun)).trans hv)
          fun _ _ h => h.elim
      | spent => exact fun hne => absurd rfl hne
    · exact (ih t).imp (fun _ u hu => ht.trans hu) fun e u hu hne => ht.trans (hu hne)

end Engine

end Resolvent
