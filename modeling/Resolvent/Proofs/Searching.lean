import Resolvent.Proofs.Running

/-!
# Searches for goals

A goal that is prepared while another one is being searched for has a search of its own: `parked` sets
the present one aside, `awake` makes the new goal the active one. Whatever is done in the new search,
`stop` brings the old one back (`agree_stop_nested`): it `Clears` what the search has left, so the
choice points, the trail and all bindings are as they were when the goal was prepared. A goal that is
prepared while there is none leaves the engine `Idle` again (`agree_stop_outer`).

`Searching` is what executing the goal keeps to, any number of times.
-/

namespace Resolvent

namespace Workspace

/-- No goal is being searched for, but one could be. -/
structure Idle (s : Workspace) : Prop where
  /-- There is no goal. -/
  active : s.engine.active = none
  /-- There could be one. -/
  ready : s.awake.Ready
  /-- No cleanup goal is to be run. -/
  held : s.held = []

theorem Ready.awake_parked {s : Workspace} (h : s.Ready) : s.parked.awake.Ready := by
  refine ⟨h.database.of_grows (.refl _) h.database.terms rfl rfl, ⟨rfl, h.recording.ordered⟩, rfl,
    nofun, ?_⟩
  rw [show s.parked.awake.made = [] from Ghost.value_of []]
  exact .nil

end Workspace

namespace Engine

open Workspace

variable {b p s : Workspace} {g : PreparedGoal} {ctx ctx' : Context}

/-- The goal has been prepared in the first workspace, which led to the second one. -/
structure Opened (b : Workspace) (g : PreparedGoal) (p : Workspace) : Prop where
  /-- The code of the goal can be called. -/
  fits : (Callee.code g.code).Fits p.database g.args
  /-- The goal is the active one. -/
  active : p.engine.active = some g.id
  /-- The search can begin. -/
  ready : p.Ready
  /-- Code has been added for the goal, and the search before has been set aside if there was one. -/
  base : ∃ d, b.database.Adds d ∧
    (g.isNested = true ∧ b.Ready ∧ p = (parked ⟨d, b.engine⟩).awake ∨
      g.isNested = false ∧ b.Idle ∧ p = awake ⟨d, b.engine⟩)

/-- The goal is being searched for since the workspace in which it had been prepared. -/
structure Searching (g : PreparedGoal) (p s : Workspace) : Prop where
  /-- What has been bound is on the trail. -/
  later : p.Later s
  /-- No choice point of before has been taken away. -/
  points : p.points <+: s.points
  /-- The depth is the same. -/
  depth : s.engine.depth = p.engine.depth
  /-- The search has not begun yet. -/
  fresh : g.started = false → p.Same s
  /-- There may be more solutions. -/
  suspended : g.started = true → g.isDone = false →
    ∃ u, p.Same u ∧ Suspended (.code g.code) g.args u s

theorem Opened.searching (h : Opened b g p) (hg : g.started = false) : Searching g p p :=
  ⟨h.ready.later, List.prefix_refl _, rfl, fun _ => h.ready.same, fun hs => by simp [hg] at hs⟩

/-- The search is not disturbed by what leaves nothing behind. -/
theorem Searching.stays {s' : Workspace} (h : Searching g p s) (hs : s.Stays s') :
    Searching g p s' := by
  refine ⟨h.later.trans hs.same.toOwes, hs.same.points ▸ h.points, hs.depth.trans h.depth,
    fun hfresh => (h.fresh hfresh).trans hs.same, fun hstarted hdone => ?_⟩
  obtain ⟨u, hu, hsuspended⟩ := h.suspended hstarted hdone
  exact ⟨u, hu, hsuspended.same hs.same.toOwes hs.same.points⟩

/-! ### Preparing -/

/-- A goal is prepared while another one is being searched for. -/
theorem yields_prepare (hs : s.Ready) {goal : Term} (hgoal : goal.Fits s.symbols) :
    Yields (prepare goal) s
      (fun g s' => Opened s g s' ∧ g.isNested = true ∧ g.started = false ∧ g.isDone = false)
      s.Raised := by
  rw [prepare, yields_bind, yields_onDatabase]
  refine Yields.imp (Database.safe_compileGoal hs.database .query hgoal) (fun r d h => ?_)
    fun e d h => ⟨e, rfl, h.2, stays_of_adds hs h.1⟩
  obtain ⟨hadds, hfits⟩ := h
  have hd : Workspace.Ready ⟨d, s.engine⟩ := (stays_of_adds hs hadds).1.ready
  rw [yields_bind, yields_get]
  simp only [hs.active, if_true]
  rw [yields_bind, yields_park, yields_bind, yields_activate, yields_pure]
  exact ⟨⟨hfits, rfl, hd.awake_parked, d, hadds, .inl ⟨rfl, hs, rfl⟩⟩, rfl, rfl, rfl⟩

/-- A goal is prepared while there is none. -/
theorem yields_prepare_idle (hs : s.Idle) {goal : Term} (hgoal : goal.Fits s.symbols) :
    Yields (prepare goal) s
      (fun g s' => Opened s g s' ∧ g.isNested = false ∧ g.started = false ∧ g.isDone = false)
      fun _ s' => s'.Idle ∧ s'.engine = s.engine ∧ s.database.Adds s'.database := by
  have hready (d : Database) (hd : s.database.Adds d) : (awake ⟨d, s.engine⟩).Ready :=
    (stays_of_adds hs.ready hd).1.ready
  rw [prepare, yields_bind, yields_onDatabase]
  refine Yields.imp (Database.safe_compileGoal hs.ready.database .query hgoal) (fun r d h => ?_)
    fun e d h => ⟨⟨hs.active, hready d h.1, hs.held⟩, rfl, h.1⟩
  obtain ⟨hadds, hfits⟩ := h
  rw [yields_bind, yields_get]
  simp only [hs.active, Option.isSome_none, Bool.false_eq_true, if_false]
  rw [yields_bind, yields_activate, yields_pure]
  exact ⟨⟨hfits, rfl, hready d hadds, d, hadds, .inr ⟨rfl, hs, rfl⟩⟩, rfl, rfl, rfl⟩

/-! ### Executing -/

/-- What the call for a solution leads to. -/
structure Found (g : PreparedGoal) (p : Workspace) (o : GoalOutcome) (s : Workspace) : Prop where
  /-- What has been bound is on the trail. -/
  later : p.Later s
  /-- No choice point of before has been taken away. -/
  points : p.points <+: s.points
  /-- The depth is the same. -/
  depth : s.engine.depth = p.engine.depth
  /-- There may be more solutions. -/
  suspended : o = .more → ∃ u, p.Same u ∧ Suspended (.code g.code) g.args u s
  /-- The ball of an exception is sealed. -/
  raised : ∀ e, o = .raised e → e.Sealed s.database.terms

/-- A call in a workspace like the one in which the goal was prepared. -/
theorem Found.of_answered {u : Workspace} {a : Answer} (hu : p.Same u)
    (h : (Callee.code g.code).Answered g.args u p.engine.depth a s) :
    Found g p (.ofAnswer a) s := by
  obtain ⟨hd, h⟩ := h
  cases a with
  | more =>
    obtain ⟨hl, hp⟩ := h.reaches
    exact ⟨hu.toOwes.trans hl, hu.points ▸ hp, hd, fun _ => ⟨u, hu, h⟩, nofun⟩
  | last =>
    exact ⟨hu.toOwes.trans h.1, h.2.trans hu.points ▸ List.prefix_refl _, hd, nofun, nofun⟩
  | fail =>
    exact ⟨hu.toOwes.trans h.toOwes, h.points.trans hu.points ▸ List.prefix_refl _, hd, nofun, nofun⟩

/-- The exception that ends a call is caught, with a copy of its ball. -/
theorem yields_ofStop {u : Workspace} {e : Stop} {entered : Prop} (hu : p.Same u) :
    u.Stopped p.engine.depth entered e s →
      Yields (GoalOutcome.ofStop e) s (Found g p) fun e s' => e = .spent ∧ p.Tells s' := by
  intro h
  cases e with
  | thrown x =>
    obtain ⟨hd, hl, hp, hx, -⟩ := h
    rw [GoalOutcome.ofStop, yields_bind]
    refine (yields_onTerms_of_extending hl.ready (Exception.extending_ofTerm x.ball)).imp
      (fun y s' hy => ?_) fun _ _ h => h.elim
    obtain ⟨⟨hs, hd', -⟩, rfl, hterms⟩ := hy
    refine ⟨(hu.toOwes.trans hl).trans hs.toOwes, ?_, hd'.trans hd, by simp, fun e he => ?_⟩
    · rw [hs.points, ← hu.points]
      exact hp
    · cases he
      rw [hterms]
      exact Exception.sealed_ofTerm hl.ready.database.terms hx.fits fun v => by
        rw [Store.deref_of_nonvar _ hx.nonvar]
        exact hx.nonvar v
  | halted n =>
    obtain ⟨hd, hl, hp, -⟩ := h
    exact ⟨hu.toOwes.trans hl, hu.points ▸ hp, hd, by simp, by simp⟩
  | spent => exact ⟨rfl, hu.toOwes.tells.trans h⟩

/-- A goal is executed. -/
theorem agree_execute (hctx : ctx.Disciplined ctx') (ho : Opened b g p) (h : Searching g p s) :
    Agree (execute ctx g) (execute ctx' g) s
      (fun r s' => (Opened b r.2 p ∧ Searching r.2 p s' ∧ r.2.isNested = g.isNested ∧
        ∀ e, r.1 = .raised e → e.Sealed s'.database.terms) ∧ s.symbols.Extends s'.symbols)
      fun e s' => e = .spent ∧ p.Tells s' := by
  have hwithin := (yields_execute hctx.within g s).imp (fun _ _ h => h.1.symbols) fun _ _ h => h
  refine (Agree.and ?_ hwithin).imp (fun _ _ h => h) fun _ _ h => h.1
  rw [execute, execute]
  by_cases hdone : g.isDone = true
  · rw [if_pos hdone, if_pos hdone]
    exact .of_yields ⟨ho, h, rfl, by simp⟩
  rw [if_neg hdone, if_neg hdone]
  have hactive : s.engine.active = some g.id := h.later.active.trans ho.active
  refine .bind_same (yields_get.mpr ?_)
  simp only [hactive, ne_eq, not_true_eq_false, if_false]
  refine .bind (Q := Found g p) ?_ (fun o s' hfound => ?_) fun _ _ h => h
  · -- the call is one in `p`, or for another solution in it
    have hcall : ∃ u, p.Same u ∧ Agree (ctx.invoke (.code g.code) g.args g.started)
        (ctx'.invoke (.code g.code) g.args g.started) s
        ((Callee.code g.code).Answered g.args u p.engine.depth)
        (u.Stopped p.engine.depth True) := by
      cases hstarted : g.started with
      | false =>
        have hs := h.fresh hstarted
        exact ⟨s, hs, h.depth ▸ hctx.call _ _ s hs.ready (ho.fits.mono hs.grows)⟩
      | true =>
        obtain ⟨u, hu, hsuspended⟩ := h.suspended hstarted (by simpa using hdone)
        exact ⟨u, hu, h.depth ▸ hctx.redo _ _ u s (ho.fits.mono hu.grows) hsuspended⟩
    obtain ⟨u, hu, hcall⟩ := hcall
    exact .tryCatch (Q := Found g p) (.map (hcall.imp (fun _ _ ha => .of_answered hu ha)
      fun _ _ h => h)) (fun _ _ h => h) fun e s' he => .of_yields (yields_ofStop hu he)
  · refine .of_yields (yields_pure.mpr ⟨⟨ho.fits, ho.active, ho.ready, ho.base⟩, ⟨hfound.later,
      hfound.points, hfound.depth, by simp, fun _ hmore => ?_⟩, rfl, hfound.raised⟩)
    cases o with
    | more => exact hfound.suspended rfl
    | _ => cases hmore

/-! ### Stopping -/

/-- What is left of the search is dropped, and the cleanup goals in it are run, whatever they end
with. -/
theorem agree_drop (hctx : ctx.Disciplined ctx') (h : p.Later s) : Agree (drop ctx) (drop ctx') s
    (fun _ u => p.Reaches u ∧ p.Settles p.held [] u ∧ u.points = [] ∧
      u.engine.depth = s.engine.depth ∧ s.symbols.Extends u.symbols)
    fun e u => e = .spent ∧ p.Tells u := by
  rw [drop, drop]
  refine .bind_same ((yields_cutTo h.ready 0).imp (fun goals t ht => ?_) fun _ _ h => h.elim)
  obtain ⟨hgoals, howes, hpoints, -, hdepth⟩ := ht
  have hbegun := howes.ready.stays_told (e := .stopping) trivial rfl rfl
  have howes := howes.stays hbegun
  refine .bind_same (yields_modify.mpr ?_)
  generalize t.note (.of .stopping) = t' at hbegun howes ⊢
  -- the cleanup goals have been run, and that it is so has been told
  have hcleared {u : Workspace} (hu : t'.Clears goals u) : Yields (note .stopped) u
      (fun _ u => p.Reaches u ∧ p.Settles p.held [] u ∧ u.points = [] ∧
        u.engine.depth = s.engine.depth ∧ s.symbols.Extends u.symbols)
      fun e u => e = .spent ∧ p.Tells u := by
    have htold := hu.ready.stays_told (e := .stopped) trivial rfl rfl
    have hnone := (htold.same.points.trans hu.points).trans (hbegun.same.points.trans hpoints)
    have hlater := h.trans ((howes.clear hu).trans htold.same.toOwes)
    have hsettled := hlater.settled
    rw [List.nil_append, Workspace.held, Workspace.held, hnone] at hsettled
    exact ⟨hlater.toReaches, hsettled, hnone,
      (htold.depth.trans hu.depth).trans (hbegun.depth.trans hdepth),
      howes.symbols.trans hu.grows.symbols⟩
  have hfits (g : Term) (hg : g ∈ goals) : g.Fits t'.symbols :=
    (hgoals g hg).mono hbegun.same.symbols
  refine .bind (Q := fun _ u => t'.Clears goals u) (.tryCatch
    (hctx.cleanups goals t' howes.ready hfits) (fun _ u hu => hu) fun e u he => ?_)
    (fun _ u hu => .of_yields (hcleared hu)) fun _ _ h => h
  obtain ⟨rfl, htells⟩ | ⟨n, rfl, hu, -⟩ := he
  · exact .of_yields ⟨rfl, (h.tells.trans howes.tells).trans htells⟩
  · exact .of_yields hu

/-- Taking up the search that was set aside brings the choice points, the trail and the bindings
back. -/
theorem clears_unparked {d : Database} {u : Workspace} (hb : b.Ready) (hd : b.database.Adds d)
    (hu : (parked ⟨d, b.engine⟩).awake.Reaches u)
    (hsame : (parked ⟨d, b.engine⟩).awake.moment.Same u.moment)
    (hsettled : b.Settles [] [] u) (hdepth : u.engine.depth = b.engine.depth) :
    b.Clears [] (u.unparked ⟨b.engine.choices.points, b.engine.choices.made, b.engine.trail,
      b.engine.active⟩ b.engine.returnPoints) := by
  have hgrows : b.database.Grows u.database := hd.grows.trans hu.grows
  have hstore := hd.terms.store
  have hmoment : b.moment.Same ⟨u.database.terms.store, b.engine.trail⟩ :=
    ⟨⟨hb.recording.marked, hu.ready.recording.ordered⟩, Nat.le_trans hstore.size hsame.size, rfl,
      fun v => (hsame.value v).trans (hstore.value v)⟩
  have hready : (u.unparked ⟨b.engine.choices.points, b.engine.choices.made, b.engine.trail,
      b.engine.active⟩ b.engine.returnPoints).Ready :=
    ⟨hu.ready.database.of_grows (.refl _) hu.ready.database.terms rfl rfl, hmoment.recording,
      hb.active, fun p hp g hg => (hb.cleanups p hp g hg).mono hgrows.symbols,
      hb.made.later hmoment.before⟩
  exact ⟨⟨hready, hgrows, hu.config, hu.limit, rfl, rfl, hmoment.before⟩, hsettled, hmoment, rfl,
    hdepth⟩

/-- The search that was set aside for a goal is taken up again as it was. -/
theorem agree_stop (hctx : ctx.Disciplined ctx') (ho : Opened b g p) (hg : g.isNested = true)
    (h : Searching g p s) : Agree (stop ctx g) (stop ctx' g) s
      (fun _ s' => b.Clears [] s' ∧ s.symbols.Extends s'.symbols)
      fun e s' => e = .spent ∧ b.Tells s' := by
  obtain ⟨d, hadds, ⟨-, hb, rfl⟩ | ⟨hfalse, -⟩⟩ := ho.base
  · have hactive : s.engine.active = some g.id := h.later.active.trans ho.active
    rw [stop, stop]
    refine .bind_same (yields_get.mpr ?_)
    simp only [hactive, ne_eq, not_true_eq_false, if_false, hg, if_true]
    refine .bind (agree_drop hctx h.later) (fun _ u hu => .of_yields ?_) fun _ _ h => h
    obtain ⟨hreaches, hsettled, hnone, hdepth, hsymbols⟩ := hu
    rw [yields_bind, yields_undoTo_iff]
    refine (yields_unpark (s := rebind u (u.moment.undoTo 0)) hreaches.returnPoints).mpr ?_
    have hready := ready_undoTo hreaches.ready (n := 0) (by simp [hnone])
    have hsame := hreaches.before.same_undoTo
    exact ⟨clears_unparked (u := rebind u (u.moment.undoTo 0)) hb hadds
      ⟨hready, hreaches.grows.trans (.of_terms (.refl _)), hreaches.config, hreaches.limit,
        hreaches.returnPoints, hreaches.active, hsame.before⟩ hsame hsettled (hdepth.trans h.depth),
      hsymbols⟩
  · rw [hg] at hfalse
    cases hfalse

/-- What stopping the only goal leads to. -/
structure Closed (b s : Workspace) : Prop where
  /-- No goal is being searched for. -/
  idle : s.Idle
  /-- Nothing has been forgotten. -/
  grows : b.database.Grows s.database
  /-- There are no choice points. -/
  points : s.points = []
  /-- The trail is empty. -/
  mark : s.mark = 0
  /-- The depth is the same. -/
  depth : s.engine.depth = b.engine.depth
  /-- The searches set aside are the same. -/
  returnPoints : s.engine.returnPoints = b.engine.returnPoints
  /-- All cleanup goals have been run. -/
  settled : b.Settles b.held [] s

/-- The engine is idle again. -/
theorem agree_stop_idle (hctx : ctx.Disciplined ctx') (ho : Opened b g p) (hg : g.isNested = false)
    (h : Searching g p s) : Agree (stop ctx g) (stop ctx' g) s (fun _ s' => Closed b s')
      fun e s' => e = .spent ∧ b.Tells s' := by
  obtain ⟨d, hadds, ⟨htrue, -⟩ | ⟨-, hb, rfl⟩⟩ := ho.base
  · rw [hg] at htrue
    cases htrue
  · have hactive : s.engine.active = some g.id := h.later.active.trans ho.active
    rw [stop, stop]
    refine .bind_same (yields_get.mpr ?_)
    simp only [hactive, ne_eq, not_true_eq_false, if_false, hg, Bool.false_eq_true]
    refine .bind (agree_drop hctx h.later) (fun _ u hu => .of_yields ?_) fun _ _ h => h
    obtain ⟨hreaches, hsettled, hnone, hdepth, -⟩ := hu
    rw [yields_bind, yields_undoTo_iff, yields_modify]
    have hready := ready_undoTo hreaches.ready (n := 0) (by simp [hnone])
    have hidle : Workspace.Idle { rebind u (u.moment.undoTo 0) with
        engine := { (rebind u (u.moment.undoTo 0)).engine with active := none } } := by
      refine ⟨rfl, ⟨hready.database.of_grows (.refl _) hready.database.terms rfl rfl,
        ⟨rfl, hready.recording.ordered⟩, rfl, hready.cleanups,
        hready.made.later (Moment.same_mark _ hready.recording.ordered).before⟩, ?_⟩
      refine (held_eq (s := u) rfl).trans ?_
      rw [Workspace.held, hnone]
      rfl
    refine ⟨hidle, hadds.grows.trans (hreaches.grows.trans (.of_terms (.refl _))), hnone, ?_,
      hdepth.trans h.depth, hreaches.returnPoints, hsettled⟩
    exact (Moment.mark_undoTo u.moment 0).trans (Nat.zero_min _)

/-! ### Searches from beginning to end -/

/-- What is left behind by a search that has been run from beginning to end, without an answer. -/
def Ended (b : Workspace) (e : Stop) (s : Workspace) : Prop :=
  match e with
  | .thrown x => b.Clears [] s ∧ x.Sealed s.database.terms
  | .halted _ => b.Clears [] s
  | .spent => b.Tells s

theorem Ended.of_raised {e : Stop} (h : b.Raised e s) : Ended b e s := by
  obtain ⟨x, rfl, hx, hs⟩ := h
  exact ⟨hs.clears, hx⟩

theorem Opened.symbols (h : Opened b g p) : b.symbols.Extends p.symbols := by
  obtain ⟨d, hadds, ⟨-, -, rfl⟩ | ⟨-, -, rfl⟩⟩ := h.base
  · exact hadds.grows.symbols
  · exact hadds.grows.symbols

/-- A ball stays sealed when the search before is taken up as it was. -/
theorem Opened.sealed {t u : Workspace} {x : Exception} (h : Opened b g p) (hl : p.Later t)
    (hu : b.Clears [] u) (hs : t.symbols.Extends u.symbols) (hx : x.Sealed t.database.terms) :
    x.Sealed u.database.terms := by
  have hvalue (v : Var) : p.database.terms.store.value? v = b.database.terms.store.value? v := by
    obtain ⟨d, hadds, ⟨-, -, rfl⟩ | ⟨-, -, rfl⟩⟩ := h.base
    · exact hadds.terms.store.value v
    · exact hadds.terms.store.value v
  exact hx.mono hs fun v hv =>
    ((hu.moment.value v).trans (hvalue v).symm).trans (hl.before.free hv)

theorem Opened.tells (h : Opened b g p) : b.Tells p := by
  obtain ⟨d, -, ⟨-, -, rfl⟩ | ⟨-, -, rfl⟩⟩ := h.base
  · exact ⟨[], rfl, nofun⟩
  · exact ⟨[], rfl, nofun⟩

/-- A goal is run for its first solution. -/
theorem agree_runOnce (hctx : ctx.Disciplined ctx') (hs : s.Ready) {goal : Term}
    (hgoal : goal.Fits s.symbols) :
    Agree (runOnce ctx goal) (runOnce ctx' goal) s (fun _ s' => s.Clears [] s') (Ended s) := by
  rw [runOnce, runOnce]
  refine .bind_same ((yields_prepare hs hgoal).imp (fun g p hg => ?_) fun _ _ => .of_raised)
  obtain ⟨ho, hnested, hfresh, -⟩ := hg
  refine .bind (agree_execute hctx ho (ho.searching hfresh)) (fun r t hr => ?_) fun e t he => ?_
  · obtain ⟨⟨ho', hsearching, hnested', hraised⟩, -⟩ := hr
    refine .bind (agree_stop hctx ho' (hnested'.trans hnested) hsearching) (fun _ u hu => ?_)
      fun e u he => he.1 ▸ he.2
    obtain ⟨hclears, hsymbols⟩ := hu
    obtain ⟨o, g'⟩ := r
    cases o with
    | raised e =>
      have hball := ho'.sealed hsearching.later hclears hsymbols (hraised e rfl)
      exact .of_yields (yields_throw.mpr ⟨hclears, hball⟩)
    | _ => exact .of_yields hclears
  · exact he.1 ▸ ho.tells.trans he.2

/-- A template is copied for a solution. -/
theorem yields_copy (hs : s.Ready) {t : Term} (ht : t.Fits s.symbols) :
    Yields (onTerms (Universe.copy t)) s (fun t' s' => s.Stays s' ∧ t'.Fits s'.symbols)
      fun _ _ => False := by
  refine (yields_onTerms_of_extending hs (Universe.extending_copy t)).imp (fun t' s' h => ?_)
    fun _ _ h => h
  obtain ⟨hstays, rfl, hterms⟩ := h
  refine ⟨hstays, ?_⟩
  rw [Workspace.symbols, hterms]
  exact Universe.fits_copy hs.database.terms ht

/-- The solutions of a goal are collected. -/
theorem agree_collectLoop (hctx : ctx.Disciplined ctx') {template : Term} {limit : Option Nat}
    (n : Nat) : ∀ {g : PreparedGoal} {found : List Term} {s : Workspace}, Opened b g p →
      Searching g p s → template.Fits s.symbols → (∀ t ∈ found, t.Fits s.symbols) →
      Agree (collectLoop ctx template limit n g found) (collectLoop ctx' template limit n g found) s
        (fun r s' => Opened b r.2.2 p ∧ Searching r.2.2 p s' ∧ r.2.2.isNested = g.isNested ∧
          (∀ t ∈ r.1, t.Fits s'.symbols) ∧ ∀ e, r.2.1 = .raised e → e.Sealed s'.database.terms)
        fun e s' => e = .spent ∧ p.Tells s' := by
  induction n with
  | zero => exact fun _ h _ _ => .of_yields (yields_throw.mpr ⟨rfl, h.later.tells⟩)
  | succ n ih =>
    intro g found s ho h htemplate hfound
    rw [collectLoop, collectLoop]
    have hreverse {s : Workspace} {ts : List Term} (hts : ∀ t ∈ ts, t.Fits s.symbols) :
        ∀ t ∈ ts.reverse, t.Fits s.symbols := fun t ht => hts t (List.mem_reverse.mp ht)
    by_cases hlimit : limit.any (· ≤ found.length) = true
    · rw [if_pos hlimit, if_pos hlimit]
      exact .of_yields ⟨ho, h, rfl, hreverse hfound, by simp⟩
    rw [if_neg hlimit, if_neg hlimit]
    refine .bind (agree_execute hctx ho h) (fun r t hr => ?_) fun _ _ h => h
    obtain ⟨o, g'⟩ := r
    obtain ⟨⟨ho', h', hnested, hraised⟩, hsymbols⟩ := hr
    have hfound' : ∀ u ∈ found, u.Fits t.symbols := fun u hu => (hfound u hu).mono hsymbols
    -- one more copy
    have hcopy {u : Workspace} {c : Term} (hu : t.Stays u) (hc : c.Fits u.symbols) :
        ∀ v ∈ c :: found, v.Fits u.symbols :=
      List.forall_mem_cons.mpr ⟨hc, fun v hv => (hfound' v hv).mono hu.same.symbols⟩
    have htemplate' : template.Fits t.symbols := htemplate.mono hsymbols
    cases o with
    | more =>
      refine .bind_same ((yields_copy h'.later.ready htemplate').imp (fun c u hu => ?_)
        fun _ _ h => h.elim)
      refine (ih ho' (h'.stays hu.1) (htemplate'.mono hu.1.same.symbols) (hcopy hu.1 hu.2)).imp
        (fun r v hv => ?_) fun _ _ h => h
      obtain ⟨ho'', h'', hnested', hrest⟩ := hv
      exact ⟨ho'', h'', hnested'.trans hnested, hrest⟩
    | last =>
      refine .of_yields (yields_bind.mpr ((yields_copy h'.later.ready htemplate').imp
        (fun c u hu => ?_) fun _ _ h => h.elim))
      exact ⟨ho', h'.stays hu.1, hnested, hreverse (hcopy hu.1 hu.2), by simp⟩
    | _ => exact .of_yields ⟨ho', h', hnested, hreverse hfound', hraised⟩

/-- The solutions of a goal are collected from beginning to end. -/
theorem agree_collect (hctx : ctx.Disciplined ctx') (hs : s.Ready) {template goal : Term}
    (htemplate : template.Fits s.symbols) (hgoal : goal.Fits s.symbols) (limit : Option Nat) :
    Agree (collect ctx template goal limit) (collect ctx' template goal limit) s
      (fun found s' => s.Clears [] s' ∧ ∀ t ∈ found, t.Fits s'.symbols) (Ended s) := by
  rw [collect, collect, hctx.fuel]
  refine .bind_same ((yields_prepare hs hgoal).imp (fun g p hg => ?_) fun _ _ => .of_raised)
  obtain ⟨ho, hnested, hfresh, -⟩ := hg
  have htemplate : template.Fits p.symbols := htemplate.mono ho.symbols
  refine .bind (agree_collectLoop hctx ctx.fuel ho (ho.searching hfresh) htemplate nofun)
    (fun r t hr => ?_) fun e t he => ?_
  · obtain ⟨found, o, g'⟩ := r
    obtain ⟨ho', hsearching, hnested', hfound, hraised⟩ := hr
    refine .bind (agree_stop hctx ho' (hnested'.trans hnested) hsearching) (fun _ u hu => ?_)
      fun e u he => he.1 ▸ he.2
    obtain ⟨hclears, hsymbols⟩ := hu
    have hcollected : ∀ t ∈ found, t.Fits u.symbols := fun t ht => (hfound t ht).mono hsymbols
    cases o with
    | raised e =>
      have hball := ho'.sealed hsearching.later hclears hsymbols (hraised e rfl)
      exact .of_yields (yields_throw.mpr ⟨hclears, hball⟩)
    | halted n => exact .of_yields (yields_throw.mpr hclears)
    | _ => exact .of_yields ⟨hclears, hcollected⟩
  · exact he.1 ▸ ho.tells.trans he.2

/-- Goals are run one after the other, whatever they end with, unless one asks for the end of the
run. -/
theorem agree_runCleanups (hctx : ctx.Disciplined ctx') {goals : List Term} (hs : s.Ready)
    (hgoals : ∀ g ∈ goals, g.Fits s.symbols) :
    Agree (runCleanups ctx goals) (runCleanups ctx' goals) s (fun _ s' => s.Clears goals s')
      fun e s' => (e = .spent ∧ s.Tells s') ∨
        ∃ n, e = .halted n ∧ s.Clears goals s' ∧ s'.Asked := by
  induction goals generalizing s with
  | nil => exact .of_yields hs.stays.clears
  | cons goal goals ih =>
    rw [List.forall_mem_cons] at hgoals
    have hstarted : s.Clears [goal] (s.note (.of (.started goal))) := by
      refine hs.clears_note ?_ ?_ <;> rw [Ghost.value_of]
      · trivial
      · exact .inr (.started .nil)
    refine .bind (Q := fun _ t => s.Clears [goal] t) ?_ (fun _ t ht => ?_) fun _ _ h => h
    · refine .bind_same (yields_modify.mpr ?_)
      have hended {t : Workspace} (ht : s.Clears [goal] t) : s.Clears [goal] (t.note (.of (.ended goal))) :=
        ht.trans (ht.ready.stays_told (e := .ended goal) trivial rfl rfl).clears
      have hrun := agree_runOnce hctx hstarted.ready hgoals.1
      refine .bind (Q := fun _ t => s.Clears [goal] t) (.tryCatch (.map hrun)
        (fun _ t ht => hstarted.trans ht) fun e t he => .of_yields ?_)
        (fun _ t ht => .of_yields (yields_modify.mpr (hended ht))) fun _ _ h => h
      cases e with
      | thrown x => exact hstarted.trans he.1
      | halted n =>
        -- nothing is said of the goals that are not started any more
        have hhalted : t.Clears goals (t.note (.of (.halted goal))) := by
          refine he.ready.clears_note ?_ ?_ <;> rw [Ghost.value_of]
          · trivial
          · exact .inl ⟨goal, List.mem_singleton_self _⟩
        have hasked : (t.note (.of (.halted goal))).Asked :=
          ⟨goal, t.chronicle, (chronicle_note _ _).trans (by rw [Ghost.value_of])⟩
        exact .inr ⟨n, rfl, (hstarted.trans he).trans hhalted, hasked⟩
      | spent => exact .inl ⟨rfl, hstarted.settled.tells.trans he⟩
    · refine (ih ht.ready fun g hg => (hgoals.2 g hg).mono ht.grows.symbols).imp
        (fun _ u hu => ht.trans hu) fun e u he => ?_
      obtain ⟨rfl, htells⟩ | ⟨n, rfl, hu, hasked⟩ := he
      · exact .inl ⟨rfl, ht.settled.tells.trans htells⟩
      · exact .inr ⟨n, rfl, ht.trans hu, hasked⟩

end Engine

end Resolvent
