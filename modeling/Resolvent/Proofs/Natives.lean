import Resolvent.Proofs.Searching

/-!
# Calls of the predicates that every database has

A call of `between/3`, `findall/3`, `call_cleanup/2` or `halt` leaves the choice stack as any callee
does (`Builtin.agree_call`), and so does a redo (`Builtin.agree_redo`), provided that the calls which
the predicate makes in turn do.

A range has a solution for each of its integers, because it is only asked for them while the argument
is unbound. `call_cleanup/2` runs its cleanup goal when its goal has ended, however that ends
(`Builtin.agree_conclude`).
-/

namespace Resolvent

open Workspace

namespace Builtin

variable {s s₀ ρ t u : Workspace} {ctx ctx' : Context} {args : Array Term} {b : Builtin}

theorem fits_argument {sym : Symbols} (hargs : ∀ t ∈ args, t.Fits sym) (i : Nat) :
    (argument args i).Fits sym := by
  unfold argument
  cases h : args[i]? with
  | none => exact .const _
  | some t => exact hargs t (Array.mem_of_getElem? h)

/-! ### Ranges -/

theorem yields_integer (hs : s.Ready) {t : Term} (ht : t.Fits s.symbols) :
    Yields (integer t) s (fun _ s' => s' = s) s.Raised := by
  have hderef := hs.database.terms.store.deref ht
  rw [integer, yields_bind, Engine.yields_deref]
  split
  · exact Engine.yields_raise hs (e := .instantiation) trivial _
  · rfl
  · exact Engine.yields_raise hs (e := .type "integer" _) hderef _

theorem yields_rangeEnd (hs : s.Ready) {t : Term} (ht : t.Fits s.symbols) :
    Yields (rangeEnd t) s (fun _ s' => s' = s) s.Raised := by
  rw [rangeEnd, yields_bind, Engine.yields_deref]
  split
  · rw [yields_bind, yields_get]
    dsimp only
    split
    · rfl
    · exact yields_bind.mpr ((yields_integer hs ht).imp (fun _ _ h => h) fun _ _ h => h)
  · exact yields_bind.mpr ((yields_integer hs ht).imp (fun _ _ h => h) fun _ _ h => h)

/-- An unbound variable is unified with a constant. -/
theorem yields_unify_free (hs : s.Ready) {t : Term} (ht : t.Fits s.symbols) {v : Var}
    (hv : s.database.terms.store.deref t = .var v) (n : Nat) (c : Constant) :
    Yields (Engine.unify n t (.const c)) s
      (fun b s' => b = true ∧ s.Later s' ∧ s'.points = s.points ∧ s'.engine.depth = s.engine.depth)
      fun e s' => e = .spent ∧ s.Tells s' := by
  have hne := Moment.unify_ne_false (τ := s.engine.trail) (n := n) (c := c) hv
  have htrue : Yields (Engine.unify n t (.const c)) s (fun b _ => b = true) fun _ _ => True := by
    rw [Engine.unify, yields_bind, Engine.yields_onBindings]
    cases h : (unify n t (.const c) s.database.terms.store s.engine.trail).1 with
    | none => trivial
    | some b =>
      cases b with
      | true => rfl
      | false => exact absurd h hne
  exact (htrue.and (Engine.yields_unify hs ht (.const c) n)).imp
    (fun b s' h => ⟨h.1, h.2.1, h.2.2.1, h.2.2.2.1⟩) fun _ _ h => h.2

/-- An integer of a range is reported in a workspace in which the argument is unbound. -/
theorem yields_reportRange (hρ : ρ.Same s) (hargs : ∀ t ∈ args, t.Fits s.symbols) {v : Var}
    (hv : ρ.database.terms.store.deref (argument args 2) = .var v) (n : Int64)
    (last : Option Int64) : Yields (reportRange ctx (argument args 2) n last) s
      ((Callee.native (.builtin .between)).Answered args ρ s.engine.depth)
      (ρ.Stopped s.engine.depth False) := by
  have hs := hρ.ready
  have ht := fits_argument hargs 2
  have hfree : s.database.terms.store.deref (argument args 2) = .var v :=
    (hρ.moment.deref (argument args 2)).trans hv
  -- what has been found in a workspace that differs from this one in choice points only
  have hreport (m : Answer) {t : Workspace} (hst : s.Later t) (hd : t.engine.depth = s.engine.depth)
      (hm : s.moment.Same t.moment)
      (hanswer : ∀ u, t.Later u → u.points = t.points → u.engine.depth = t.engine.depth →
        (Callee.native (.builtin .between)).Answered args ρ s.engine.depth m u) :
      Yields (do
        if ← Engine.unify ctx.fuel (argument args 2) (.int n) then return m
        else return .fail) t
        ((Callee.native (.builtin .between)).Answered args ρ s.engine.depth)
        (ρ.Stopped s.engine.depth False) := by
    have hfree : t.database.terms.store.deref (argument args 2) = .var v :=
      (hm.deref (argument args 2)).trans hfree
    rw [yields_bind]
    refine (yields_unify_free hst.ready (ht.mono hst.symbols) hfree ctx.fuel _).imp
      (fun b u hu => ?_) fun e u he => ?_
    · obtain ⟨rfl, hl, hp, hd⟩ := hu
      exact hanswer u hl hp hd
    · obtain ⟨rfl, htells⟩ := he
      exact (hρ.toOwes.trans hst).tells.trans htells
  unfold reportRange
  split
  · exact ⟨rfl, hρ⟩
  dsimp only
  split
  · -- the last integer
    refine hreport .last hs.later rfl (.refl hs.recording) fun u hl hp hd => ⟨hd, ?_⟩
    exact ⟨hρ.toOwes.trans hl, hp.trans hρ.points⟩
  · rw [yields_bind]
    refine (Engine.yields_pushChoice hs (by simp [ChoicePoint.cleanup?])).imp (fun _ t ht => ?_)
      fun e t ht => ht.stopped hρ _
    obtain ⟨hl, hp, hm, hd⟩ := ht
    refine hreport .more hl hd hm fun u hu hpu hdu => ⟨hdu.trans hd, ?_⟩
    have hpoints : u.points = ρ.points ++ [⟨ρ.mark, .native (.range (n + 1) last)⟩] := by
      rw [hpu, hp, hρ.points, Workspace.mark, hρ.moment.mark_eq]
    exact .range hv ((hρ.toOwes.trans hl).trans hu) hpoints

theorem yields_between_call (hs : s.Ready) (hargs : ∀ t ∈ args, t.Fits s.symbols) :
    Yields (runBetween ctx false args) s
      ((Callee.native (.builtin .between)).Answered args s s.engine.depth)
      (s.Stopped s.engine.depth False) := by
  have hraised (e : Stop) (t : Workspace) (h : s.Raised e t) :
      s.Stopped s.engine.depth False e t :=
    h.stopped hs.same _
  rw [runBetween, if_neg Bool.false_ne_true, yields_bind]
  refine (yields_integer hs (fits_argument hargs 0)).imp (fun low t ht => ?_) hraised
  subst ht
  rw [yields_bind]
  refine (yields_rangeEnd hs (fits_argument hargs 1)).imp (fun high t ht => ?_) hraised
  subst ht
  rw [yields_bind, Engine.yields_deref]
  split
  · rename_i v hv
    exact yields_reportRange hs.same hargs hv low high
  · rw [yields_pure]
    split
    · exact ⟨rfl, hs.later, rfl⟩
    · exact ⟨rfl, hs.same⟩
  · have hderef := hs.database.terms.store.deref (fits_argument hargs 2)
    exact (Engine.yields_raise hs (e := .type "integer" _) hderef _).imp (fun _ _ h => h) hraised

theorem yields_between_redo (hargs : ∀ t ∈ args, t.Fits s.symbols)
    (h : Suspended (.native (.builtin .between)) args s₀ s) : Yields (runBetween ctx true args) s
      ((Callee.native (.builtin .between)).Answered args s₀ s.engine.depth)
      (s₀.Stopped s.engine.depth False) := by
  cases h with
  | range free later points =>
    rw [runBetween, if_pos rfl, yields_bind]
    have hready := later.ready
    have hwithin := (Engine.keeps_popNativeState s).imp (fun _ _ h => h.symbols) fun _ _ _ => trivial
    refine ((Engine.yields_popNativeState later points).and hwithin).imp (fun r t ht => ?_)
      fun _ _ h => h.1.elim
    obtain ⟨⟨rfl, hsame, hd⟩, hsymbols⟩ := ht
    rw [← hd]
    exact yields_reportRange hsame (fun t ht => (hargs t ht).mono hsymbols) free _ _

/-! ### Solutions -/

/-- What a search of its own ends with is what a native predicate ends with. -/
theorem stopped_of_ended {e : Stop} (h : Engine.Ended s e t) :
    s.Stopped s.engine.depth False e t := by
  cases e with
  | thrown x =>
    obtain ⟨hclears, hx⟩ := h
    exact ⟨hclears.depth, hclears.stays.same.toOwes, hclears.points ▸ List.prefix_refl _, hx,
      False.elim⟩
  | halted n =>
    exact ⟨h.depth, h.stays.same.toOwes, h.points ▸ List.prefix_refl _,
      fun htop => .inl ((htop.resolve_left id).of_points h.points)⟩
  | spent => exact h

theorem agree_findall (hctx : ctx.Disciplined ctx') (hs : s.Ready)
    (hargs : ∀ t ∈ args, t.Fits s.symbols) : Agree (runFindall ctx args) (runFindall ctx' args) s
      ((Callee.native (.builtin .findall)).Answered args s s.engine.depth)
      (s.Stopped s.engine.depth False) := by
  rw [runFindall, runFindall, hctx.fuel]
  refine .bind (Engine.agree_collect hctx hs (fits_argument hargs 0) (fits_argument hargs 1) none)
    (fun found t ht => ?_) fun e t he => stopped_of_ended he
  obtain ⟨hclears, hfound⟩ := ht
  have hlist := (Engine.yields_onTerms_of_extending hclears.ready
    (Universe.extending_list found (.atom .nil)))
  refine .of_yields (yields_bind.mpr (hlist.imp (fun list u hu => ?_) fun _ _ h => h.elim))
  obtain ⟨hstays, rfl, hterms⟩ := hu
  have hsame := hclears.stays.same.trans hstays.same
  have hfits : Term.Fits u.symbols (Universe.list found (.atom .nil) t.database.terms).1 := by
    rw [Workspace.symbols, hterms]
    exact Universe.fits_list hclears.ready.database.terms hfound (.const _)
  have hdepth := hstays.depth.trans hclears.depth
  rw [Engine.unifyOnce, yields_bind]
  refine (Engine.yields_unify hsame.ready ((fits_argument hargs 2).mono hsame.symbols) hfits _).imp
    (fun b v hv => ?_) fun e v he => he.1 ▸ hsame.toOwes.tells.trans he.2
  obtain ⟨hl, hp, hd, hfalse⟩ := hv
  cases b with
  | true => exact ⟨hd.trans hdepth, hsame.toOwes.trans hl, hp.trans hsame.points⟩
  | false =>
    exact ⟨hd.trans hdepth, hsame.toOwes.trans hl, hsame.moment.trans (hfalse rfl),
      hp.trans hsame.points⟩

/-! ### Cleanup goals -/

/-- The cleanup goal of a call has been run. -/
structure Concluded (s t u : Workspace) (goal : Term) : Prop where
  /-- What was bound since the call is on the trail. -/
  later : s.Later u
  /-- The choice points of before the call are there. -/
  points : s.points <+: u.points
  /-- The depth is the same. -/
  depth : u.engine.depth = t.engine.depth
  /-- The tags are kept. -/
  symbols : t.symbols.Extends u.symbols
  /-- The bindings and the trail are kept. -/
  moment : t.moment.Same u.moment
  /-- Where there was nothing above the cleanup point, the choice points are those of before. -/
  same : t.points = s.points ++ [⟨s.mark, .cleanup goal⟩] → u.points = s.points
  /-- No cleanup point has come to lie on top. -/
  topped : s.Topped → u.Topped

/-- The cleanup goal of a call is run after the goal has ended. -/
theorem agree_conclude (hctx : ctx.Disciplined ctx') {goal : Term} (ht : s.Later t)
    (hp : s.points ++ [⟨s.mark, .cleanup goal⟩] <+: t.points)
    (htop : t.Topped ∨ t.points = s.points ++ [⟨s.mark, .cleanup goal⟩])
    (result : Except Stop Answer) :
    Agree (conclude ctx result) (conclude ctx' result) t
      (fun a u => result = .ok a ∧ Concluded s t u goal)
      fun e u => e = .spent ∧ s.Tells u ∨
        (result = .error e ∨ ∃ n, e = .halted n) ∧ Concluded s t u goal := by
  refine .bind_same ((Engine.yields_popCleanup ht.ready).imp (fun r u hu => ?_) fun _ _ h => h.elim)
  obtain ⟨howes, hmoment, hdepth, hcases⟩ := hu
  have hgoals : ∀ g ∈ r.toList, g.Fits u.symbols := by
    obtain ⟨rfl, -, -⟩ | ⟨l, m, g, rfl, -, -, hg⟩ := hcases
    · simp
    · simpa using hg
  have hconcluded {v : Workspace} (hv : u.Clears r.toList v) : Concluded s t v goal := by
    have hsame (heq : t.points = s.points ++ [⟨s.mark, .cleanup goal⟩]) : v.points = s.points := by
      obtain ⟨rfl, -, hnone⟩ | ⟨l, m, g, rfl, hpt, hpu, -⟩ := hcases
      · have := hnone ⟨s.mark, .cleanup goal⟩ (by rw [heq, List.getLast?_concat]; rfl)
        cases this
      · obtain ⟨rfl, -⟩ := List.append_inj' (heq.symm.trans hpt) rfl
        exact hv.points.trans hpu
    refine ⟨ht.trans (howes.clear hv), ?_, hv.depth.trans hdepth,
      howes.symbols.trans hv.grows.symbols, hmoment ▸ hv.moment, hsame, fun hs => ?_⟩
    · rw [hv.points]
      obtain ⟨rfl, hpu, -⟩ | ⟨l, m, g, rfl, hpt, hpu, -⟩ := hcases
      · exact hpu ▸ (List.prefix_append _ _).trans hp
      · -- the choice point that has been taken away lies above those of before the call
        obtain ⟨l', hl'⟩ := hp
        have hlen : s.points.length ≤ l.length := by
          have := congrArg List.length (hl'.trans hpt)
          simp only [List.length_append, List.length_singleton] at this
          omega
        rw [hpu]
        refine List.prefix_of_prefix_length_le ?_ (List.prefix_append l [⟨m, .cleanup g⟩]) hlen
        exact hpt ▸ hl' ▸ (List.prefix_append _ _).trans (List.prefix_append _ _)
    · obtain htop | heq := htop
      · obtain ⟨rfl, hpu, -⟩ | ⟨l, m, g, rfl, hpt, -⟩ := hcases
        · exact htop.of_points (hv.points.trans hpu)
        · -- a cleanup point on top
          obtain ⟨p, hlast, hnone⟩ := htop
          rw [hpt, List.getLast?_concat] at hlast
          cases hlast
          cases hnone
      · exact hs.of_points (hsame heq)
  refine .bind (hctx.cleanups r.toList u howes.ready hgoals) (fun _ v hv => .of_yields ?_)
    fun e v hv => ?_
  · cases result with
    | ok a => exact ⟨rfl, hconcluded hv⟩
    | error e => exact .inr ⟨.inl rfl, hconcluded hv⟩
  · obtain ⟨rfl, htells⟩ | ⟨n, rfl, hv, -⟩ := hv
    · exact .inl ⟨rfl, (ht.tells.trans howes.tells).trans htells⟩
    · exact .inr ⟨.inr ⟨n, rfl⟩, hconcluded hv⟩

/-- How the goal of a call of `call_cleanup/2` has ended, called above the cleanup point. -/
def CallEnded (code : Code) (vars : Array Term) (s : Workspace) (d : Nat) :
    Except Stop Answer → Workspace → Prop
  | .ok a, t => (Callee.code code).Answered vars s d a t
  | .error e, t => s.Stopped d True e t

/-- What running the cleanup goal ends with ends the call. -/
theorem stopped_of_concluded {goal : Term} {result : Except Stop Answer} {d : Nat} {e : Stop}
    (hd : t.engine.depth = d)
    (hx : ∀ x, result = .error (.thrown x) → x.Sealed t.database.terms)
    (h : e = .spent ∧ s.Tells u ∨
      (result = .error e ∨ ∃ n, e = .halted n) ∧ Concluded s t u goal) :
    s.Stopped d False e u := by
  obtain ⟨rfl, htells⟩ | ⟨he, hu⟩ := h
  · exact htells
  · have hdepth := hu.depth.trans hd
    cases e with
    | thrown x =>
      obtain rfl | ⟨n, hn⟩ := he
      · exact ⟨hdepth, hu.later, hu.points,
          (hx x rfl).mono hu.symbols fun v hv => (hu.moment.value v).trans hv,
        False.elim⟩
      · cases hn
    | halted n =>
      exact ⟨hdepth, hu.later, hu.points, fun htop => .inl (hu.topped (htop.resolve_left id))⟩
    | spent => exact hu.later.tells

/-- The goal of a call of `call_cleanup/2` has been called, or asked for another solution, above the
cleanup point. -/
theorem agree_finish (hctx : ctx.Disciplined ctx') {vars : Array Term} {code : Code} {goal : Term}
    {redo : Bool} {d : Nat} (later₁ : s.Later s₀) (same : s.moment.Same s₀.moment)
    (points₁ : s₀.points = s.points ++ [⟨s.mark, .cleanup goal⟩])
    (fits : (Callee.code code).Fits s₀.database vars)
    (hcall : Agree (ctx.invoke (.code code) vars redo) (ctx'.invoke (.code code) vars redo) t
      ((Callee.code code).Answered vars s₀ d) (s₀.Stopped d True)) :
    Agree (finish ctx code vars redo) (finish ctx' code vars redo) t
      ((Callee.native (.builtin .callCleanup)).Answered args s d)
      (s.Stopped d False) := by
  have hended : Agree
      (tryCatch (Except.ok <$> ctx.invoke (.code code) vars redo) fun e => return .error e)
      (tryCatch (Except.ok <$> ctx'.invoke (.code code) vars redo) fun e => return .error e) t
      (CallEnded code vars s₀ d) fun _ _ => False :=
    .tryCatch (.map hcall) (fun _ _ h => h) fun e u he => .of_yields he
  rw [finish, finish]
  refine hended.bind (fun r u hr => ?_) fun _ _ h => h.elim
  have habove {v : Workspace} (hl : s₀.Later v) (hp : s₀.points <+: v.points)
      (htop : v.Topped ∨ v.points = s₀.points) :=
    agree_conclude hctx (later₁.trans hl) (points₁ ▸ hp) (points₁ ▸ htop) r
  cases r with
  | ok a =>
    cases a with
    | more =>
      obtain ⟨hd, hsuspended⟩ := hr
      obtain ⟨hl, hp⟩ := hsuspended.reaches
      refine .of_yields (yields_bind.mpr ((Engine.yields_pushChoice hl.ready
        (by simp [ChoicePoint.cleanup?])).imp (fun _ v hv => ?_) fun e v hv => ?_))
      · obtain ⟨hlv, hpv, -, hdv⟩ := hv
        exact ⟨hdv.trans hd, .goal later₁ same points₁ fits hsuspended hlv hpv⟩
      · obtain ⟨x, rfl, hx, hv⟩ := hv
        refine ⟨hv.depth.trans hd, later₁.trans (hl.trans hv.same.toOwes), ?_, hx, False.elim⟩
        rw [hv.same.points]
        exact (points₁ ▸ List.prefix_append _ _).trans hp
    | last =>
      obtain ⟨hd, hl, hp⟩ := hr
      refine (habove hl (hp ▸ List.prefix_refl _) (.inr hp)).imp (fun a v hv => ?_)
        fun e v hv => stopped_of_concluded hd (by simp) hv
      obtain ⟨ha, hv⟩ := hv
      cases ha
      exact ⟨hv.depth.trans hd, hv.later, hv.same (hp.trans points₁)⟩
    | fail =>
      obtain ⟨hd, hs⟩ := hr
      refine (habove hs.toOwes (hs.points ▸ List.prefix_refl _) (.inr hs.points)).imp
        (fun a v hv => ?_)
        fun e v hv => stopped_of_concluded hd (by simp) hv
      obtain ⟨ha, hv⟩ := hv
      cases ha
      exact ⟨hv.depth.trans hd, hv.later, (same.trans hs.moment).trans hv.moment,
        hv.same (hs.points.trans points₁)⟩
  | error e =>
    cases e with
    | thrown x =>
      obtain ⟨hd, hl, hp, hx, hsame⟩ := hr
      refine (habove hl hp ((hsame trivial).imp id (·.points))).imp (fun a v hv => by cases hv.1)
        fun e v hv => ?_
      refine stopped_of_concluded hd (fun y hy => ?_) hv
      cases hy
      exact hx
    | halted n =>
      obtain ⟨hd, hl, hp, htop⟩ := hr
      have htop := htop (.inl trivial)
      have htold := hl.ready.stays_interrupt (htop.imp id And.left)
      have hpoints := htold.same.points
      refine .bind_same (yields_modify.mpr ?_)
      refine (habove (hl.trans htold.same.toOwes) (hpoints ▸ hp) (htop.imp (·.of_points hpoints)
        fun h => hpoints.trans h.2)).imp (fun a v hv => by cases hv.1)
        fun e v hv => stopped_of_concluded (htold.depth.trans hd) (by simp) hv
    | spent => exact .of_yields (later₁.tells.trans hr)

theorem agree_callCleanup (hctx : ctx.Disciplined ctx') (hs : s.Ready)
    (hargs : ∀ t ∈ args, t.Fits s.symbols) :
    Agree (runCallCleanup ctx false args) (runCallCleanup ctx' false args) s
      ((Callee.native (.builtin .callCleanup)).Answered args s s.engine.depth)
      (s.Stopped s.engine.depth False) := by
  rw [runCallCleanup, runCallCleanup, if_neg Bool.false_ne_true, if_neg Bool.false_ne_true]
  have hraised (e : Stop) (t : Workspace) (h : s.Raised e t) :
      s.Stopped s.engine.depth False e t :=
    h.stopped hs.same _
  refine .bind_same ((Engine.yields_onDatabase_of_safe hs (Database.safe_compileGoal hs.database
    .metaCall (fits_argument hargs 0))).imp (fun r t ht => ?_) hraised)
  obtain ⟨hst, hfits⟩ := ht
  have hgoal : (argument args 1).Fits t.symbols := (fits_argument hargs 1).mono hst.same.symbols
  refine .bind_same ((Engine.yields_pushChoice hst.same.ready
    (by simpa [ChoicePoint.cleanup?] using hgoal)).imp (fun _ u hu => ?_)
    fun e u hu => hraised e u (.of_stays hst hu))
  obtain ⟨hl, hp, hm, hd⟩ := hu
  have hpoints : u.points = s.points ++ [⟨s.mark, .cleanup (argument args 1)⟩] := by
    rw [hp, hst.same.points, Workspace.mark, hst.same.moment.mark_eq]
  have hfits := hfits.mono hl.grows.retains
  have hdepth := hd.trans hst.depth
  exact agree_finish hctx (hst.same.toOwes.trans hl) (hst.same.moment.trans hm) hpoints hfits
    (hdepth ▸ hctx.call _ _ u hl.ready hfits)

theorem agree_callCleanup_redo (hctx : ctx.Disciplined ctx')
    (h : Suspended (.native (.builtin .callCleanup)) args s₀ s) :
    Agree (runCallCleanup ctx true args) (runCallCleanup ctx' true args) s
      ((Callee.native (.builtin .callCleanup)).Answered args s₀ s.engine.depth)
      (s₀.Stopped s.engine.depth False) := by
  cases h with
  | goal later₁ same points₁ fits suspended later₂ points₂ =>
    rw [runCallCleanup, runCallCleanup, if_pos rfl, if_pos rfl]
    refine .bind_same ((Engine.yields_popNativeState later₂ points₂).imp (fun r t ht => ?_)
      fun _ _ h => h.elim)
    obtain ⟨rfl, hsame, hd⟩ := ht
    have hsuspended := suspended.same hsame.toOwes hsame.points
    exact agree_finish hctx later₁ same points₁ fits (hd ▸ hctx.redo _ _ _ _ fits hsuspended)

/-! ### The end of the run -/

/-- That the end of the run is asked for is told. -/
theorem yields_quit (hs : s.Ready) (n : Int) (Q : Answer → Workspace → Prop) :
    Yields (Engine.quit n) s Q (s.Stopped s.engine.depth False) := by
  have htold := hs.stays_told (e := .quit n) trivial rfl rfl
  have hpoints := htold.same.points
  rw [Engine.quit, yields_bind, Engine.note, yields_modify, yields_throw]
  exact ⟨htold.depth, htold.same.toOwes, hpoints ▸ List.prefix_refl _,
    fun htop => .inl ((htop.resolve_left id).of_points hpoints)⟩

theorem yields_halt (hs : s.Ready) (hargs : ∀ t ∈ args, t.Fits s.symbols) :
    Yields (runHalt args) s ((Callee.native (.builtin .halt)).Answered args s s.engine.depth)
      (s.Stopped s.engine.depth False) := by
  unfold runHalt
  split
  · exact yields_quit hs 0 _
  rw [yields_bind]
  refine (yields_integer hs (fits_argument hargs 0)).imp (fun n t ht => ?_)
    fun e t h => h.stopped hs.same _
  subst ht
  dsimp only
  split
  · exact yields_quit hs n.toInt _
  · exact (Engine.yields_raise hs (e := .representation _) trivial _).imp (fun _ _ h => h)
      fun e t h => h.stopped hs.same _

/-! ### All of them -/

/-- A call leaves the choice stack as it should. -/
theorem agree_call (hctx : ctx.Disciplined ctx') (b : Builtin) (hs : s.Ready)
    (hargs : ∀ t ∈ args, t.Fits s.symbols) :
    Agree (b.execute ctx false args) (b.execute ctx' false args) s
      ((Callee.native (.builtin b)).Answered args s s.engine.depth)
      (s.Stopped s.engine.depth False) := by
  cases b with
  | between =>
    have hfuel : runBetween ctx' false args = runBetween ctx false args := by
      unfold runBetween reportRange
      rw [hctx.fuel]
    exact ⟨congrFun hfuel s, yields_between_call hs hargs⟩
  | findall => exact agree_findall hctx hs hargs
  | callCleanup => exact agree_callCleanup hctx hs hargs
  | halt => exact .of_yields (yields_halt hs hargs)

/-- A redo leaves the choice stack as it should. -/
theorem agree_redo (hctx : ctx.Disciplined ctx') (b : Builtin)
    (hargs : ∀ t ∈ args, t.Fits s.symbols) (h : Suspended (.native (.builtin b)) args s₀ s) :
    Agree (b.execute ctx true args) (b.execute ctx' true args) s
      ((Callee.native (.builtin b)).Answered args s₀ s.engine.depth)
      (s₀.Stopped s.engine.depth False) := by
  cases b with
  | between =>
    have hfuel : runBetween ctx' true args = runBetween ctx true args := by
      unfold runBetween reportRange
      rw [hctx.fuel]
    exact ⟨congrFun hfuel s, yields_between_redo hargs h⟩
  | findall => cases h
  | callCleanup => exact agree_callCleanup_redo hctx h
  | halt => cases h

end Builtin

end Resolvent
