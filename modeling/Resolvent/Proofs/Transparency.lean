import Resolvent.Proofs.Following
import Resolvent.Proofs.Leveling

/-!
# Goals with cleanup goals

`call_cleanup/2` gives the answers of its first argument, as `call/1` gives them, and ends as that ends
(`Builtin.callCleanup_transparent`). Its goal is searched for on another footing
(`Footing.onCleanup`): on top of the cleanup point, and one level deeper. So its search runs beside that
of `call/1` (`Solver.level_context`), and what is left to compare is what `call_cleanup/2` does when its
goal has come to an answer or an end (`Builtin.covers_finish`). After an answer with more to come it keeps
the code of the goal on top of the choice points of the goal (`Workspace.HoldsAbove`), and takes it back
before it asks for another solution. After the last answer the cleanup point is on top, and the cleanup
goal is run as a search of its own, of which nothing is left but terms.
-/

namespace Resolvent

variable {F : Footing} {l : List ChoicePoint} {s t : Workspace} {ctx ctx' : Context}

/-! ### What is compared -/

/-- A call of `call/1` with a goal, or a call for another solution. The goal is compiled as code that is
called, and the code and its arguments are kept for a call for another solution. -/
def Context.callGoal (ctx : Context) (goal : Term) :
    Option (Code × Array Term) → EngineM (Answer × Code × Array Term)
  | none => do
    let (code, vars) ← Engine.onDatabase (Database.controlCode (.call 0) [goal])
    return (← ctx.invoke (.code code) vars false, code, vars)
  | some (code, vars) => return (← ctx.invoke (.code code) vars true, code, vars)

/-- A call as a call instruction makes it: what the tag leads to is looked for and called. -/
def Context.callTag (ctx : Context) (site : Nat) (tag : Tag) (args : Array Term) : EngineM Answer := do
  match ← Activation.findCallee site tag args with
  | none => return .fail
  | some (callee, args) => ctx.invoke callee args false

/-- A call of `call_cleanup/2`, or a call for another solution. -/
abbrev Context.callCleanup (ctx : Context) (goal cleanup : Term) (redo : Bool) : EngineM Answer :=
  ctx.invoke (.native (.builtin .callCleanup)) #[goal, cleanup] redo

/-- The cleanup goal has just been run and has ended the run in this way. -/
def Context.CleanupStops (ctx : Context) (goal : Term) (e : Stop) (t : Workspace) : Prop :=
  ∃ s u, ctx.runCleanups [goal] s = .error e u ∧ t = u.atDepth t.engine.depth

/-- An exception does not get out of a cleanup goal, so what ends the run is a goal that asks for it, or want
of fuel. -/
theorem Context.CleanupStops.halted_or_spent {host : Host} {n : Nat} {goal : Term} {e : Stop}
    (h : (Solver.context host n).CleanupStops goal e t) : (∃ status, e = .halted status) ∨ e = .spent := by
  obtain ⟨s, u, hx, -⟩ := h
  cases n with
  | zero =>
    cases hx
    exact .inr rfl
  | succ n =>
    have hany {α : Type} (x : EngineM α) (s : Workspace) : Yields x s (fun _ _ => True) fun _ _ => True := by
      unfold Yields
      split <;> trivial
    have hstopped (e : Stop) (s : Workspace) : Yields (Engine.cleanupStopped goal e) s (fun _ _ => True)
        fun e _ => (∃ status, e = .halted status) ∨ e = .spent := by
      cases e with
      | thrown x => trivial
      | halted status => exact .inl ⟨status, rfl⟩
      | spent => exact .inr rfl
    have hrun : Yields (Engine.runCleanups (Solver.context host n) [goal]) s (fun _ _ => True)
        fun e _ => (∃ status, e = .halted status) ∨ e = .spent := by
      refine yields_bind.mpr (yields_bind.mpr (yields_modify.mpr (yields_bind.mpr (yields_tryCatch.mpr ?_))))
      exact (hany _ _).imp (fun _ _ _ => trivial) fun e s _ => (hstopped e s).imp (fun _ _ _ => trivial)
        fun _ _ h => h
    exact yields_error (E := fun e _ => (∃ status, e = .halted status) ∨ e = .spent) hrun hx

namespace Workspace

/-- The workspaces have the same database, bindings and trail, the same limits, and are those of the same
search at the same depth. Their choice points may differ. -/
structure Alike (s t : Workspace) : Prop where
  /-- The database, with the bindings. -/
  database : t.database = s.database
  /-- The limits and switches. -/
  config : t.engine.config = s.engine.config
  /-- The limit of the choice stack. -/
  limit : t.engine.choices.limit = s.engine.choices.limit
  /-- The trail. -/
  trail : t.engine.trail = s.engine.trail
  /-- The depth. -/
  depth : t.engine.depth = s.engine.depth
  /-- The searches set aside. -/
  returnPoints : t.engine.returnPoints = s.engine.returnPoints
  /-- The goal. -/
  active : t.engine.active = s.engine.active
  /-- The number of the next goal. -/
  nextGoal : t.engine.nextGoal = s.engine.nextGoal

theorem Alike.trans {u : Workspace} (h : s.Alike t) (h' : t.Alike u) : s.Alike u :=
  ⟨h'.database.trans h.database, h'.config.trans h.config, h'.limit.trans h.limit, h'.trail.trans h.trail,
    h'.depth.trans h.depth, h'.returnPoints.trans h.returnPoints, h'.active.trans h.active,
    h'.nextGoal.trans h.nextGoal⟩

/-- Both are one level deeper. -/
theorem Alike.deeper (h : s.Alike t) :
    (s.atDepth (s.engine.depth + 1)).Alike (t.atDepth (t.engine.depth + 1)) :=
  { h with depth := congrArg (· + 1) h.depth }

/-- Nothing has been bound, undone or put on the choice stack between the workspaces, and nothing that
was in the database has been forgotten. -/
structure Unaffected (s t : Workspace) : Prop extends Reaches s t where
  /-- The bindings and the trail. -/
  moment : s.moment.Same t.moment
  /-- The choice points. -/
  points : t.points = s.points
  /-- The depth. -/
  depth : t.engine.depth = s.engine.depth

/-- How the workspaces of a call of `call/1` and of `call_cleanup/2` compare after an answer. -/
def Reported (a : Answer) (s t : Workspace) : Prop :=
  match a with
  | .more => s.Alike t
  | _ => s.Unaffected t

end Workspace

/-- The callee may be called, or asked for another solution as it has been left. -/
inductive Pends (callee : Callee) (args : Array Term) (ρ : Workspace) : Bool → Workspace → Prop where
  /-- It may be called. -/
  | call (hs : ρ.Ready) (hfits : callee.Fits ρ.database args) : Pends callee args ρ false ρ
  /-- It may be asked for another solution. -/
  | redo {s : Workspace} (hfits : callee.Fits ρ.database args) (h : Suspended callee args ρ s) :
    Pends callee args ρ true s

theorem Pends.fits {callee : Callee} {args : Array Term} {ρ : Workspace} {redo : Bool}
    (h : Pends callee args ρ redo s) : callee.Fits ρ.database args := by
  cases h with
  | call _ hfits => exact hfits
  | redo hfits _ => exact hfits

theorem Pends.ready {callee : Callee} {args : Array Term} {ρ : Workspace} {redo : Bool}
    (h : Pends callee args ρ redo s) : s.Ready := by
  cases h with
  | call hs _ => exact hs
  | redo _ h => exact h.reaches.1.ready

theorem Pends.same {callee : Callee} {args : Array Term} {ρ : Workspace} (h : Pends callee args ρ true s)
    (hs : s.Same t) : Pends callee args ρ true t := by
  cases h with
  | redo hfits h => exact .redo hfits (h.same hs.toOwes hs.points)

theorem Pends.agree {callee : Callee} {args : Array Term} {ρ : Workspace} {redo : Bool}
    (hctx : ctx.Disciplined ctx') (h : Pends callee args ρ redo s) :
    Agree (ctx.invoke callee args redo) (ctx'.invoke callee args redo) s
      (callee.Answered args ρ s.engine.depth) (ρ.Stopped s.engine.depth callee.HasEntry) := by
  cases h with
  | call hs hfits => exact hctx.call _ _ _ hs hfits
  | redo hfits h => exact hctx.redo _ _ _ _ hfits h

/-! ### The end of the goal -/

theorem Workspace.Tells.suffix (h : s.Tells t) : s.chronicle <:+ t.chronicle := by
  obtain ⟨k, hk, -⟩ := h
  exact ⟨k, hk.symm⟩

/-- A choice point is put on the choice stack, and nothing else changes, unless a limit does not allow it. -/
theorem Workspace.yields_pushChoice_alike {told : Chronicle} (ht : t.Ready) (htold : told <:+ t.chronicle)
    (kind : ChoiceKind) : Yields (Engine.pushChoice kind) t
      (fun _ u => t.Alike u ∧ u.points = t.points ++ [⟨t.mark, kind⟩] ∧ u.moment = t.moment)
      fun _ u => u.LimitedSince told := by
  by_cases hroom : t.engine.choices.hasRoom
  · have htrail : t.engine.trail.mark.2 = t.engine.trail := by
      rw [Trail.mark, ← show t.engine.trail.marked = true from ht.recording.marked]
    have hpoints : (t.engine.choices.points.push ⟨t.mark, kind⟩).toList = t.points ++ [⟨t.mark, kind⟩] :=
      Array.toList_push
    rw [Yields, Engine.pushChoice_of_hasRoom hroom, htrail]
    cases kind <;> exact ⟨⟨rfl, rfl, rfl, rfl, rfl, rfl, rfl, rfl⟩, hpoints, rfl⟩
  · exact refused_pushChoice htold hroom kind

/-- Where nothing has been bound since the mark there is nothing to undo. -/
theorem Moment.undoTo_mark (m : Moment) : m.undoTo m.mark = m := by
  rw [undoTo, Trail.undoTo, show m.mark = m.trail.size from rfl, Nat.sub_self]
  rfl

/-- What a native predicate has kept is taken back, and nothing else changes, when nothing has been bound
since. -/
theorem Workspace.yields_popNativeState_alike {lower : List ChoicePoint} {state : NativeState}
    (hp : t.points = lower ++ [⟨t.mark, .native state⟩]) : Yields Engine.popNativeState t
      (fun r u => r = some state ∧ t.Alike u ∧ u.points = lower ∧ u.chronicle = t.chronicle)
      fun _ _ => False := by
  rw [Engine.popNativeState, yields_bind, Engine.yields_top?, hp, List.getLast?_concat]
  dsimp only
  rw [yields_bind, Engine.pop, Engine.yields_onChoices, yields_bind, Engine.yields_undoTo_iff]
  have hpop : t.engine.choices.points.pop.toList = lower := by
    rw [Array.toList_pop, ← Workspace.points, hp, List.dropLast_concat]
  show Yields (pure (some state)) (Engine.rebind { t with engine := { t.engine with
    choices := t.engine.choices.pop } } (t.moment.undoTo t.mark)) _ _
  rw [Moment.undoTo_mark]
  exact ⟨rfl, ⟨rfl, rfl, rfl, rfl, rfl, rfl, rfl, rfl⟩, hpop, rfl⟩

namespace Builtin

/-- The cleanup goal has been taken off the choice stack, if it was on top, and run. -/
structure Cleaned (t u : Workspace) : Prop extends t.Reaches u where
  /-- The bindings and the trail. -/
  moment : t.moment.Same u.moment
  /-- The depth. -/
  depth : u.engine.depth = t.engine.depth
  /-- The choice points, if a cleanup point was on top. -/
  points : ∀ l p, t.points = l ++ [p] → p.cleanup?.isSome → u.points = l

/-- The goal that is taken off the choice stack, if there is one on top, is that of the call. -/
theorem yields_popCleanup_of_call {goal : Term} (ht : t.Ready)
    (htop : t.Topped ∨ ∃ l m, t.points = l ++ [⟨m, .cleanup goal⟩]) : Yields Engine.popCleanup t
      (fun r u => (r = none ∨ r = some goal) ∧ t.Tells u ∧ u.Ready ∧ (∀ g ∈ r.toList, g.Fits u.symbols) ∧
        ∀ v, u.Clears r.toList v → Cleaned t v) fun _ _ => False := by
  refine (Engine.yields_popCleanup ht).imp (fun r u hu => ?_) fun _ _ h => h
  obtain ⟨howes, hmoment, hdepth, hcases⟩ := hu
  have hcleaned {v : Workspace} (hv : u.Clears r.toList v)
      (hpoints : ∀ l p, t.points = l ++ [p] → p.cleanup?.isSome → u.points = l) : Cleaned t v :=
    ⟨howes.toReaches.trans hv.toReaches, hmoment ▸ hv.moment, hv.depth.trans hdepth,
      fun l p hl hp => hv.points.trans (hpoints l p hl hp)⟩
  obtain ⟨rfl, -, hnone⟩ | ⟨k, m, g, rfl, hk, hu, hg⟩ := hcases
  · refine ⟨.inl rfl, howes.tells, howes.ready, by simp, fun v hv => hcleaned hv fun l p hl hp => ?_⟩
    rw [hnone p (by rw [hl, List.getLast?_concat]; rfl)] at hp
    cases hp
  · refine ⟨.inr ?_, howes.tells, howes.ready, by simpa using hg, fun v hv => hcleaned hv fun l p hl _ => ?_⟩
    · obtain ⟨p, hp, hnone⟩ | ⟨l, m', hl⟩ := htop
      · rw [hk, List.getLast?_concat] at hp
        cases hp
        cases hnone
      · obtain ⟨-, heq⟩ := List.append_inj' (hk.symm.trans hl) rfl
        cases heq
        rfl
    · obtain ⟨rfl, -⟩ := List.append_inj' (hk.symm.trans hl) rfl
      exact hu

section Finish

variable (hctx : ctx.Disciplined ctx') (hnil : ∀ u, ctx.runCleanups [] u = .ok () u)

include hctx hnil

theorem yields_conclude {goal : Term} (ht : t.Ready)
    (htop : t.Topped ∨ ∃ l m, t.points = l ++ [⟨m, .cleanup goal⟩]) (result : Except Stop Answer) :
    Yields (conclude ctx result) t (fun a u => t.Tells u ∧ result = .ok a ∧ Cleaned t u)
      fun e u => t.Tells u ∧ (ctx.CleanupStops goal e u ∨ result = .error e ∧ Cleaned t u) := by
  refine yields_bind.mpr ((yields_popCleanup_of_call ht htop).imp (fun r u hu => ?_) fun _ _ h => h.elim)
  obtain ⟨hgoal, htold, hready, hfits, hcleaned⟩ := hu
  have hrun := (hctx.cleanups r.toList u hready hfits).yields
  refine yields_bind.mpr ?_
  cases hx : ctx.runCleanups r.toList u with
  | ok _ v =>
    have hv : u.Clears r.toList v := yields_ok (Q := fun _ v => u.Clears r.toList v) hrun hx
    have htells := htold.trans hv.settled.tells
    rw [Yields, hx]
    cases result with
    | ok a => exact ⟨htells, rfl, hcleaned v hv⟩
    | error e => exact ⟨htells, .inr ⟨rfl, hcleaned v hv⟩⟩
  | error e v =>
    have htells : u.Tells v := by
      obtain ⟨-, h⟩ | ⟨_, -, h, -⟩ := yields_error hrun hx
      · exact h
      · exact h.settled.tells
    rw [Yields, hx]
    refine ⟨htold.trans htells, .inl ?_⟩
    obtain rfl | rfl := hgoal
    · cases (hnil u).symm.trans hx
    · exact ⟨u, v, hx, rfl⟩

omit hctx hnil

/-- The code of the goal has been put on the choice stack after an answer with more to come. -/
structure Keeps (F : Footing) (code : Code) (vars : Array Term) (s w u : Workspace) : Prop where
  /-- Both searches have something to come back to. -/
  stands : ∃ l, l ≠ [] ∧ F.Stands l s w
  /-- The code can be asked for another solution. -/
  pends : ∃ ρ, ρ.points = F.lower' ∧ Pends (.code code) vars ρ true w
  /-- Nothing else has changed. -/
  alike : w.Alike u
  /-- Cleanup goals are kept. -/
  later : w.Later u
  /-- The mark is the same. -/
  mark : w.mark = u.mark
  /-- It is on top. -/
  points : u.points = w.points ++ [⟨w.mark, .native (.goal code vars)⟩]

/-- How a call of `call_cleanup/2` answers if the goal has answered in the workspaces: with something to
come back to, the code of the goal is kept; else the cleanup goal is run. -/
def Follows (F : Footing) (code : Code) (vars : Array Term) (a : Answer) (s w u : Workspace) : Prop :=
  match a with
  | .more => Keeps F code vars s w u
  | _ => F.Stands [] s w ∧ Cleaned w u

/-- A step `y` of `call_cleanup/2` gives what the step `x` of the goal gives, unless it is hindered by a limit
or the cleanup goal ends the run. -/
def Covers (F : Footing) (ctx : Context) (goal : Term) (code : Code) (vars : Array Term)
    (x y : EngineM Answer) (s t : Workspace) : Prop :=
  Yields y t
    (fun a u => F.Limited u ∨ ∃ s' w, x s = .ok a s' ∧ Follows F code vars a s' w u)
    fun e u => F.Limited u ∨ ctx.CleanupStops goal e u ∨
      ∃ s', x s = .error e s' ∧ (e ≠ .spent → ∃ l w, F.Stands l s' w ∧ Cleaned w u)

variable {code : Code} {vars : Array Term} {goal : Term} {x : EngineM Answer} {m : Nat} {w : Workspace}

include hctx hnil

/-- The goal has come to its end with an answer. -/
theorem covers_last {a : Answer} (ha : a ≠ .more) (hready : w.Ready)
    (htop : ∃ k m, w.points = k ++ [⟨m, .cleanup goal⟩])
    (hw : F.Limited w ∨ ∃ s', x s = .ok a s' ∧ F.Stands [] s' w) :
    Covers F ctx goal code vars x (conclude ctx (.ok a)) s w := by
  refine (yields_conclude hctx hnil hready (.inr htop) (.ok a)).imp (fun b u hu => ?_) fun e u hu => ?_
  · obtain ⟨htells, hab, hu⟩ := hu
    cases hab
    obtain hl | ⟨s', hx, hstands⟩ := hw
    · exact .inl (hl.later htells.suffix)
    refine .inr ⟨s', w, hx, ?_⟩
    cases a with
    | more => exact absurd rfl ha
    | _ => exact ⟨hstands, hu⟩
  · obtain ⟨-, hstops | ⟨heq, -⟩⟩ := hu
    · exact .inr (.inl hstops)
    · cases heq

/-- The goal has been given up. -/
theorem covers_stopped {e : Stop} (hready : w.Ready)
    (htop : w.Topped ∨ ∃ k m, w.points = k ++ [⟨m, .cleanup goal⟩])
    (hw : F.Limited w ∨ ∃ s' k, x s = .error e s' ∧ F.Stands k s' w) :
    Covers F ctx goal code vars x (conclude ctx (.error e)) s w := by
  refine (yields_conclude hctx hnil hready htop (.error e)).imp (fun b u hu => by cases hu.2.1)
    fun e' u hu => ?_
  obtain ⟨htells, hstops | ⟨heq, hu⟩⟩ := hu
  · exact .inr (.inl hstops)
  cases heq
  obtain hl | ⟨s', k, hx, hstands⟩ := hw
  · exact .inl (hl.later htells.suffix)
  · exact .inr (.inr ⟨s', hx, fun _ => ⟨k, w, hstands, hu⟩⟩)

omit hctx hnil in
/-- The goal has answered, and there may be more to come. -/
theorem covers_more {ρ : Workspace} (hready : w.Ready) (htold : F.told <:+ w.chronicle)
    (hρ : ρ.points = F.lower') (hpends : Pends (.code code) vars ρ true w)
    (hw : F.Limited w ∨ ∃ s', x s = .ok .more s' ∧ ∃ k, k ≠ [] ∧ F.Stands k s' w) :
    Covers F ctx goal code vars x
      (do Engine.pushNativeState (.goal code vars); return .more) s w := by
  have hpush := (Workspace.yields_pushChoice_alike hready htold (.native (.goal code vars))).and
    (Engine.yields_pushChoice hready fun _ hg => by cases hg)
  refine yields_bind.mpr (hpush.imp (fun _ u hu => ?_) fun e u hu => .inl hu.1)
  obtain ⟨⟨halike, hpoints, hmoment⟩, hlater, -⟩ := hu
  obtain hl | ⟨s', hx, hstands⟩ := hw
  · exact .inl (hl.later hlater.tells.suffix)
  · exact .inr ⟨s', w, hx, hstands, ⟨ρ, hρ, hpends⟩, halike, hlater, by rw [Workspace.mark, ← hmoment],
      hpoints⟩

/-- Whatever the goal comes to, the call of `call_cleanup/2` comes to it too. -/
theorem covers_finish {redo : Bool} {d : Nat} {ρ : Workspace}
    (hinner : Parallel F.Limited (ctx.invoke (.code code) vars redo) (ctx.invoke (.code code) vars redo)
      s t F.Answered F.Ended)
    (hcall : Yields (ctx.invoke (.code code) vars redo) t ((Callee.code code).Answered vars ρ d)
      (ρ.Stopped d True)) (hfits : (Callee.code code).Fits ρ.database vars)
    (hρ : ρ.points = F.lower') (hlower : F.lower' = F.lower ++ [⟨m, .cleanup goal⟩]) :
    Covers F ctx goal code vars (ctx.invoke (.code code) vars redo) (finish ctx code vars redo) s t := by
  have htop {w : Workspace} (hw : w.points = ρ.points) : ∃ k m, w.points = k ++ [⟨m, .cleanup goal⟩] :=
    ⟨_, m, hw.trans (hρ.trans hlower)⟩
  refine yields_bind.mpr (yields_tryCatch.mpr (yields_map.mpr ?_))
  refine (Yields.and hinner hcall).imp (fun a w hw => ?_) fun e w hw => ?_
  · obtain ⟨hw, hanswered⟩ := hw
    have hready : w.Ready := hanswered.later.ready
    -- there is nothing above the cleanup point when the goal has come to its end
    have hended (ha : a ≠ .more) (hp : w.points = ρ.points) :
        Covers F ctx goal code vars (ctx.invoke (.code code) vars redo) (conclude ctx (.ok a)) s w := by
      refine covers_last hctx hnil ha hready (htop hp) (hw.imp_right ?_)
      rintro ⟨_, s', hx, rfl, k, hk, -⟩
      obtain rfl : k = [] := by simpa using hk.points'.symm.trans (hp.trans hρ)
      exact ⟨s', hx, hk⟩
    cases a with
    | more =>
      have htold : F.told <:+ w.chronicle := by
        obtain ⟨k, hk, -⟩ | ⟨_, s', -, -, k, hk, -⟩ := hw
        · exact ⟨k, hk.symm⟩
        · exact hk.told
      refine covers_more hready htold hρ (.redo hfits hanswered.2) (hw.imp_right ?_)
      rintro ⟨_, s', hx, rfl, k, hk, hmore⟩
      exact ⟨s', hx, k, hmore rfl, hk⟩
    | last => exact hended (by simp) hanswered.2.2
    | fail => exact hended (by simp) hanswered.2.points
  · obtain ⟨hw, hstopped⟩ := hw
    cases e with
    | thrown x =>
      obtain ⟨-, hlater, -, -, hentered⟩ := hstopped
      refine covers_stopped hctx hnil hlater.ready ((hentered trivial).imp id fun h => htop h.points)
        (hw.imp_right ?_)
      rintro ⟨s', hx, hk⟩
      obtain ⟨k, hk⟩ := hk (by simp)
      exact ⟨s', k, hx, hk⟩
    | halted n =>
      obtain ⟨-, hlater, -, hentered⟩ := hstopped
      have htold : w.chronicle <:+ w.interrupt.chronicle := Effect.telling_note w _
      refine yields_bind.mpr (yields_modify.mpr ?_)
      refine covers_stopped hctx hnil (hlater.ready.reaches_note _).ready
        ((hentered (.inl trivial)).imp id fun h => htop h.2) (hw.imp (·.later htold) ?_)
      rintro ⟨s', hx, hk⟩
      obtain ⟨k, hk⟩ := hk (by simp)
      exact ⟨s', k, hx, { hk with told := hk.told.trans htold }⟩
    | spent =>
      obtain hl | ⟨s', hx, -⟩ := hw
      · exact .inl hl
      · exact .inr (.inr ⟨s', hx, fun hne => absurd rfl hne⟩)

end Finish

end Builtin

/-! ### Calls on top of a cleanup point -/

/-- The search of a call of the goal of `call_cleanup/2` stands on the cleanup point of that call, and is
one level deeper, beside the search of a call of the goal by `call/1`. -/
def Footing.onCleanup (s : Workspace) (lower : List ChoicePoint) (m : Nat) (goal : Term) (id : Nat)
    (told : Chronicle) : Footing where
  lower := lower
  lower' := lower ++ [⟨m, .cleanup goal⟩]
  shift := 1
  length := List.length_append
  returns := s.engine.returnPoints
  returns' := s.engine.returnPoints
  active := id
  depth := s.engine.depth
  depth' := s.engine.depth + 1
  deeper := Nat.le_succ _
  told := told

/-- The choice points of both workspaces: above those of before the call, `lower`, the first one has those
of the goal, `l`, and the second one has the cleanup point, those of the goal, and its code. -/
structure Workspace.HoldsAbove (goal : Term) (code : Code) (vars : Array Term) (lower l : List ChoicePoint)
    (m : Nat) (ρ w s t : Workspace) : Prop where
  /-- There is something to come back to. -/
  more : l ≠ []
  /-- The choice points of the goal are well nested. -/
  stacked : Stacked lower.length l
  /-- The choice points of the first one. -/
  points : s.points = lower ++ l
  /-- The goal was called in a workspace with the cleanup point on top. -/
  below : ρ.points = lower ++ [⟨m, .cleanup goal⟩]
  /-- The goal can be asked for another solution. -/
  pends : Pends (.code code) vars ρ true w
  /-- The choice points of the second one, with those of the goal on top. -/
  above : w.points = ρ.points ++ l.map (ChoicePoint.raise 1)
  /-- The code has been kept since. -/
  later : w.Later t
  /-- Nothing has been bound since. -/
  mark : w.mark = t.mark
  /-- The code is on top of the second one. -/
  top : t.points = w.points ++ [⟨w.mark, .native (.goal code vars)⟩]

/-- The choice points of the workspaces are those of a goal that can be asked for another solution, without
its cleanup goal and with it. -/
def Workspace.Holds (goal : Term) (code : Code) (vars : Array Term) (s t : Workspace) : Prop :=
  ∃ lower l m ρ w, Workspace.HoldsAbove goal code vars lower l m ρ w s t

theorem Workspace.Holds.same {goal : Term} {code : Code} {vars : Array Term} {s' t' : Workspace}
    (h : s.Holds goal code vars t) (hs : s.Same s') (ht : t.Same t') : s'.Holds goal code vars t' := by
  obtain ⟨lower, l, m, ρ, w, h⟩ := h
  exact ⟨lower, l, m, ρ, w, { h with
    points := hs.points.trans h.points
    later := h.later.trans ht.toOwes
    mark := h.mark.trans ht.moment.mark_eq.symm
    top := ht.points.trans h.top }⟩

theorem Workspace.Alike.stands (h : (s.atDepth (s.engine.depth + 1)).Alike t) {id m : Nat}
    (hid : s.engine.active = some id) {lower : List ChoicePoint} (goal : Term)
    (hl : Stacked lower.length l) (hs : s.points = lower ++ l)
    (ht : t.points = lower ++ [⟨m, .cleanup goal⟩] ++ l.map (ChoicePoint.raise 1)) {told : Chronicle}
    (htold : told <:+ t.chronicle) : (Footing.onCleanup s lower m goal id told).Stands l s t where
  database := h.database
  config := h.config
  trail := h.trail
  limit := h.limit
  points := hs
  points' := ht
  stacked := hl
  depth := rfl
  depth' := h.depth
  returns := rfl
  returns' := h.returnPoints
  active := hid
  active' := h.active.trans hid
  nextGoal := h.nextGoal
  told := htold


namespace Builtin

variable {r w u : Workspace} {lower : List ChoicePoint} {m id : Nat} {goal : Term} {told : Chronicle}
  {code : Code} {vars : Array Term} {a : Answer}

/-- The depth after the call of `call_cleanup/2`. -/
theorem depth_of_stands (h : (Footing.onCleanup r lower m goal id told).Stands l s w)
    (hu : u.engine.depth = w.engine.depth) : u.engine.depth - 1 = s.engine.depth := by
  rw [hu, h.depth', h.depth]
  rfl

/-- What has been done since the goal came to its end does not show. -/
theorem Cleaned.unaffected (hu : Cleaned w u)
    (h : (Footing.onCleanup r lower m goal id told).Stands [] s w) :
    s.Unaffected (u.atDepth (u.engine.depth - 1)) where
  ready := (hu.ready.same_atDepth _).ready
  grows := h.database ▸ hu.grows
  config := hu.config.trans h.config
  limit := hu.limit.trans h.limit
  returnPoints := hu.returnPoints.trans (h.returns'.trans h.returns.symm)
  active := hu.active.trans (h.active'.trans h.active.symm)
  before := h.moment ▸ hu.before
  moment := h.moment ▸ hu.moment
  points := by
    have hw : w.points = lower ++ [⟨m, .cleanup goal⟩] := h.points'.trans (List.append_nil _)
    exact (hu.points _ _ hw rfl).trans (h.points.trans (List.append_nil _)).symm
  depth := depth_of_stands h hu.depth

theorem Follows.reported (h : Follows (.onCleanup r lower m goal id told) code vars a s w u) :
    s.Reported a (u.atDepth (u.engine.depth - 1)) := by
  cases a with
  | more =>
    obtain ⟨k, -, hk⟩ := h.stands
    exact {
      database := h.alike.database.trans hk.database
      config := h.alike.config.trans hk.config
      limit := h.alike.limit.trans hk.limit
      trail := h.alike.trail.trans hk.trail
      depth := depth_of_stands hk h.alike.depth
      returnPoints := h.alike.returnPoints.trans (hk.returns'.trans hk.returns.symm)
      active := h.alike.active.trans (hk.active'.trans hk.active.symm)
      nextGoal := h.alike.nextGoal.trans hk.nextGoal }
  | _ => exact h.2.unaffected h.1

theorem Keeps.holds (h : Keeps (.onCleanup r lower m goal id told) code vars s w u) :
    s.Holds goal code vars (u.atDepth (u.engine.depth - 1)) := by
  obtain ⟨k, hne, hk⟩ := h.stands
  obtain ⟨ρ, hρ, hpends⟩ := h.pends
  refine ⟨lower, k, m, ρ, w, hne, hk.stacked, hk.points, hρ, hpends, ?_, ?_, h.mark, h.points⟩
  · rw [hρ]
    exact hk.points'
  · exact h.later.trans (h.later.ready.same_atDepth _).toOwes

/-! ### Calls of `call_cleanup/2` -/

/-- The call of `call/1` with a goal compiles as `call_cleanup/2` does. -/
theorem controlCode_call (goal : Term) (d : Database) :
    Database.controlCode (.call 0) [goal] d = Database.compileGoal .metaCall goal d := by
  have htag : (Tag.call 0).extraOfCall? = some 0 := rfl
  have hget : (get : DatabaseM Database) d = .ok d d := rfl
  have hcompile (t : Term) (ht : d.terms.store.deref t = d.terms.store.deref goal) :
      Database.compileGoal .metaCall t d = Database.compileGoal .metaCall goal d := by
    simp only [Database.compileGoal, Bind.bind, EStateM.bind, hget, ht]
  -- the goal is looked up twice
  have hnonvar (t : Term) (ht : d.terms.store.deref goal = t) (hvar : ∀ v, t ≠ .var v)
      (hcontrol : Database.controlGoal (.call 0) [goal] d = .ok t d) :
      Database.controlCode (.call 0) [goal] d = Database.compileGoal .metaCall goal d := by
    simp only [Database.controlCode, Bind.bind, EStateM.bind, hcontrol]
    exact hcompile t ((Store.deref_of_nonvar _ hvar).trans ht.symm)
  cases hd : d.terms.store.deref goal with
  | var v =>
    simp only [Database.controlCode, Database.controlGoal, Database.compileGoal, htag, Bind.bind,
      EStateM.bind, hget, hd]
    rfl
  | const c =>
    refine hnonvar _ hd (by simp) ?_
    simp only [Database.controlGoal, htag, Bind.bind, EStateM.bind, hget, hd]
    rfl
  | compound i f args =>
    refine hnonvar _ hd (by simp) ?_
    simp only [Database.controlGoal, htag, Bind.bind, EStateM.bind, hget, hd]
    rfl

theorem covers_invoke {host : Host} {n : Nat} {redo : Bool} {ρ ρ' : Workspace}
    (hs : Pends (.code code) vars ρ redo s) (ht : Pends (.code code) vars ρ' redo t)
    (h : F.Stands l s t) (hredo : redo = false ↔ l = []) (hρ : ρ'.points = F.lower')
    (hlower : F.lower' = F.lower ++ [⟨m, .cleanup goal⟩]) :
    Covers F (Solver.context host (n + 1)) goal code vars
      ((Solver.context host (n + 1)).invoke (.code code) vars redo)
      (finish (Solver.context host (n + 1)) code vars redo) s t := by
  have hctx := Activation.disciplined_host host (n + 1)
  have hlevel := Solver.level_context (n + 1)
  -- the goal does not call the host
  have hinner : Parallel F.Limited ((Solver.context .none (n + 1)).invoke (.code code) vars redo)
      ((Solver.context .none (n + 1)).invoke (.code code) vars redo) s t F.Answered F.Ended := by
    cases redo with
    | false =>
      obtain rfl := hredo.mp rfl
      exact hlevel.call _ _ h
    | true => exact hlevel.redo _ _ (fun hnil => absurd (hredo.mpr hnil) (by simp)) h
  exact covers_finish hctx (fun _ => rfl) (.of_eq (hs.agree hctx).eq.symm (ht.agree hctx).eq.symm hinner)
    (ht.agree hctx).yields ht.fits hρ hlower

/-- At a site at which nothing is remembered, a call of `call/1` is the call of its goal. -/
theorem callTag_call (ctx : Context) {site : Nat} (hknown : s.database.known? site (.call 0) = none) :
    ctx.callTag site (.call 0) #[goal] s = (Prod.fst <$> ctx.callGoal goal none) s := by
  have hget : (get : EngineM Workspace) s = .ok s s := rfl
  have hresolve : Engine.onDatabase (Database.resolve (.call 0)) s = .ok .control s := rfl
  simp only [Context.callTag, Context.callGoal, Activation.findCallee, Bind.bind, Functor.map,
    EStateM.bind, EStateM.map, hget, hknown, hresolve]
  cases Engine.onDatabase (Database.controlCode (.call 0) [goal]) s with
  | error e t => rfl
  | ok r t =>
    show ctx.invoke (.code r.1) r.2 false t = _
    dsimp only
    cases ctx.invoke (.code r.1) r.2 false t <;> rfl

/-- The workspaces are those of before a call, or they have been led to by answers with more to come, and
the code that the calls keep can be asked for another solution in both of them. -/
def Kept (goal cleanup : Term) : Option (Code × Array Term) → Workspace → Workspace → Prop
  | none, s, t => t = s ∧ s.Ready ∧ goal.Fits s.symbols ∧ cleanup.Fits s.symbols
  | some (code, vars), s, t => s.Alike t ∧ s.Holds cleanup code vars t ∧
    ∃ ρ, Pends (.code code) vars ρ true s

section Echoes

variable (host : Host) (n : Nat) (goal cleanup : Term) (kept : Option (Code × Array Term))
  (s : Workspace) (told : Chronicle)

/-- An answer of `call_cleanup/2` is that of `call/1`, and both can be asked for another solution if there
may be one. -/
def Echoes (a : Answer) (t' : Workspace) : Prop :=
  t'.LimitedSince told ∨ ∃ code vars s',
    (Solver.context host (n + 1)).callGoal goal kept s = .ok (a, code, vars) s' ∧ s'.Reported a t' ∧
    (a = .more → s'.Holds cleanup code vars t' ∧ ∃ ρ, Pends (.code code) vars ρ true s')

/-- An end of `call_cleanup/2` without an answer is that of `call/1`. -/
def EchoesStop (e : Stop) (t' : Workspace) : Prop :=
  t'.LimitedSince told ∨ (Solver.context host (n + 1)).CleanupStops cleanup e t' ∨
    ∃ s', (Solver.context host (n + 1)).callGoal goal kept s = .error e s' ∧
      (e ≠ .spent → s'.moment.Same t'.moment)

end Echoes

variable {host : Host} {n : Nat} {cleanup : Term} {kept : Option (Code × Array Term)}

theorem Covers.echoes {redo : Bool} {ρ s₀ : Workspace} {y : EngineM Answer}
    (h : Covers (.onCleanup r lower m cleanup id told) (Solver.context host (n + 1)) cleanup code vars
      ((Solver.context host (n + 1)).invoke (.code code) vars redo) y s t)
    (hs : Pends (.code code) vars ρ redo s)
    (hcall : (Solver.context host (n + 1)).callGoal goal kept s₀ =
      ((·, code, vars) <$> (Solver.context host (n + 1)).invoke (.code code) vars redo) s) :
    Yields y t (fun a u => Echoes host n goal cleanup kept s₀ told a (u.atDepth (u.engine.depth - 1)))
      fun e u => EchoesStop host n goal cleanup kept s₀ told e (u.atDepth (u.engine.depth - 1)) := by
  have hdisciplined := (hs.agree (Activation.disciplined_host host (n + 1))).yields
  refine Yields.imp h (fun a u hu => hu.imp_right ?_) fun e u hu => hu.imp_right (Or.imp ?_ ?_)
  · rintro ⟨s', w, hx, hfollows⟩
    refine ⟨code, vars, s', by simp only [hcall, Functor.map, EStateM.map, hx], hfollows.reported, ?_⟩
    rintro rfl
    exact ⟨Keeps.holds hfollows, ρ, .redo hs.fits (yields_ok hdisciplined hx).2⟩
  · rintro ⟨w, v, hx, hu⟩
    exact ⟨w, v, hx, by rw [hu]; rfl⟩
  · rintro ⟨s', hx, hended⟩
    refine ⟨s', by simp only [hcall, Functor.map, EStateM.map, hx], fun hne => ?_⟩
    obtain ⟨k, w, hk, hcleaned⟩ := hended hne
    exact hk.moment ▸ hcleaned.moment

theorem echoes_redo (h : Kept goal cleanup (some (code, vars)) s t) :
    Yields (runCallCleanup (Solver.context host (n + 1)) true #[goal, cleanup])
      (t.atDepth (t.engine.depth + 1))
      (fun a u => Echoes host n goal cleanup (some (code, vars)) s t.chronicle a
        (u.atDepth (u.engine.depth - 1)))
      fun e u => EchoesStop host n goal cleanup (some (code, vars)) s t.chronicle e
        (u.atDepth (u.engine.depth - 1)) := by
  obtain ⟨halike, ⟨lower, l, m, ρ, w, h⟩, ρ', hpends⟩ := h
  have hready := h.later.ready
  have hlater := h.later.trans (hready.same_atDepth (t.engine.depth + 1)).toOwes
  have htop : (t.atDepth (t.engine.depth + 1)).points = w.points ++ [⟨w.mark, .native (.goal code vars)⟩] :=
    h.top
  refine yields_bind.mpr (((Workspace.yields_popNativeState_alike (h.mark ▸ htop)).and
    (Engine.yields_popNativeState hlater htop)).imp (fun r u hu => ?_) fun _ _ h => h.1.elim)
  obtain ⟨⟨rfl, hu, -, hchronicle⟩, -, hsame, -⟩ := hu
  obtain ⟨i, hi⟩ := Option.isSome_iff_exists.mp (halike.active ▸ hready.active)
  have hpends' : Pends (.code code) vars ρ true u := h.pends.same hsame
  have htold : t.chronicle <:+ u.chronicle := hchronicle ▸ List.suffix_refl _
  have hstands := (halike.deeper.trans hu).stands hi cleanup h.stacked h.points (m := m)
    (hsame.points.trans (h.below ▸ h.above)) htold
  exact (covers_invoke hpends hpends' hstands (by simp [h.more]) h.below rfl).echoes hpends
    (congrFun (bind_pure_comp ..) s)

theorem echoes_call (hs : s.Ready) (hgoal : goal.Fits s.symbols) (hcleanup : cleanup.Fits s.symbols) :
    Yields (runCallCleanup (Solver.context host (n + 1)) false #[goal, cleanup])
      (s.atDepth (s.engine.depth + 1))
      (fun a u => Echoes host n goal cleanup none s s.chronicle a (u.atDepth (u.engine.depth - 1)))
      fun e u => EchoesStop host n goal cleanup none s s.chronicle e
        (u.atDepth (u.engine.depth - 1)) := by
  have hcompile := Database.safe_compileGoal hs.database .metaCall hgoal
  refine yields_bind.mpr (Engine.yields_onDatabase.mpr ?_)
  have hcontrol := controlCode_call goal s.database
  show Yields (Database.compileGoal .metaCall goal) s.database _ _
  cases hc : Database.compileGoal .metaCall goal s.database with
  | error x d =>
    obtain ⟨hadds, -⟩ := yields_error hcompile hc
    rw [Yields, hc]
    refine .inr (.inr ⟨⟨d, s.engine⟩, ?_, fun _ => ?_⟩)
    · simp only [Context.callGoal, Bind.bind, EStateM.bind, Engine.onDatabase, hcontrol, hc]
    · exact .refl (Engine.stays_of_adds hs hadds).same.ready.recording
  | ok r d =>
    obtain ⟨code, vars⟩ := r
    obtain ⟨hadds, hfits⟩ := yields_ok hcompile hc
    have hready : (Workspace.mk d s.engine).Ready := (Engine.stays_of_adds hs hadds).same.ready
    obtain ⟨i, hi⟩ := Option.isSome_iff_exists.mp hready.active
    have hdeep := hready.same_atDepth (s.engine.depth + 1)
    have htold : s.chronicle <:+ (Workspace.atDepth (s.engine.depth + 1) ⟨d, s.engine⟩).chronicle :=
      List.suffix_refl _
    rw [Yields, hc]
    refine yields_bind.mpr (((Workspace.yields_pushChoice_alike hdeep.ready htold (.cleanup cleanup)).and
      (Engine.yields_pushChoice hdeep.ready fun g hg => ?_)).imp (fun _ u hu => ?_) fun _ _ h => .inl h.1)
    · cases hg
      exact hcleanup.mono hadds.grows.symbols
    obtain ⟨⟨hu, hpoints, -⟩, hlater, -⟩ := hu
    have hcall : Pends (.code code) vars ⟨d, s.engine⟩ false ⟨d, s.engine⟩ := .call hready hfits
    have hcall' : Pends (.code code) vars u false u := .call hlater.ready (hfits.mono hlater.grows.retains)
    have hstands := hu.stands (l := []) hi cleanup .nil (List.append_nil _).symm
      (hpoints.trans (List.append_nil _).symm) hlater.tells.suffix
    refine (covers_invoke hcall hcall' hstands (by simp) hpoints rfl).echoes hcall ?_
    simp only [Context.callGoal, Bind.bind, EStateM.bind, Engine.onDatabase, hcontrol, hc]
    rfl

/-- Every answer or end of `call_cleanup/2` is that of `call/1`. -/
theorem echoes_callCleanup (h : Kept goal cleanup kept s t) :
    Yields ((Solver.context host (n + 2)).callCleanup goal cleanup kept.isSome) t
      (Echoes host n goal cleanup kept s t.chronicle)
      (EchoesStop host n goal cleanup kept s t.chronicle) := by
  refine yields_bind.mpr ((Workspace.refused_checkDepth (List.suffix_refl _)).imp (fun _ u hu => ?_)
    fun _ _ h => .inl h)
  obtain ⟨rfl, -⟩ := hu
  refine Solver.yields_nested.mpr ?_
  cases kept with
  | none =>
    obtain ⟨rfl, hs, hgoal, hcleanup⟩ := h
    exact echoes_call hs hgoal hcleanup
  | some r => exact echoes_redo h

/-! ### Runs of answers -/

/-- `call/1` and `call_cleanup/2` are called in the same workspace, or they have given the same answers, with
more to come, and are asked for another solution. -/
inductive Paired (host : Host) (n : Nat) (goal cleanup : Term) :
    Option (Code × Array Term) → Workspace → Workspace → Prop where
  /-- They are called. -/
  | call {s : Workspace} (hs : s.Ready) (hgoal : goal.Fits s.symbols) (hcleanup : cleanup.Fits s.symbols) :
    Paired host n goal cleanup none s s
  /-- Both have answered. What has been done since, whatever it was, has been undone by going back to a choice
  point above (`Engine.yields_pop_undoTo`), and was the same. -/
  | redo {kept : Option (Code × Array Term)} {code : Code} {vars : Array Term} {s t s₁ t₁ s' t' : Workspace}
    (h : Paired host n goal cleanup kept s t)
    (hx : (Solver.context host (n + 1)).callGoal goal kept s = .ok (.more, code, vars) s₁)
    (hy : (Solver.context host (n + 2)).callCleanup goal cleanup kept.isSome t = .ok .more t₁)
    (hlimit : ¬t₁.LimitedSince t.chronicle) (hs : s₁.Same s') (ht : t₁.Same t') (halike : s'.Alike t') :
    Paired host n goal cleanup (some (code, vars)) s' t'

theorem Paired.continues (h : Paired host n goal cleanup kept s t) : Kept goal cleanup kept s t := by
  induction h with
  | call hs hgoal hcleanup => exact ⟨rfl, hs, hgoal, hcleanup⟩
  | redo h hx hy hlimit hs ht halike ih =>
    obtain hl | ⟨code, vars, s', hx', -, hmore⟩ := yields_ok (echoes_callCleanup ih) hy
    · exact absurd hl hlimit
    obtain ⟨⟩ := hx.symm.trans hx'
    obtain ⟨hholds, ρ, hpends⟩ := hmore rfl
    exact ⟨halike, hholds.same hs ht, ρ, hpends.same hs⟩

/-- After an answer with more to come both can be asked for another solution at once. -/
theorem Paired.again (h : Paired host n goal cleanup kept s t)
    (hy : (Solver.context host (n + 2)).callCleanup goal cleanup kept.isSome t = .ok .more w)
    (hlimit : ¬w.LimitedSince t.chronicle) : ∃ code vars s',
      (Solver.context host (n + 1)).callGoal goal kept s = .ok (.more, code, vars) s' ∧
      s'.Alike w ∧ Paired host n goal cleanup (some (code, vars)) s' w := by
  obtain hl | ⟨code, vars, s', hx, halike, hmore⟩ := yields_ok (echoes_callCleanup h.continues) hy
  · exact absurd hl hlimit
  obtain ⟨⟨_, _, _, _, _, hholds⟩, ρ, hpends⟩ := hmore rfl
  exact ⟨code, vars, s', hx, halike, h.redo hx hy hlimit hpends.ready.same hholds.later.ready.same halike⟩

/-- `call_cleanup/2` gives the answers of `call/1`, with as many to come, and fails, throws a ball or ends the
run when `call/1` does, unless a limit does not allow something or the cleanup goal ends the run
(`Context.CleanupStops.halted_or_spent`). No binding made by the cleanup goal is seen, whichever way it has
ended. The goal of `call_cleanup/2` is called by one call more than that of `call/1`, which needs fuel.
The call of `call/1` is the one that a call instruction makes. -/
theorem callCleanup_transparent (h : Paired host n goal cleanup kept s t) :
    (∀ site, s.database.known? site (.call 0) = none →
      (Solver.context host (n + 1)).callTag site (.call 0) #[goal] s =
        (Prod.fst <$> (Solver.context host (n + 1)).callGoal goal none) s) ∧
    Yields ((Solver.context host (n + 2)).callCleanup goal cleanup kept.isSome) t
      (fun a t' => t'.LimitedSince t.chronicle ∨ ∃ code vars s',
        (Solver.context host (n + 1)).callGoal goal kept s = .ok (a, code, vars) s' ∧ s'.Reported a t')
      fun e t' => t'.LimitedSince t.chronicle ∨
        (Solver.context host (n + 1)).CleanupStops cleanup e t' ∨
        ∃ s', (Solver.context host (n + 1)).callGoal goal kept s = .error e s' ∧
          (e ≠ .spent → s'.moment.Same t'.moment) := by
  refine ⟨fun _ hknown => callTag_call _ hknown, (echoes_callCleanup h.continues).imp
    (fun a t' h => h.imp_right ?_) fun _ _ h => h⟩
  rintro ⟨code, vars, s', hx, hreported, -⟩
  exact ⟨code, vars, s', hx, hreported⟩

/-- The goal `true ; true`. -/
def twiceTrue : Term :=
  .compound 1 .disj [.atom .trueGoal, .atom .trueGoal]

theorem fits_twiceTrue : twiceTrue.Fits Workspace.initial.symbols := by
  cases Engine.fits_heldGoal with
  | compound _ hargs => exact hargs _ (List.mem_cons_self ..)

/-- The goal `true ; true` is called with the cleanup goal `true`, and asked for another solution. -/
theorem callCleanup_transparent_twice :
    let ctx := Solver.context .none 21
    let ctx' := Solver.context .none 20
    ∃ t, ctx.callCleanup twiceTrue (.atom .trueGoal) false Workspace.initial.awake = .ok .more t ∧
      (t.LimitedSince Workspace.initial.awake.chronicle ∨ ∃ code vars s,
        ctx'.callGoal twiceTrue none Workspace.initial.awake = .ok (.more, code, vars) s ∧ s.Alike t ∧
        ∃ u, ctx.callCleanup twiceTrue (.atom .trueGoal) true t = .ok .last u ∧
          (u.LimitedSince t.chronicle ∨ ∃ code' vars' s',
            ctx'.callGoal twiceTrue (some (code, vars)) s = .ok (.last, code', vars') s' ∧
            s'.Unaffected u)) := by
  intro ctx ctx'
  have hrun : (((answer? (ctx.callCleanup twiceTrue (.atom .trueGoal) false)
      Workspace.initial.awake).filter (·.1 = .more)).bind fun r =>
        (answer? (ctx.callCleanup twiceTrue (.atom .trueGoal) true) r.2).filter (·.1 = .last)).isSome := by
    decide +kernel
  obtain ⟨⟨b, u⟩, hrun⟩ := Option.isSome_iff_exists.mp hrun
  obtain ⟨⟨a, t⟩, hfirst, hsecond⟩ := Option.bind_eq_some_iff.mp hrun
  obtain ⟨hfirst, ha⟩ := Option.filter_eq_some_iff.mp hfirst
  obtain ⟨hsecond, hb⟩ := Option.filter_eq_some_iff.mp hsecond
  obtain rfl : a = .more := of_decide_eq_true ha
  obtain rfl : b = .last := of_decide_eq_true hb
  have hfirst := answer?_eq_some.mp hfirst
  have hsecond := answer?_eq_some.mp hsecond
  have hawake (s : Workspace) (h : twiceTrue.Fits s.symbols) : twiceTrue.Fits s.awake.symbols := h
  have hpaired : Paired .none 19 twiceTrue (.atom .trueGoal) none Workspace.initial.awake
      Workspace.initial.awake :=
    .call Workspace.idle_initial.ready (hawake _ fits_twiceTrue) (.const _)
  refine ⟨t, hfirst, ?_⟩
  by_cases hlimit : t.LimitedSince Workspace.initial.awake.chronicle
  · exact .inl hlimit
  obtain ⟨code, vars, s, hx, halike, hagain⟩ := hpaired.again hfirst hlimit
  have hlast := yields_ok (callCleanup_transparent hagain).2 hsecond
  exact .inr ⟨code, vars, s, hx, halike, u, hsecond, hlast⟩

end Builtin

end Resolvent
