import Resolvent.Proofs.Isolation
import Resolvent.Proofs.Shifting

/-!
# Calls on another footing

While a goal is searched for, the search that has been set aside for it is out of reach, so a goal runs
on the same ground on every footing (`Footing.nest`), and when it is stopped the search that it was
called from is taken up where it was (`Footing.Seeks.stop`). The native predicates find above the
footing whatever they have kept there. So all calls end alike on every footing, by induction on the fuel
(`Solver.level_context`).
-/

namespace Resolvent

variable {α : Type} {F : Footing} {l : List ChoicePoint} {s t : Workspace} {ctx : Context}

namespace Footing

/-! ### Searches set aside -/

/-- The return points of both engines lead back to where the given choice points are above the
footing. -/
structure Aside (F : Footing) (l : List ChoicePoint) (r r' : ReturnPoint) : Prop where
  /-- The choice points of the first one. -/
  points : r.points.toList = F.lower ++ l
  /-- The choice points of the second one. -/
  points' : r'.points.toList = F.lower' ++ l.map (ChoicePoint.raise F.shift)
  /-- They are well nested. -/
  stacked : Stacked F.lower.length l
  /-- The trail is the same. -/
  trail : r'.trail = r.trail
  /-- The goal of the first one. -/
  active : r.active = some F.active
  /-- The goal of the second one. -/
  active' : r'.active = some F.active

/-- Both engines search for the goal, with the searches set aside. Unless it is done, there is something to
come back to if and only if a solution has been searched for. -/
def Seeks (F : Footing) (l : List ChoicePoint) (g : PreparedGoal) (s t : Workspace) : Prop :=
  g.isNested = true ∧ ∃ r r' k, F.Aside l r r' ∧ (F.nest r r' g.id).Stands k s t ∧
    (g.isDone = false → (k = [] ↔ g.started = false))

/-- Both engines have run out of fuel. -/
def Spent (e : Stop) (_ _ : Workspace) : Prop :=
  e = .spent

/-- Both steps have been ended, and the searches are where they were if this was not for want of fuel. -/
def EndedAt (F : Footing) (l : List ChoicePoint) (e : Stop) (s t : Workspace) : Prop :=
  e ≠ .spent → F.Stands l s t

theorem EndedAt.ended {e : Stop} (h : F.EndedAt l e s t) : F.Ended e s t :=
  fun hne => ⟨l, h hne⟩

theorem Spent.endedAt {e : Stop} (h : Spent e s t) : F.EndedAt l e s t :=
  fun hne => absurd h hne

theorem Stands.prepare (h : F.Stands l s t) (goal : Term) :
    Surely F.Limited (Engine.prepare goal) (Engine.prepare goal) s t
      (fun g g' s' t' => g = g' ∧ F.Seeks l g s' t') (F.EndedAt l) := by
  refine Surely.bind ((h.onDatabase_kept _).imp (fun _ _ _ _ h => h) fun _ _ _ h _ => h)
    fun r _ s₁ t₁ h₁ => ?_
  obtain ⟨rfl, h₁⟩ := h₁
  have hrun {w : Workspace} (hw : w.engine.active.isSome) : (do
      let isNested := (← get).engine.active.isSome
      if isNested then Engine.park
      return ⟨← Engine.activate, r.1, r.2, goal, false, false, isNested⟩ : EngineM PreparedGoal) w =
      .ok ⟨w.engine.nextGoal, r.1, r.2, goal, false, false, true⟩ w.parked.awake := by
    show (do
      if w.engine.active.isSome then Engine.park
      return ⟨← Engine.activate, r.1, r.2, goal, false, false, w.engine.active.isSome⟩ :
        EngineM PreparedGoal) w = _
    rw [hw]
    rfl
  refine .of_ok (hrun (by rw [h₁.active]; rfl)) (hrun (by rw [h₁.active']; rfl)) ⟨by rw [h₁.nextGoal], rfl,
    ⟨_, s₁.engine.choices.made, s₁.engine.trail, _⟩, ⟨_, t₁.engine.choices.made, t₁.engine.trail, _⟩, [],
    ⟨h₁.points, h₁.points', h₁.stacked, h₁.trail, h₁.active, h₁.active'⟩, ?_, by simp⟩
  exact {
    database := h₁.database
    config := h₁.config
    trail := rfl
    limit := h₁.limit
    points := rfl
    points' := rfl
    stacked := .nil
    depth := h₁.depth
    depth' := h₁.depth'
    returns := congrArg _ h₁.returns
    returns' := congrArg _ h₁.returns'
    active := rfl
    active' := congrArg some h₁.nextGoal
    nextGoal := congrArg (· + 1) h₁.nextGoal
    told := h₁.told }

/-- The search that was set aside is taken up. -/
theorem Aside.unpark {r r' : ReturnPoint} {k : List ChoicePoint} {id : Nat} (hr : F.Aside l r r')
    (h : (F.nest r r' id).Stands k s t) {E : Stop → Workspace → Workspace → Prop} :
    Surely F.Limited Engine.unpark Engine.unpark s t (F.Agrees l) E := by
  have hrun {w : Workspace} {p : ReturnPoint} {rest : List ReturnPoint}
      (hw : w.engine.returnPoints = p :: rest) : Engine.unpark w = .ok () (w.unparked p rest) := by
    have hself : Yields Engine.unpark w (fun a u => Engine.unpark w = .ok a u)
        fun e u => Engine.unpark w = .error e u := by
      unfold Yields
      cases Engine.unpark w <;> rfl
    exact (Engine.yields_unpark hw).mp hself
  refine .of_ok (hrun h.returns) (hrun h.returns') ⟨rfl, ?_⟩
  exact { h with
    trail := hr.trail
    points := hr.points
    points' := hr.points'
    stacked := hr.stacked
    returns := rfl
    returns' := rfl
    active := hr.active
    active' := hr.active' }

variable (hctx : ctx.Level)

include hctx

theorem Seeks.execute {g : PreparedGoal} (h : F.Seeks l g s t) :
    Parallel F.Limited (Engine.execute ctx g) (Engine.execute ctx g) s t
      (fun a b s' t' => a = b ∧ F.Seeks l a.2 s' t') Spent := by
  obtain ⟨hnested, r, r', k, haside, hk, hready⟩ := h
  rw [Engine.execute]
  cases hdone : g.isDone with
  | true => exact .pure ⟨rfl, hnested, r, r', k, haside, hk, hready⟩
  | false =>
    rw [if_neg Bool.false_ne_true]
    refine .get_bind ?_
    rw [if_neg (by simp [hk.active, nest]), if_neg (by simp [hk.active', nest])]
    have hstarted := hready hdone
    -- the goal is called, or asked for another solution
    have hinvoke : Parallel F.Limited (ctx.invoke (.code g.code) g.args g.started)
        (ctx.invoke (.code g.code) g.args g.started) s t (F.nest r r' g.id).Answered
        (F.nest r r' g.id).Ended := by
      cases hg : g.started with
      | false =>
        obtain rfl := hstarted.mpr hg
        exact hctx.call _ _ hk
      | true => exact hctx.redo _ _ (fun hnil => by simp [hstarted.mp hnil] at hg) hk
    have hopen {k' : List ChoicePoint} {o : GoalOutcome} {s' t' : Workspace}
        (hk' : (F.nest r r' g.id).Stands k' s' t') (ho : o.isOpen → k' ≠ []) :
        F.Seeks l { g with started := true, isDone := !o.isOpen } s' t' :=
      ⟨hnested, r, r', k', haside, hk', fun hdone => by simpa using ho (by simpa using hdone)⟩
    refine Parallel.bind (Q := fun a b s' t' => a = b ∧ ∃ k', (F.nest r r' g.id).Stands k' s' t' ∧
      (a.isOpen → k' ≠ [])) ?_ ?_ fun _ => excused (.pure Effect.lawful_telling _)
    · refine Parallel.tryCatch (Beside.map (Beside.imp hinvoke ?_ fun _ _ _ h => h)) ?_ ?_
      · rintro a _ s' t' ⟨rfl, k', hk', hmore⟩
        refine ⟨rfl, k', hk', fun ho => hmore ?_⟩
        cases a <;> first | rfl | cases ho
      · intro e s' t' he
        cases e with
        | thrown x =>
          obtain ⟨k', hk'⟩ := he (by simp)
          refine Surely.bind (hk'.onTerms _) ?_
          rintro b _ s'' t'' ⟨rfl, h⟩
          exact .pure ⟨rfl, k', h, by simp [GoalOutcome.isOpen]⟩
        | halted n =>
          obtain ⟨k', hk'⟩ := he (by simp)
          exact .pure ⟨rfl, k', hk', by simp [GoalOutcome.isOpen]⟩
        | spent => exact .throw rfl
      · intro e
        cases e with
        | thrown x => exact excused (.bind Effect.lawful_telling
            (Effect.lawful_telling.onTerms (Exception.extending_ofTerm _)) fun _ =>
              .pure Effect.lawful_telling _)
        | halted n => exact excused (.pure Effect.lawful_telling _)
        | spent => exact excused (.spent Effect.lawful_telling)
    · rintro o _ s' t' ⟨rfl, k', hk', ho⟩
      exact .pure ⟨rfl, hopen hk' ho⟩

/-- What is left of a search is dropped. -/
theorem Stands.drop {k : List ChoicePoint} (h : F.Stands k s t) (hlower : F.lower = [])
    (hshift : F.shift = 0) :
    Parallel F.Limited (Engine.drop ctx) (Engine.drop ctx) s t (F.Agrees []) Spent := by
  have hF := Effect.lawful_telling
  have hcut := h.cutTo (n := 0) (by simp [hlower]) (E := Spent)
  rw [hshift, Nat.zero_sub, List.take_zero] at hcut
  refine Surely.bind hcut fun goals _ s₁ t₁ h₁ => ?_
  obtain ⟨rfl, h₁⟩ := h₁
  refine Surely.bind (h₁.tell .stopping) fun _ _ s₂ t₂ h₂ => ?_
  have hstopped (e : Stop) : Effect.telling.Allows (Engine.unlessSpent e) := by
    cases e with
    | spent => exact .spent hF
    | _ => exact .pure hF _
  refine Parallel.bind (Q := F.Agrees []) ?_ (fun _ _ s₃ t₃ h₃ => (h₃.2.tell .stopped).beside)
    fun _ => excused fun w => Effect.telling_note w _
  refine Parallel.tryCatch (hctx.cleanups goals h₂.2) (fun e s₃ t₃ h₃ => ?_) fun e =>
    excused (hstopped e)
  cases e with
  | spent => exact .throw rfl
  | _ => exact .pure ⟨rfl, h₃ (by simp)⟩

theorem Seeks.stop {g : PreparedGoal} (h : F.Seeks l g s t) :
    Parallel F.Limited (Engine.stop ctx g) (Engine.stop ctx g) s t (F.Agrees l) Spent := by
  have hF := Effect.lawful_telling
  obtain ⟨hnested, r, r', k, haside, hk, -⟩ := h
  rw [Engine.stop]
  refine .get_bind ?_
  have hs : s.engine.active = some g.id := hk.active
  have ht : t.engine.active = some g.id := hk.active'
  simp only [hs, ht, ne_eq, not_true, if_false, hnested, if_true]
  have hdrop : Parallel F.Limited (Engine.drop ctx) (Engine.drop ctx) s t ((F.nest r r' g.id).Agrees [])
      Spent := hk.drop hctx rfl rfl
  refine Parallel.bind hdrop ?_ fun _ => excused ?_
  · rintro _ _ s₁ t₁ ⟨-, h₁⟩
    refine Surely.bind (h₁.undoTo 0) fun _ _ s₂ t₂ h₂ => ?_
    exact (haside.unpark h₂.2).beside
  · exact (hF.undoTo _).bind hF fun _ => Effect.telling_of_tracing Effect.uniform_tracing.unpark

/-! ### Collecting and cleanup goals -/

theorem Seeks.collectLoop (template : Term) (limit : Option Nat) (n : Nat) :
    ∀ {g : PreparedGoal} {s t : Workspace} (found : List Term), F.Seeks l g s t →
      Parallel F.Limited (Engine.collectLoop ctx template limit n g found)
        (Engine.collectLoop ctx template limit n g found) s t
        (fun a b s' t' => a = b ∧ F.Seeks l a.2.2 s' t') Spent := by
  have hF := Effect.lawful_telling
  have hcopy {g : PreparedGoal} {s t : Workspace} (h : F.Seeks l g s t) :
      Surely F.Limited (Engine.onTerms (Universe.copy template))
        (Engine.onTerms (Universe.copy template)) s t (fun a b s' t' => a = b ∧ F.Seeks l g s' t') Spent := by
    obtain ⟨hnested, r, r', k, haside, hk, hready⟩ := h
    refine (hk.onTerms _).imp ?_ fun _ _ _ h => h
    rintro a _ s' t' ⟨rfl, h'⟩
    exact ⟨rfl, hnested, r, r', k, haside, h', hready⟩
  induction n with
  | zero => exact fun _ _ => .throw rfl
  | succ n ih =>
    intro g s t found h
    rw [Engine.collectLoop]
    split
    · exact .pure ⟨rfl, h⟩
    refine Parallel.bind (h.execute hctx) ?_ fun r => ?_
    · rintro ⟨o, g'⟩ _ s₁ t₁ ⟨rfl, h₁⟩
      cases o with
      | more =>
        refine Surely.bind (hcopy h₁) ?_
        rintro a _ s₂ t₂ ⟨rfl, h₂⟩
        exact ih _ h₂
      | last =>
        refine Surely.bind (hcopy h₁) ?_
        rintro a _ s₂ t₂ ⟨rfl, h₂⟩
        exact .pure ⟨rfl, h₂⟩
      | _ => exact .pure ⟨rfl, h₁⟩
    · obtain ⟨o, g'⟩ := r
      have hcopies := hF.onTerms (Universe.extending_copy template)
      cases o with
      | more => exact excused (hcopies.bind hF fun _ =>
          Effect.telling_of_tracing (Effect.uniform_tracing.collectLoop hctx.tracing _ _ _ _ _))
      | last => exact excused (hcopies.bind hF fun _ => .pure hF _)
      | _ => exact excused (.pure hF _)

/-- A search is stopped, and what it has come to is reported. -/
theorem Seeks.conclude {g : PreparedGoal} (h : F.Seeks l g s t) {x : EngineM α}
    (hx : ∀ {s t : Workspace}, F.Stands l s t →
      Parallel F.Limited x x s t (F.Agrees l) (F.EndedAt l))
    (htraces : Effect.tracing.Allows x) :
    Parallel F.Limited (Engine.stop ctx g >>= fun _ => x) (Engine.stop ctx g >>= fun _ => x) s t
      (F.Agrees l) (F.EndedAt l) :=
  Parallel.bind ((h.stop hctx).imp (fun _ _ _ _ h => h) fun _ _ _ he => he.endedAt)
    (fun _ _ _ _ h => hx h.2) fun _ => excused (Effect.telling_of_tracing htraces)

theorem Stands.collect (h : F.Stands l s t) (template goal : Term) (limit : Option Nat) :
    Parallel F.Limited (Engine.collect ctx template goal limit) (Engine.collect ctx template goal limit)
      s t (F.Agrees l) (F.EndedAt l) := by
  refine Surely.bind (h.prepare goal) ?_
  rintro g _ s₁ t₁ ⟨rfl, h₁⟩
  refine Parallel.bind ((h₁.collectLoop hctx template limit _ []).imp (fun _ _ _ _ h => h)
    fun _ _ _ he => he.endedAt) ?_ fun r => excused (Effect.telling_of_tracing
      ((Effect.uniform_tracing.stop hctx.tracing _).bind Effect.lawful_tracing
        fun _ => Effect.uniform_tracing.collected _ _))
  rintro ⟨found, o, g'⟩ _ s₂ t₂ ⟨rfl, h₂⟩
  refine h₂.conclude hctx (fun h₃ => ?_) (Effect.uniform_tracing.collected _ _)
  cases o with
  | halted n => exact .throw fun _ => h₃
  | raised x => exact .throw fun _ => h₃
  | _ => exact .pure ⟨rfl, h₃⟩

theorem Stands.runOnce (h : F.Stands l s t) (goal : Term) :
    Parallel F.Limited (Engine.runOnce ctx goal) (Engine.runOnce ctx goal) s t (F.Agrees l)
      (F.EndedAt l) := by
  refine Surely.bind (h.prepare goal) ?_
  rintro g _ s₁ t₁ ⟨rfl, h₁⟩
  refine Parallel.bind ((h₁.execute hctx).imp (fun _ _ _ _ h => h) fun _ _ _ he => he.endedAt) ?_
    fun r => excused (Effect.telling_of_tracing
      ((Effect.uniform_tracing.stop hctx.tracing _).bind Effect.lawful_tracing
        fun _ => Effect.uniform_tracing.isSolution _))
  rintro ⟨o, g'⟩ _ s₂ t₂ ⟨rfl, h₂⟩
  refine h₂.conclude hctx (fun h₃ => ?_) (Effect.uniform_tracing.isSolution _)
  cases o with
  | halted n => exact .throw fun _ => h₃
  | raised x => exact .throw fun _ => h₃
  | _ => exact .pure ⟨rfl, h₃⟩

/-- Cleanup goals are run alike, and leave the searches where they were. -/
theorem Stands.runCleanups (goals : List Term) : ∀ {s t : Workspace}, F.Stands l s t →
    Parallel F.Limited (Engine.runCleanups ctx goals) (Engine.runCleanups ctx goals) s t (F.Agrees l)
      (F.EndedAt l) := by
  induction goals with
  | nil => exact fun h => .pure ⟨rfl, h⟩
  | cons goal goals ih =>
    intro s t h
    have hF := Effect.lawful_telling
    have htold (e : Chronicle.Event) : Effect.telling.Allows (Engine.note e) :=
      fun w => Effect.telling_note w _
    have hrest := Effect.telling_of_tracing (Effect.uniform_tracing.runCleanups hctx.tracing goals)
    refine Parallel.bind (Q := F.Agrees l) ?_ (fun _ _ s' t' h' => ih h'.2) fun _ => excused hrest
    refine Surely.bind (h.tell (.started goal)) fun _ _ s₁ t₁ h₁ => ?_
    refine Parallel.bind (Q := F.Agrees l) ?_ (fun _ _ s₂ t₂ h₂ => (h₂.2.tell (.ended goal)).beside)
      fun _ => excused (htold _)
    refine Parallel.tryCatch (E := F.EndedAt l) ?_ (fun e s₂ t₂ h₂ => ?_) fun e =>
      excused (Effect.telling_of_tracing (Effect.uniform_tracing.cleanupStopped goal e))
    · exact Beside.map ((h₁.2.runOnce hctx goal).imp (fun _ _ _ _ h => ⟨rfl, h.2⟩) fun _ _ _ h => h)
    · cases e with
      | thrown x => exact .pure ⟨rfl, h₂ (by simp)⟩
      | halted n =>
        refine Surely.bind ((h₂ (by simp)).tell (.halted goal)) fun _ _ s₃ t₃ h₃ => ?_
        exact .throw fun _ => h₃.2
      | spent => exact .throw h₂

end Footing

/-! ### Native predicates -/

/-- A native predicate keeps something for its next solution. -/
theorem Footing.Stands.pushNativeState (h : F.Stands l s t) {state : NativeState}
    (hstate : ∀ m, Stacked F.lower.length (l ++ [⟨m, .native state⟩]))
    {E : Stop → Workspace → Workspace → Prop} :
    Surely F.Limited (Engine.pushNativeState state) (Engine.pushNativeState state) s t
      (fun _ _ s' t' => ∃ k, k ≠ [] ∧ F.Stands k s' t') E :=
  (h.pushChoice hstate).imp (fun _ _ _ _ ⟨_, h⟩ => ⟨_, by simp, h⟩) fun _ _ _ h => h

namespace Builtin

open Footing

theorem beside_integer (h : F.Stands l s t) (a : Term) :
    Surely F.Limited (integer a) (integer a) s t (F.Agrees l) F.Ended := by
  refine Surely.bind (h.deref a) ?_
  rintro b _ s₁ t₁ ⟨rfl, h₁⟩
  split
  · exact h₁.raise _
  · exact .pure ⟨rfl, h₁⟩
  · exact h₁.raise _

theorem beside_rangeEnd (h : F.Stands l s t) (a : Term) :
    Surely F.Limited (rangeEnd a) (rangeEnd a) s t (F.Agrees l) F.Ended := by
  have hinteger {s t : Workspace} (h : F.Stands l s t) : Surely F.Limited
      (do return some (← integer a)) (do return some (← integer a)) s t (F.Agrees l) F.Ended := by
    refine Surely.bind (beside_integer h a) ?_
    rintro n _ s₁ t₁ ⟨rfl, h₁⟩
    exact .pure ⟨rfl, h₁⟩
  refine Surely.bind (h.deref a) ?_
  rintro b _ s₁ t₁ ⟨rfl, h₁⟩
  split
  · refine .get_bind ?_
    rw [h₁.database]
    dsimp only
    split
    · exact .pure ⟨rfl, h₁⟩
    · exact hinteger h₁
  · exact hinteger h₁

theorem beside_reportRange (h : F.Stands l s t) (a : Term) (n : Int64) (last : Option Int64) :
    Surely F.Limited (reportRange ctx a n last) (reportRange ctx a n last) s t F.Answered F.Ended := by
  rw [reportRange]
  split
  · exact .pure ⟨rfl, l, h, by simp⟩
  have hunify {k : List ChoicePoint} {s t : Workspace} (h : F.Stands k s t) (b : Answer)
      (hb : b = .more → k ≠ []) : Surely F.Limited
        (do if ← Engine.unify ctx.fuel a (.int n) then return b else return .fail)
        (do if ← Engine.unify ctx.fuel a (.int n) then return b else return .fail) s t F.Answered
        F.Ended := by
    refine Surely.bind (h.unify _ _ _) ?_
    rintro c _ s₁ t₁ ⟨rfl, h₁⟩
    cases c with
    | true => exact .pure ⟨rfl, k, h₁, hb⟩
    | false => exact .pure ⟨rfl, k, h₁, by simp⟩
  dsimp only
  split
  · exact hunify h _ (by simp)
  · refine Surely.bind (h.pushNativeState fun m =>
      h.stacked.lone (p := ⟨m, .native (.range (n + 1) last)⟩) trivial) ?_
    rintro _ _ s₁ t₁ ⟨k, hk, h₁⟩
    exact hunify h₁ _ fun _ => hk

theorem beside_between (h : F.Stands l s t) (redo : Bool) (args : Array Term)
    (hl : redo = true → l ≠ []) : Surely F.Limited (runBetween ctx redo args) (runBetween ctx redo args)
      s t F.Answered F.Ended := by
  rw [runBetween]
  cases redo with
  | true =>
    refine Surely.bind (h.popNativeState (hl rfl)) ?_
    rintro p _ s₁ t₁ ⟨rfl, hsome, hnone⟩
    obtain ⟨k, h₁⟩ : ∃ k, F.Stands k s₁ t₁ := by
      cases p with
      | none => exact ⟨l, hnone rfl⟩
      | some state =>
        obtain ⟨m, k, -, h₁⟩ := hsome state rfl
        exact ⟨k, h₁⟩
    split
    · exact beside_reportRange h₁ _ _ _
    · exact .pure ⟨rfl, k, h₁, by simp⟩
  | false =>
    refine Surely.bind (beside_integer h _) ?_
    rintro low _ s₁ t₁ ⟨rfl, h₁⟩
    refine Surely.bind (beside_rangeEnd h₁ _) ?_
    rintro high _ s₂ t₂ ⟨rfl, h₂⟩
    refine Surely.bind (h₂.deref _) ?_
    rintro a _ s₃ t₃ ⟨rfl, h₃⟩
    split
    · exact beside_reportRange h₃ _ _ _
    · exact .pure ⟨rfl, l, h₃, by split <;> simp⟩
    · exact h₃.raise _

theorem beside_halt (h : F.Stands l s t) (args : Array Term) :
    Surely F.Limited (runHalt args) (runHalt args) s t F.Answered F.Ended := by
  rw [runHalt]
  split
  · exact h.quit 0
  refine Surely.bind (beside_integer h _) ?_
  rintro n _ s₁ t₁ ⟨rfl, h₁⟩
  dsimp only
  split
  · exact h₁.quit _
  · exact h₁.raise _

variable (hctx : ctx.Level)

include hctx

theorem beside_findall (h : F.Stands l s t) (args : Array Term) :
    Parallel F.Limited (runFindall ctx args) (runFindall ctx args) s t F.Answered F.Ended := by
  have hF := Effect.lawful_telling
  refine Parallel.bind ((h.collect hctx _ _ none).imp (fun _ _ _ _ h => h) fun _ _ _ h => h.ended) ?_
    fun found => excused ((hF.onTerms (Universe.extending_list found _)).bind hF fun _ =>
      .unifyOnce hF _ _ _)
  rintro found _ s₁ t₁ ⟨rfl, h₁⟩
  refine Surely.bind (h₁.onTerms _) ?_
  rintro a _ s₂ t₂ ⟨rfl, h₂⟩
  refine Surely.beside (Surely.bind (h₂.unify _ _ _) ?_)
  rintro b _ s₃ t₃ ⟨rfl, h₃⟩
  exact .pure ⟨rfl, l, h₃, by cases b <;> simp⟩

/-- A call of `call_cleanup/2` whose goal has ended. -/
theorem beside_conclude (h : F.Stands l s t) (hl : l ≠ []) {r : Except Stop Answer} (hr : r ≠ .ok .more) :
    Parallel F.Limited (conclude ctx r) (conclude ctx r) s t F.Answered F.Ended := by
  have hF := Effect.lawful_telling
  refine Surely.bind (h.popCleanup hl) ?_
  rintro goal _ s₁ t₁ ⟨rfl, k, h₁⟩
  refine Parallel.bind ((hctx.cleanups goal.toList h₁).imp (fun _ _ _ _ h => h) fun _ _ _ h hne => ⟨k, h hne⟩)
    ?_ fun _ => excused ?_
  · rintro _ _ s₂ t₂ ⟨-, h₂⟩
    cases r with
    | ok a => exact .pure ⟨rfl, k, h₂, fun ha => absurd (congrArg _ ha) hr⟩
    | error e => exact .throw (h₂.ended e)
  · cases r with
    | ok a => exact .pure hF a
    | error e => exact fun w => List.suffix_refl _

/-- A goal has been called, or has been asked for another solution, with what stands for its cleanup goal
below it. -/
theorem beside_finish {k : List ChoicePoint} {e : ChoicePoint} (hl : Stacked F.lower.length l)
    (he : e.kind.Lone) (h : (F.above (l ++ [e])).Stands k s t) (code : Code) (args : Array Term)
    (redo : Bool) (hk : k = [] ↔ redo = false) :
    Parallel F.Limited (finish ctx code args redo) (finish ctx code args redo) s t F.Answered F.Ended := by
  have hF := Effect.lawful_telling
  have hle : Stacked F.lower.length (l ++ [e]) := hl.lone he
  have hinvoke : Parallel F.Limited (ctx.invoke (.code code) args redo) (ctx.invoke (.code code) args redo)
      s t (F.above (l ++ [e])).Answered (F.above (l ++ [e])).Ended := by
    cases redo with
    | false =>
      obtain rfl := hk.mpr rfl
      exact hctx.call _ _ h
    | true => exact hctx.redo _ _ (fun hnil => absurd (hk.mp hnil) (by simp)) h
  refine Parallel.bind (Q := fun r r' s' t' => r = r' ∧
    (∀ a, r = .ok a → ∃ k, (F.above (l ++ [e])).Stands k s' t' ∧ (a = .more → k ≠ [])) ∧
    ∀ x, r = .error x → (F.above (l ++ [e])).Ended x s' t') ?_ ?_ ?_
  · refine Parallel.tryCatch (Beside.map (Beside.imp hinvoke ?_ fun _ _ _ h => h)) ?_ ?_
    · rintro a _ s' t' ⟨rfl, ha⟩
      exact ⟨rfl, fun b hb => Except.ok.inj hb ▸ ha, fun x hx => by cases hx⟩
    · exact fun x s' t' hx => .pure ⟨rfl, fun a ha => (by cases ha), fun y hy => Except.error.inj hy ▸ hx⟩
    · exact fun x => excused (.pure hF _)
  · rintro r _ s₁ t₁ ⟨rfl, hok, hended⟩
    -- what is above the footing includes what stands for the cleanup goal
    have hconclude {k : List ChoicePoint} {s t : Workspace} {r : Except Stop Answer}
        (h : (F.above (l ++ [e])).Stands k s t) (hr : r ≠ .ok .more) :
        Parallel F.Limited (conclude ctx r) (conclude ctx r) s t F.Answered F.Ended :=
      beside_conclude hctx (h.below hle) (by simp) hr
    rcases r with (x | n) | a
    · obtain ⟨k, hk⟩ := hended _ rfl (by simp)
      exact hconclude hk (by simp)
    · obtain ⟨k, hk⟩ := hended _ rfl (by simp)
      exact hconclude (r := .error (.halted n)) (hk.note _ _) (by simp)
    · exact .throw fun hne => absurd rfl hne
    · obtain ⟨k, hk, hmore⟩ := hok a rfl
      cases a with
      | more =>
        have hstacked : Stacked (F.lower.length + l.length + 1) k := by
          have h := hk.stacked
          rwa [lower_above, ← List.append_assoc, List.length_append, List.length_append] at h
        have hgoal (m : Nat) : Stacked F.lower.length
            (l ++ [e] ++ k ++ [⟨m, .native (.goal code args)⟩]) := by
          rw [List.append_assoc l, List.singleton_append]
          exact hl.goal hstacked he (hmore rfl) rfl
        refine Surely.bind ((hk.below hle).pushNativeState hgoal) ?_
        rintro _ _ s₂ t₂ ⟨k', hk', h₂⟩
        exact .pure ⟨rfl, k', h₂, fun _ => hk'⟩
      | _ => exact hconclude hk (by simp)
  · intro r
    have hconclude := Effect.telling_of_tracing (Effect.uniform_tracing.conclude hctx.tracing r)
    refine excused ?_
    split
    · exact (Effect.telling_pushChoice _).bind hF fun _ => .pure hF _
    · exact .spent hF
    · exact Effect.Allows.bind hF (fun w => Effect.telling_note w _) fun _ => hconclude
    · exact hconclude

theorem beside_callCleanup (h : F.Stands l s t) (redo : Bool) (args : Array Term)
    (hl : redo = false ↔ l = []) : Parallel F.Limited (runCallCleanup ctx redo args)
      (runCallCleanup ctx redo args) s t F.Answered F.Ended := by
  rw [runCallCleanup]
  cases redo with
  | false =>
    obtain rfl := hl.mp rfl
    refine Surely.bind (h.onDatabase _) ?_
    rintro ⟨code, vars⟩ _ s₁ t₁ ⟨rfl, h₁⟩
    have hlone (m : Nat) : Stacked F.lower.length ([] ++ [⟨m, .cleanup (argument args 1)⟩]) :=
      Stacked.nil.lone trivial
    refine Surely.bind (h₁.pushChoice hlone) ?_
    rintro _ _ s₂ t₂ ⟨m, h₂⟩
    exact beside_finish hctx (e := ⟨m, .cleanup (argument args 1)⟩) .nil trivial h₂.onTop code vars false
      (by simp)
  | true =>
    refine Surely.bind (h.popNativeState fun hnil => absurd (hl.mpr hnil) (by simp)) ?_
    rintro p _ s₁ t₁ ⟨rfl, hsome, hnone⟩
    have hother {k : List ChoicePoint} (h : F.Stands k s₁ t₁) : Parallel F.Limited
        (pure .fail : EngineM Answer) (pure .fail : EngineM Answer) s₁ t₁ F.Answered F.Ended :=
      .pure ⟨rfl, k, h, by simp⟩
    cases p with
    | none => exact hother (hnone rfl)
    | some state =>
      obtain ⟨m, k, rfl, h₁⟩ := hsome state rfl
      cases state with
      | range next last => exact hother h₁
      | host n => exact hother h₁
      | goal code args =>
        obtain ⟨l, e, k, rfl, hk, he, hl, hstacked⟩ := h.stacked.supports
        have habove : (F.above (l ++ [e])).Stands k s₁ t₁ := by
          refine Stands.above (by simpa using h₁) ?_
          rwa [List.length_append, List.length_singleton, ← Nat.add_assoc]
        exact beside_finish hctx hl he habove code args true (by simp [hk])

theorem beside_execute (h : F.Stands l s t) (redo : Bool) (args : Array Term) (b : Builtin)
    (hl : redo = false ↔ l = []) : Parallel F.Limited (b.execute ctx redo args) (b.execute ctx redo args)
      s t F.Answered F.Ended := by
  cases b with
  | between => exact (beside_between h redo args fun hredo hnil => by simp [hl.mpr hnil] at hredo).beside
  | findall => exact beside_findall hctx h args
  | callCleanup => exact beside_callCleanup hctx h redo args hl
  | halt => exact (beside_halt h args).beside

end Builtin

/-! ### Calls -/

namespace Solver

open Footing

/-- All calls end alike on every footing. -/
theorem level_context (n : Nat) : (context .none n).Level := by
  have htracing := tracing_context Host.tracing_none
  induction n with
  | zero =>
    exact ⟨fun _ _ _ => .throw fun hne => absurd rfl hne, fun _ _ _ _ => .throw fun hne => absurd rfl hne,
      fun _ _ => .throw fun hne => absurd rfl hne, fun f h => h.onTerms (Activation.faultException f),
      htracing 0⟩
  | succ n ih =>
    have hinvoke {F : Footing} {l : List ChoicePoint} {s t : Workspace} (callee : Callee)
        (args : Array Term) (redo : Bool) (hl : redo = false ↔ l = []) (h : F.Stands l s t) :
        Parallel F.Limited (invoke .none (context .none n) callee args redo)
          (invoke .none (context .none n) callee args redo) s t F.Answered F.Ended := by
      refine Surely.bind h.checkDepth fun _ _ s₁ t₁ h₁ => h₁.2.nested fun s t h => ?_
      rcases callee with code | b | id
      · cases redo with
        | false =>
          obtain rfl := hl.mp rfl
          exact h.start ih code args
        | true => exact h.resume ih (fun hnil => absurd (hl.mpr hnil) (by simp)) code args
      · exact Builtin.beside_execute ih h redo args b hl
      · exact .throw fun hne => absurd rfl hne
    exact ⟨fun callee args => hinvoke callee args false (by simp),
      fun callee args hl => hinvoke callee args true (by simp [hl]),
      fun goals h => h.runCleanups ih goals, fun f h => h.onTerms (Activation.faultException f),
      htracing (n + 1)⟩

end Solver

end Resolvent
