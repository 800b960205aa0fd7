import Resolvent.Proofs.Halting

/-!
# Cleanup goals of dropped choice points

Choice points are dropped by a cut, by an exception that unwinds an activation, and when the search for a
goal is stopped. The goals of the cleanup points among them are run then, one after the other.

In a chronicle whatever begins also ends, so what happens while something is going on stands between its
beginning and its end (`Chronicle.Balanced`). The cleanup goals that are started while nothing else is
going on can therefore be told from those that are started by these in turn (`Chronicle.outermost`).

The goals of the dropped choice points are started once each, the newest first, also when one of them fails
or throws an exception (`Chronicle.Swept`). Only a goal that asks for the end of the run ends this:
it is the last one that is started (`Chronicle.CutShort`), and the goals of older choice points are lost.
`Engine.sweeps_dropped` says so for all three ways of dropping choice points.
-/

namespace Resolvent

namespace Chronicle

/-! ### What begins also ends -/

/-- Whatever has begun in the chronicle has ended there, and the other way round. -/
inductive Balanced : Chronicle → Prop
  | nil : Balanced []
  | event {e : Event} {l : Chronicle} (he : ∀ ts, e.open ts = ts) (h : Balanced l) : Balanced (e :: l)
  | cleanup {e : Event} {goal : Term} {inner l : Chronicle} (he : e = .ended goal ∨ e = .halted goal)
    (hinner : Balanced inner) (h : Balanced l) : Balanced (e :: (inner ++ .started goal :: l))
  | drop {inner l : Chronicle} (hinner : Balanced inner) (h : Balanced l) :
    Balanced (.stopped :: (inner ++ .stopping :: l))

/-- The cleanup goals that have been started while nothing else was going on, the latest first. -/
def outermost : Chronicle → List Term
  | [] => []
  | e :: l => (if tasks l = [] then e.started?.toList else []) ++ outermost l

variable {e : Event} {goal : Term} {goals : List Term} {inner l l' : Chronicle}

namespace Balanced

theorem append (h : Balanced l) (h' : Balanced l') : Balanced (l' ++ l) := by
  induction h' with
  | nil => exact h
  | event he _ ih => exact .event he ih
  | cleanup he hinner _ _ ih =>
    rw [List.cons_append, List.append_assoc]
    exact .cleanup he hinner ih
  | drop hinner _ _ ih =>
    rw [List.cons_append, List.append_assoc]
    exact .drop hinner ih

/-- What was going on before is still going on. -/
theorem tasks_append (h : Balanced l) : ∀ before, tasks (l ++ before) = tasks before := by
  induction h with
  | nil => exact fun _ => rfl
  | event he _ ih =>
    intro before
    rw [List.cons_append, tasks, he, ih]
  | cleanup he _ _ ihinner ih =>
    intro before
    rw [List.cons_append, tasks, List.append_assoc, ihinner, List.cons_append, tasks, ih]
    rcases he with rfl | rfl
    · rfl
    · rfl
  | drop _ _ ihinner ih =>
    intro before
    rw [List.cons_append, tasks, List.append_assoc, ihinner, List.cons_append, tasks, ih]
    rfl

/-- While something is going on, nothing is started on its own. -/
theorem outermost_append (h : Balanced l) : ∀ {before}, tasks before ≠ [] →
    outermost (l ++ before) = outermost before := by
  induction h with
  | nil => exact fun _ => rfl
  | event _ h ih =>
    intro before hbefore
    rw [List.cons_append, outermost, h.tasks_append, if_neg hbefore, List.nil_append, ih hbefore]
  | cleanup _ hinner h ihinner ih =>
    intro before hbefore
    have hstarted {goal : Term} {ts : List Task} : Event.open (.started goal) ts ≠ [] :=
      List.cons_ne_nil _ _
    rw [List.cons_append, outermost, List.append_assoc, hinner.tasks_append, List.cons_append, tasks,
      if_neg hstarted, List.nil_append, ihinner (by rw [tasks]; exact hstarted), outermost,
      h.tasks_append, if_neg hbefore, List.nil_append, ih hbefore]
  | drop hinner h ihinner ih =>
    intro before hbefore
    have hstopping {ts : List Task} : Event.open .stopping ts ≠ [] := List.cons_ne_nil _ _
    rw [List.cons_append, outermost, List.append_assoc, hinner.tasks_append, List.cons_append, tasks,
      if_neg hstopping, List.nil_append, ihinner (by rw [tasks]; exact hstopping), outermost,
      h.tasks_append, if_neg hbefore, List.nil_append, ih hbefore]

end Balanced

theorem tasks_append_of_nil (h : tasks l = []) (l' : Chronicle) : tasks (l' ++ l) = tasks l' := by
  induction l' with
  | nil => exact h
  | cons e l' ih => rw [List.cons_append, tasks, tasks, ih]

theorem outermost_append_of_nil (h : tasks l = []) (l' : Chronicle) :
    outermost (l' ++ l) = outermost l' ++ outermost l := by
  induction l' with
  | nil => rfl
  | cons e l' ih =>
    rw [List.cons_append, outermost, outermost, tasks_append_of_nil h, ih, List.append_assoc]

/-! ### Goals that are run one after the other -/

/-- The goals are started in turn, each one once, and each comes to its end. -/
structure Swept (goals : List Term) (l : Chronicle) : Prop where
  /-- Everything that has begun has ended. -/
  balanced : Balanced l
  /-- No other goals are started, but by these. -/
  outermost_eq : outermost l = goals.reverse

/-- The goals are started in turn up to one that asks for the end of the run. -/
def CutShort (goals : List Term) (l : Chronicle) : Prop :=
  ∃ before goal after, goals = before ++ goal :: after ∧ Swept (before ++ [goal]) l ∧
    l.head? = some (.halted goal)

theorem Swept.nil : Swept [] [] :=
  ⟨.nil, rfl⟩

theorem Swept.cons (he : e = .ended goal ∨ e = .halted goal) (hinner : Balanced inner)
    (h : Swept goals l) : Swept (goal :: goals) (l ++ e :: (inner ++ [.started goal])) := by
  have hfirst : Balanced (e :: (inner ++ [.started goal])) := .cleanup he hinner .nil
  have htasks : tasks (e :: (inner ++ [.started goal])) = [] := by
    have := hfirst.tasks_append []
    rwa [List.append_nil] at this
  have hstarted : tasks [Event.started goal] ≠ [] := List.cons_ne_nil _ _
  refine ⟨hfirst.append h.balanced, ?_⟩
  rw [outermost_append_of_nil htasks, h.outermost_eq, List.reverse_cons, outermost, hinner.tasks_append,
    if_neg hstarted, List.nil_append, hinner.outermost_append hstarted]
  rfl

theorem CutShort.here (goals : List Term) (hinner : Balanced inner) :
    CutShort (goal :: goals) (.halted goal :: (inner ++ [.started goal])) :=
  ⟨[], goal, goals, rfl, .cons (.inr rfl) hinner .nil, rfl⟩

theorem CutShort.cons (hinner : Balanced inner) (h : CutShort goals l) :
    CutShort (goal :: goals) (l ++ .ended goal :: (inner ++ [.started goal])) := by
  obtain ⟨before, last, after, rfl, hswept, hhead⟩ := h
  refine ⟨goal :: before, last, after, rfl, .cons (.inl rfl) hinner hswept, ?_⟩
  rw [List.head?_append, hhead]
  rfl

theorem CutShort.balanced (h : CutShort goals l) : Balanced l := by
  obtain ⟨before, last, after, -, hswept, -⟩ := h
  exact hswept.balanced

end Chronicle

open Chronicle (Balanced Swept CutShort)

namespace Workspace

/-- What begins from the first workspace to the second one also ends. -/
def Brackets (s t : Workspace) : Prop :=
  ∃ l, t.chronicle = l ++ s.chronicle ∧ Balanced l

/-- The goals of the cleanup points above a height, the newest first. -/
def heldAbove (height : Nat) (s : Workspace) : List Term :=
  (s.points.drop height).reverse.filterMap ChoicePoint.cleanup?

/-- The workspace in which cleanup goals are run when all choice points have been dropped. -/
def dropping (s : Workspace) : Workspace :=
  { s with engine := { s.engine with choices := (s.engine.choices.cutTo 0).2 } }.note (.of .stopping)

theorem chronicle_dropping (s : Workspace) : s.dropping.chronicle = .stopping :: s.chronicle := by
  rw [dropping, chronicle_note, Ghost.value_of]
  rfl

namespace Brackets

variable {s t u : Workspace}

theorem quiet (h : t.chronicle = s.chronicle) : s.Brackets t :=
  ⟨[], h, .nil⟩

theorem trans (h : s.Brackets t) (h' : t.Brackets u) : s.Brackets u := by
  obtain ⟨l, ht, hl⟩ := h
  obtain ⟨l', hu, hl'⟩ := h'
  exact ⟨l' ++ l, by rw [hu, ht, List.append_assoc], hl.append hl'⟩

theorem note {e : Ghost Chronicle.Event} (he : ∀ ts, e.value.open ts = ts) : s.Brackets (s.note e) :=
  ⟨[e.value], chronicle_note s e, .event he .nil⟩

end Brackets

end Workspace

open Workspace (Brackets)

/-! ### Steps of a search -/

namespace Effect

/-- To end what is begun, unless the fuel does not suffice. -/
def bracketing : Effect where
  ok := Brackets
  err e s t := e ≠ .spent → s.Brackets t

theorem narrates_bracketing : bracketing.Narrates where
  refl s := .quiet rfl
  trans := .trans
  stopped h h' := fun he => h.trans (h' he)
  thrown := ⟨fun h => h nofun, fun h _ => h⟩
  spent _ := fun he => absurd rfl he
  faulty _ s := .quiet rfl
  faulted := .trans
  quiet := .quiet
  continues {e} s he := by
    refine .note fun ts => ?_
    generalize e.value = e at he ⊢
    cases e with
    | started | ended | halted | stopping | stopped => exact False.elim he
    | _ => rfl
  nested hx s := (Solver.agree_nested (.of_yields (hx (s.atDepth (s.engine.depth + 1))))).yields.imp
    (fun _ _ h => h) fun _ _ h => h

theorem lawful_bracketing : bracketing.Lawful :=
  narrates_bracketing.lawful

/-- What a step was stopped by may be caught, but for the lack of fuel. -/
theorem Allows.rescue {α : Type} {x : EngineM α} {f : Stop → EngineM α} (hx : bracketing.Allows x)
    (hf : ∀ e, e ≠ .spent → bracketing.Allows (f e)) (hspent : f .spent = throw .spent) :
    bracketing.Allows (tryCatch x f) := by
  intro s
  rw [yields_tryCatch]
  refine (hx s).imp (fun _ _ h => h) fun e t h => ?_
  by_cases he : e = .spent
  · rw [he, hspent]
    exact fun hne => absurd rfl hne
  · exact (hf e he t).imp (fun _ _ h' => (h he).trans h') fun _ _ h' hne => (h he).trans (h' hne)

end Effect

open Effect (bracketing narrates_bracketing lawful_bracketing)

/-- The calls end what they begin, and cleanup goals are run in turn. -/
structure Context.Sweeps (ctx : Context) : Prop where
  /-- Calls of callees. -/
  invoke : ∀ callee args redo, bracketing.Allows (ctx.invoke callee args redo)
  /-- Cleanup goals. -/
  runCleanups : ∀ goals s, Yields (ctx.runCleanups goals) s
    (fun _ t => ∃ l, t.chronicle = l ++ s.chronicle ∧ Swept goals l)
    fun e t => e = .spent ∨ (∃ n, e = .halted n) ∧ ∃ l, t.chronicle = l ++ s.chronicle ∧ CutShort goals l
  /-- Faults. -/
  report : ∀ f, bracketing.Allows (ctx.report f)

theorem Context.Sweeps.calls {ctx : Context} (hctx : ctx.Sweeps) : bracketing.Calls ctx where
  invoke := hctx.invoke
  runCleanups goals s := by
    refine (hctx.runCleanups goals s).imp (fun _ t h => ?_) fun e t h hne => ?_
    · obtain ⟨l, ht, hl⟩ := h
      exact ⟨l, ht, hl.balanced⟩
    · obtain rfl | ⟨-, l, ht, hl⟩ := h
      · exact absurd rfl hne
      · exact ⟨l, ht, hl.balanced⟩
  report f := Effect.Allows.reports narrates_bracketing.toComposes rfl (hctx.report f) f

namespace Engine

variable {ctx : Context} {s : Workspace}

/-- Choice points are dropped: nothing is told, and the goals of the cleanup points are handed over. -/
theorem tells_cutTo (height : Nat) (s : Workspace) : Yields (cutTo height) s
    (fun goals t => goals = s.heldAbove height ∧ t.chronicle = s.chronicle) fun _ _ => False := by
  rw [cutTo, yields_onChoices]
  refine ⟨?_, rfl⟩
  have hdrop : (s.engine.choices.points.extract height s.engine.choices.points.size).toList =
      s.points.drop height := by
    rw [Array.toList_extract, List.extract_eq_take_drop, ← Array.length_toList, ← List.length_drop,
      List.take_length, Workspace.points]
  simp only [ChoiceStack.cutTo, hdrop, Workspace.heldAbove]

theorem bracketing_execute (hctx : ctx.Sweeps) (g : PreparedGoal) : bracketing.Allows (execute ctx g) := by
  have hlawful := lawful_bracketing
  rw [execute]
  split
  · exact .pure hlawful _
  refine (Effect.Allows.get hlawful).bind hlawful fun s => ?_
  split
  · exact (narrates_bracketing.of_silent (Effect.silent_onTerms _)).bind hlawful fun _ => .pure hlawful _
  have hcaught (e : Stop) (he : e ≠ .spent) : bracketing.Allows (GoalOutcome.ofStop e) := by
    cases e with
    | thrown x =>
      exact (narrates_bracketing.of_silent (Effect.silent_onTerms _)).bind hlawful
        fun _ => .pure hlawful _
    | halted n => exact .pure hlawful _
    | spent => exact absurd rfl he
  have hrun := (hctx.invoke (.code g.code) g.args g.started).map hlawful GoalOutcome.ofAnswer
  exact (hrun.rescue hcaught rfl).bind hlawful fun _ => .pure hlawful _

/-- The search for a goal is stopped. What is told of the cleanup goals that are run then stands between the
beginning and the end of this. -/
theorem tells_stop {P : Chronicle → Prop} {g : PreparedGoal} (hactive : s.engine.active = some g.id)
    (h : Yields (ctx.runCleanups s.held) s.dropping
      (fun _ t => ∃ l, t.chronicle = l ++ s.dropping.chronicle ∧ P l)
      fun e t => e = .spent ∨ (∃ n, e = .halted n) ∧
        ∃ l, t.chronicle = l ++ s.dropping.chronicle ∧ P l) :
    Yields (stop ctx g) s
      (fun _ t => ∃ l, t.chronicle = .stopped :: (l ++ .stopping :: s.chronicle) ∧ P l)
      fun e _ => e = .spent := by
  have hgoals : (s.engine.choices.cutTo 0).1 = s.held := by
    simp [ChoiceStack.cutTo, Workspace.held, Workspace.points]
  have hstopped {t : Workspace} (ht : ∃ l, t.chronicle = l ++ s.dropping.chronicle ∧ P l) :
      ∃ l, (t.note (.of .stopped)).chronicle = .stopped :: (l ++ .stopping :: s.chronicle) ∧ P l := by
    obtain ⟨l, ht, hl⟩ := ht
    exact ⟨l, by simp [ht, Workspace.chronicle_dropping], hl⟩
  have hdrop : Yields (drop ctx) s
      (fun _ t => ∃ l, t.chronicle = .stopped :: (l ++ .stopping :: s.chronicle) ∧ P l)
      fun e _ => e = .spent := by
    rw [drop, yields_bind, cutTo, yields_onChoices, hgoals, yields_bind, note, yields_modify, yields_bind,
      yields_tryCatch]
    refine h.imp (fun _ t ht => hstopped ht) fun e t ht => ?_
    obtain rfl | ⟨⟨n, rfl⟩, ht⟩ := ht
    · rfl
    · exact hstopped ht
  rw [stop, yields_bind, yields_get, if_neg (not_not_intro hactive), yields_bind]
  refine hdrop.imp (fun _ t ht => ?_) fun _ _ h => h
  obtain ⟨l, ht, hl⟩ := ht
  rw [yields_bind, undoTo, yields_onBindings]
  split
  · rw [unpark, yields_modify]
    refine ⟨l, Eq.trans ?_ ht, hl⟩
    split <;> rfl
  · exact ⟨l, ht, hl⟩

/-- The goals of all cleanup points are run when the search for a goal is stopped. -/
theorem sweeps_stop (hctx : ctx.Sweeps) {g : PreparedGoal} (hactive : s.engine.active = some g.id) :
    Yields (stop ctx g) s
      (fun _ t => ∃ l, t.chronicle = .stopped :: (l ++ .stopping :: s.chronicle) ∧
        (Swept s.held l ∨ CutShort s.held l))
      fun e _ => e = .spent := by
  refine tells_stop hactive ((hctx.runCleanups _ _).imp (fun _ t h => ?_) fun e t h => ?_)
  · obtain ⟨l, ht, hl⟩ := h
    exact ⟨l, ht, .inl hl⟩
  · refine h.imp_right fun h => ⟨h.1, ?_⟩
    obtain ⟨l, ht, hl⟩ := h.2
    exact ⟨l, ht, .inr hl⟩

theorem bracketing_stop (hctx : ctx.Sweeps) (g : PreparedGoal) : bracketing.Allows (stop ctx g) := by
  intro s
  by_cases hactive : s.engine.active = some g.id
  · refine (sweeps_stop hctx hactive).imp (fun _ t h => ?_) fun e _ h hne => absurd h hne
    obtain ⟨l, ht, hl⟩ := h
    refine ⟨.stopped :: (l ++ [.stopping]), by simp [ht], .drop ?_ .nil⟩
    exact hl.elim (·.balanced) (·.balanced)
  · rw [stop, yields_bind, yields_get, if_pos hactive]
    exact .quiet rfl

theorem bracketing_collectLoop (hctx : ctx.Sweeps) (template : Term) (limit : Option Nat) (n : Nat) :
    ∀ (g : PreparedGoal) (found : List Term),
      bracketing.Allows (collectLoop ctx template limit n g found) := by
  have hlawful := lawful_bracketing
  have hcopy : bracketing.Allows (onTerms (Universe.copy template)) :=
    narrates_bracketing.of_silent (Effect.silent_onTerms _)
  induction n with
  | zero => exact fun _ _ => .spent hlawful
  | succ n ih =>
    intro g found
    rw [collectLoop]
    split
    · exact .pure hlawful _
    refine (bracketing_execute hctx g).bind hlawful fun r => ?_
    obtain ⟨o, g'⟩ := r
    cases o with
    | more => exact hcopy.bind hlawful fun _ => ih _ _
    | last => exact hcopy.bind hlawful fun _ => .pure hlawful _
    | _ => exact .pure hlawful _

theorem bracketing_collect (hctx : ctx.Sweeps) (template goal : Term) (limit : Option Nat) :
    bracketing.Allows (collect ctx template goal limit) := by
  have hlawful := lawful_bracketing
  refine (narrates_bracketing.of_silent (Effect.silent_prepare goal)).bind hlawful fun g => ?_
  refine (bracketing_collectLoop hctx template limit ctx.fuel g []).bind hlawful fun r => ?_
  obtain ⟨found, o, g'⟩ := r
  refine (bracketing_stop hctx g').bind hlawful fun _ => ?_
  cases o with
  | halted n => exact fun s _ => .quiet rfl
  | raised e => exact .thrown hlawful e
  | _ => exact .pure hlawful _

theorem bracketing_runOnce (hctx : ctx.Sweeps) (goal : Term) : bracketing.Allows (runOnce ctx goal) := by
  have hlawful := lawful_bracketing
  refine (narrates_bracketing.of_silent (Effect.silent_prepare goal)).bind hlawful fun g => ?_
  refine (bracketing_execute hctx g).bind hlawful fun r => ?_
  obtain ⟨o, g'⟩ := r
  refine (bracketing_stop hctx g').bind hlawful fun _ => ?_
  cases o with
  | halted n => exact fun s _ => .quiet rfl
  | raised e => exact .thrown hlawful e
  | _ => exact .pure hlawful _

/-- Cleanup goals are run in turn, until one of them asks for the end of the run. -/
theorem sweeps_runCleanups (hctx : ctx.Sweeps) (goals : List Term) : ∀ s, Yields (runCleanups ctx goals) s
    (fun _ t => ∃ l, t.chronicle = l ++ s.chronicle ∧ Swept goals l)
    fun e t => e = .spent ∨ (∃ n, e = .halted n) ∧
      ∃ l, t.chronicle = l ++ s.chronicle ∧ CutShort goals l := by
  induction goals with
  | nil => exact fun s => ⟨[], rfl, .nil⟩
  | cons goal goals ih =>
    intro s
    show Yields (_ >>= fun _ => runCleanups ctx goals) s _ _
    rw [yields_bind, yields_bind, note, yields_modify, yields_bind, yields_tryCatch, yields_discard]
    -- the other goals are run after the first one
    have hrest {t : Workspace} (h : (s.note (.of (.started goal))).Brackets t) :
        Yields (runCleanups ctx goals) (t.note (.of (.ended goal)))
          (fun _ u => ∃ l, u.chronicle = l ++ s.chronicle ∧ Swept (goal :: goals) l)
          fun e u => e = .spent ∨ (∃ n, e = .halted n) ∧
            ∃ l, u.chronicle = l ++ s.chronicle ∧ CutShort (goal :: goals) l := by
      obtain ⟨inner, ht, hinner⟩ := h
      have hchronicle : (t.note (.of (.ended goal))).chronicle =
          .ended goal :: (inner ++ [.started goal]) ++ s.chronicle := by simp [ht]
      refine (ih _).imp (fun _ u h => ?_) fun e u h => h.imp_right fun h => ⟨h.1, ?_⟩
      · obtain ⟨l, hu, hl⟩ := h
        exact ⟨_, by rw [hu, hchronicle, List.append_assoc], hl.cons (.inl rfl) hinner⟩
      · obtain ⟨l, hu, hl⟩ := h.2
        exact ⟨_, by rw [hu, hchronicle, List.append_assoc], hl.cons hinner⟩
    refine (bracketing_runOnce hctx goal _).imp (fun _ t h => hrest h) fun e t h => ?_
    cases e with
    | thrown x => exact hrest (h (by simp))
    | halted n =>
      obtain ⟨inner, ht, hinner⟩ := h (by simp)
      exact .inr ⟨⟨n, rfl⟩, _, by simp [ht], .here goals hinner⟩
    | spent => exact .inl rfl

end Engine

/-! ### Predicates that every database has -/

namespace Builtin

variable {ctx : Context}

theorem bracketing_conclude (hctx : ctx.Sweeps) (result : Except Stop Answer) :
    bracketing.Allows (conclude ctx result) := by
  have hlawful := lawful_bracketing
  refine (Effect.Allows.popCleanup hlawful).bind hlawful fun r => ?_
  refine (hctx.calls.runCleanups _).bind hlawful fun _ => ?_
  cases result with
  | ok a => exact .pure hlawful a
  | error e => exact fun s _ => .quiet rfl

theorem bracketing_finish (hctx : ctx.Sweeps) (code : Code) (args : Array Term) (redo : Bool) :
    bracketing.Allows (finish ctx code args redo) := by
  have hlawful := lawful_bracketing
  intro s
  rw [finish, yields_bind, yields_tryCatch, yields_map]
  have hclean (result : Except Stop Answer) {u : Workspace} (hu : s.Brackets u) :
      Yields (conclude ctx result) u (fun _ v => s.Brackets v) fun e v => e ≠ .spent → s.Brackets v :=
    (bracketing_conclude hctx result u).imp (fun _ _ h => hu.trans h) fun _ _ h hne => hu.trans (h hne)
  refine (hctx.invoke _ _ _ s).imp (fun a u hu => ?_) fun e u hu => ?_
  · cases a with
    | more =>
      have hpush := (Effect.Allows.pushNativeState hlawful (.goal code args)).bind hlawful
        fun _ => .pure hlawful Answer.more
      exact (hpush u).imp (fun _ _ h => hu.trans h) fun _ _ h hne => hu.trans (h hne)
    | last => exact hclean (.ok .last) hu
    | fail => exact hclean (.ok .fail) hu
  · rw [yields_pure]
    cases e with
    | spent => exact fun hne => absurd rfl hne
    | thrown x => exact hclean (.error (.thrown x)) (hu (by simp))
    | halted n =>
      exact hclean (.error (.halted n)) ((hu (by simp)).trans (.note fun _ => by rw [Ghost.value_map]; rfl))

theorem bracketing_execute (hctx : ctx.Sweeps) (redo : Bool) (args : Array Term) (b : Builtin) :
    bracketing.Allows (b.execute ctx redo args) := by
  have hlawful := lawful_bracketing
  cases b with
  | between => exact hlawful.between redo args
  | findall => exact hlawful.findall (fun _ _ => Engine.bracketing_collect hctx _ _ _) args
  | callCleanup => exact hlawful.callCleanup (bracketing_finish hctx) redo args
  | halt =>
    refine hlawful.halt (fun n s => ?_) args
    exact fun _ => .note fun _ => by rw [Ghost.value_of]; rfl

end Builtin

/-- The predicates of the host end what they begin, if the calls do that they may make. -/
def Host.Brackets (host : Host) : Prop :=
  ∀ ctx, bracketing.Calls ctx → ∀ id redo args, bracketing.Allows (host id ctx redo args)

theorem Host.brackets_none : Host.none.Brackets :=
  fun _ _ _ _ _ => .spent lawful_bracketing

/-- All calls end what they begin, and cleanup goals are run in turn. -/
theorem Solver.sweeps_context {host : Host} (hhost : host.Brackets) (n : Nat) :
    (context host n).Sweeps := by
  have hlawful := lawful_bracketing
  have hreport (f : Fault) : bracketing.Allows (Engine.onTerms (Activation.faultException f)) :=
    narrates_bracketing.of_silent (Effect.silent_onTerms _)
  induction n with
  | zero => exact ⟨fun _ _ _ => .spent hlawful, fun _ _ => .inl rfl, hreport⟩
  | succ n ih =>
    refine ⟨fun callee args redo => ?_, Engine.sweeps_runCleanups ih, hreport⟩
    exact hlawful.invoke ih.calls
      (hlawful.retries narrates_bracketing.invoked narrates_bracketing.pushChoice ih.calls)
      (fun b redo args => Builtin.bracketing_execute ih redo args b)
      (fun id redo args => hhost _ ih.calls id redo args) callee args redo

/-! ### Dropped choice points -/

/-- The height above which choice points are dropped when an exception is brought to the handlers of an
activation: that of its innermost handler, or that below the activation. -/
def Activation.unwindsTo (a : Activation) : Nat :=
  (a.handler?.map fun h => max h.2.height a.entry).getD (a.entry - 1)

namespace Engine

variable {ctx : Context}

/-- Choice points are dropped by a cut. -/
theorem sweeps_cut (hctx : ctx.Sweeps) {k : UInt16} {b : Barrier} {m : Machine}
    (hk : m.activation.slots[k.toNat]? = some (.barrier b)) :
    Yields (Activation.perform ctx (.cut k)) m
      (fun _ m' => ∃ l, m'.workspace.chronicle = l ++ m.workspace.chronicle ∧
        Swept (m.workspace.heldAbove (max b.height m.activation.entry)) l)
      fun i m' => i = .stop .spent ∨ (∃ status, i = .stop (.halted status)) ∧
        ∃ l, m'.workspace.chronicle = l ++ m.workspace.chronicle ∧
          CutShort (m.workspace.heldAbove (max b.height m.activation.entry)) l := by
  have hbarrier : Yields (Activation.barrier k) m (fun b' m' => b' = b ∧ m' = m) fun _ _ => False := by
    rw [Activation.barrier, yields_bind, yields_get, hk]
    exact ⟨rfl, rfl⟩
  rw [Activation.perform, yields_bind]
  refine hbarrier.imp (fun b' m' h => ?_) fun _ _ h => h.elim
  obtain ⟨rfl, rfl⟩ := h
  rw [yields_bind, yields_get, yields_bind, Activation.yields_onWorkspace]
  refine (tells_cutTo _ _).imp (fun goals t h => ?_) fun _ _ h => h.elim
  obtain ⟨rfl, ht⟩ := h
  split
  · rename_i hnone
    rw [List.isEmpty_iff.mp hnone]
    exact ⟨[], ht, .nil⟩
  · rw [yields_bind, Activation.yields_onWorkspace]
    exact (hctx.runCleanups _ t).imp (fun _ u h => ht ▸ h) fun e u h => by
      obtain rfl | ⟨⟨status, rfl⟩, h⟩ := h
      · exact .inl rfl
      · exact .inr ⟨⟨status, rfl⟩, ht ▸ h⟩

/-- When the goals of the points above a height have been run, something else is done, unless they end the
run. -/
theorem yields_sweep (hctx : ctx.Sweeps) {height : Nat} {s : Workspace} {α : Type} {f : EngineM α}
    {Q : α → Workspace → Prop} {E : Stop → Workspace → Prop}
    (hdone : ∀ l t, t.chronicle = l ++ s.chronicle → Swept (s.heldAbove height) l → Yields f t Q E)
    (hspent : ∀ t, E .spent t)
    (hhalted : ∀ n l t, t.chronicle = l ++ s.chronicle → CutShort (s.heldAbove height) l →
      E (.halted n) t) :
    Yields (cutTo height >>= fun goals => ctx.runCleanups goals >>= fun _ => f) s Q E := by
  rw [yields_bind]
  refine (tells_cutTo _ s).imp (fun goals t h => ?_) fun _ _ h => h.elim
  obtain ⟨rfl, ht⟩ := h
  rw [yields_bind]
  refine (hctx.runCleanups _ t).imp (fun _ u h => ?_) fun e u h => ?_
  · obtain ⟨l, hu, hl⟩ := h
    exact hdone l u (ht ▸ hu) hl
  · obtain rfl | ⟨⟨n, rfl⟩, l, hu, hl⟩ := h
    · exact hspent u
    · exact hhalted n l u (ht ▸ hu) hl

/-- Choice points are dropped when an exception is brought to the handlers of an activation. -/
theorem sweeps_handle (hctx : ctx.Sweeps) (x : Exception) (a : Activation) (s : Workspace) :
    Yields (Activation.handle ctx x a) s
      (fun _ t => ∃ l, t.chronicle = l ++ s.chronicle ∧ Swept (s.heldAbove a.unwindsTo) l)
      fun e t => e = .spent ∨ ∃ l, t.chronicle = l ++ s.chronicle ∧
        (e = .thrown x ∧ Swept (s.heldAbove a.unwindsTo) l ∨
          (∃ status, e = .halted status) ∧ CutShort (s.heldAbove a.unwindsTo) l) := by
  rw [Activation.handle]
  cases hhandler : a.handler? with
  | some h =>
    obtain ⟨h, b⟩ := h
    have hheight : a.unwindsTo = max b.height a.entry := by rw [Activation.unwindsTo, hhandler]; rfl
    rw [hheight]
    refine yields_sweep hctx (fun l t ht hl => ?_) (fun _ => .inl rfl)
      fun n l t ht hl => .inr ⟨l, ht, .inr ⟨⟨n, rfl⟩, hl⟩⟩
    rw [yields_bind, undoTo, yields_onBindings]
    exact ⟨l, ht, hl⟩
  | none =>
    have hheight : a.unwindsTo = a.entry - 1 := by rw [Activation.unwindsTo, hhandler]; rfl
    rw [hheight, yields_bind, yields_get]
    refine yields_sweep hctx (fun l t ht hl => ?_) (fun _ => .inl rfl)
      fun n l t ht hl => .inr ⟨l, ht, .inr ⟨⟨n, rfl⟩, hl⟩⟩
    split
    · rw [yields_bind, undoTo, yields_onBindings, yields_throw]
      exact .inr ⟨l, ht, .inl ⟨rfl, hl⟩⟩
    · exact .inr ⟨l, ht, .inl ⟨rfl, hl⟩⟩

/-- Whatever drops choice points, the goals of the cleanup points among them are run in turn, the newest
first, and started once each, whether the goals before them succeed, fail or throw exceptions. Only a goal
that asks for the end of the run is the last one that is started. -/
theorem sweeps_dropped {host : Host} (hhost : host.Brackets) (n : Nat) :
    (∀ (g : PreparedGoal) (s : Workspace), s.engine.active = some g.id →
      Yields (stop (Solver.context host n) g) s
        (fun _ t => ∃ l, t.chronicle = .stopped :: (l ++ .stopping :: s.chronicle) ∧
          (Swept s.held l ∨ CutShort s.held l))
        fun e _ => e = .spent) ∧
    (∀ (k : UInt16) (b : Barrier) (m : Machine), m.activation.slots[k.toNat]? = some (.barrier b) →
      Yields (Activation.perform (Solver.context host n) (.cut k)) m
        (fun _ m' => ∃ l, m'.workspace.chronicle = l ++ m.workspace.chronicle ∧
          Swept (m.workspace.heldAbove (max b.height m.activation.entry)) l)
        fun i m' => i = .stop .spent ∨ (∃ status, i = .stop (.halted status)) ∧
          ∃ l, m'.workspace.chronicle = l ++ m.workspace.chronicle ∧
            CutShort (m.workspace.heldAbove (max b.height m.activation.entry)) l) ∧
    ∀ (x : Exception) (a : Activation) (s : Workspace),
      Yields (Activation.handle (Solver.context host n) x a) s
        (fun _ t => ∃ l, t.chronicle = l ++ s.chronicle ∧ Swept (s.heldAbove a.unwindsTo) l)
        fun e t => e = .spent ∨ ∃ l, t.chronicle = l ++ s.chronicle ∧
          (e = .thrown x ∧ Swept (s.heldAbove a.unwindsTo) l ∨
            (∃ status, e = .halted status) ∧ CutShort (s.heldAbove a.unwindsTo) l) := by
  have hctx := Solver.sweeps_context hhost n
  refine ⟨fun g s hactive => ?_, fun k b m hk => ?_, fun x a s => ?_⟩
  · exact sweeps_stop hctx hactive
  · exact sweeps_cut hctx hk
  · exact sweeps_handle hctx x a s

/-! ### A goal that asks for the end of the run -/

/-- Whether a step is stopped because the end of the run has been asked for. -/
def halts {α : Type} (x : EngineM α) (s : Workspace) : Bool :=
  match x s with
  | .error (.halted _) _ => true
  | _ => false

theorem halts_eq_true {α : Type} {x : EngineM α} {s : Workspace} :
    halts x s = true ↔ ∃ status t, x s = .error (.halted status) t := by
  unfold halts
  split
  · rename_i status t h
    exact iff_of_true rfl ⟨status, t, h⟩
  · rename_i h
    refine iff_of_false Bool.false_ne_true ?_
    rintro ⟨status, t, hx⟩
    exact h status t hx

/-- No goal is run after one that asks for the end of the run. -/
theorem runCleanups_of_halted {goal : Term} {status : Int} {s t : Workspace}
    (h : runCleanups ctx [goal] s = .error (.halted status) t) (goals : List Term) :
    runCleanups ctx (goal :: goals) s = .error (.halted status) t := by
  let run : EngineM Unit := do
    note (.started goal)
    tryCatch (discard (runOnce ctx goal)) (cleanupStopped goal)
    note (.ended goal)
  have hfirst : runCleanups ctx [goal] = run >>= fun _ => pure () := rfl
  have hall : runCleanups ctx (goal :: goals) = run >>= fun _ => runCleanups ctx goals := rfl
  rw [hfirst] at h
  rw [hall]
  simp only [bind, EStateM.bind] at h ⊢
  cases hrun : run s with
  | ok a u =>
    rw [hrun] at h
    cases h
  | error e u =>
    rw [hrun] at h
    exact h

/-- If the goal of the newest cleanup point asks for the end of the run when the search for a goal is
stopped, it is the only one that is started. -/
theorem tells_stop_of_halts {host : Host} (hhost : host.Brackets) {n : Nat} {g : PreparedGoal}
    {s : Workspace} (hactive : s.engine.active = some g.id)
    (h : halts ((Solver.context host (n + 1)).runCleanups (s.held.take 1)) s.dropping = true) :
    Yields (stop (Solver.context host (n + 1)) g) s
      (fun _ t => ∃ l, t.chronicle = .stopped :: (l ++ .stopping :: s.chronicle) ∧
        (Chronicle.outermost l).length = 1)
      fun e _ => e = .spent := by
  have hctx := Solver.sweeps_context hhost n
  obtain ⟨status, t, hrun⟩ := halts_eq_true.mp h
  refine tells_stop hactive ?_
  cases hheld : s.held with
  | nil =>
    rw [hheld] at hrun
    cases hrun
  | cons goal goals =>
    rw [hheld] at hrun
    have hswept := yields_error (sweeps_runCleanups hctx [goal] s.dropping) hrun
    rw [Yields, show (Solver.context host (n + 1)).runCleanups (goal :: goals) s.dropping =
      .error (.halted status) t from runCleanups_of_halted hrun goals]
    obtain hspent | ⟨hstatus, l, ht, before, last, after, hgoals, hl, -⟩ := hswept
    · cases hspent
    refine .inr ⟨hstatus, l, ht, ?_⟩
    have hlength := congrArg List.length hgoals
    rw [List.length_append, List.length_cons, List.length_cons, List.length_nil] at hlength
    rw [hl.outermost_eq, List.length_reverse, List.length_append, List.length_singleton]
    omega

/-- The goal `(call_cleanup((true ; true), true), call_cleanup((true ; true), halt(3)))`. -/
def pendingGoal : Term :=
  .compound 0 .conj
    [.compound 1 ⟨24⟩ [.compound 2 .disj [.atom .trueGoal, .atom .trueGoal], .atom .trueGoal],
      .compound 3 ⟨24⟩ [.compound 4 .disj [.atom .trueGoal, .atom .trueGoal],
        .compound 5 ⟨26⟩ [.int 3]]]

/-- The goal has been executed, two cleanup goals are held, and the newer one asks for the end of the run. -/
def TwoHeld (g : PreparedGoal) (s : Workspace) : Prop :=
  s.engine.active = some g.id ∧ s.held.length = 2 ∧
    halts ((Solver.context .none 30).runCleanups (s.held.take 1)) s.dropping = true

instance (g : PreparedGoal) (s : Workspace) : Decidable (TwoHeld g s) :=
  inferInstanceAs (Decidable (_ ∧ _ ∧ _))

theorem pending_runs : ∃ g p g' s t, prepare pendingGoal .initial = .ok g p ∧
    execute (Solver.context .none 30) g p = .ok (.more, g') s ∧ TwoHeld g' s ∧
    stop (Solver.context .none 30) g' s = .ok () t := by
  have hrun : ((answer? (prepare pendingGoal) .initial).bind fun r =>
      ((answer? (execute (Solver.context .none 30) r.1) r.2).filter fun r =>
        r.1.1.isOpen && decide (TwoHeld r.1.2 r.2)).bind fun r =>
          answer? (stop (Solver.context .none 30) r.1.2) r.2).isSome := by
    decide +kernel
  obtain ⟨⟨⟨⟩, t⟩, hrun⟩ := Option.isSome_iff_exists.mp hrun
  obtain ⟨⟨g, p⟩, hp, hrun⟩ := Option.bind_eq_some_iff.mp hrun
  obtain ⟨⟨⟨o, g'⟩, s⟩, hx, ht⟩ := Option.bind_eq_some_iff.mp hrun
  obtain ⟨hx, hheld⟩ := Option.filter_eq_some_iff.mp hx
  obtain ⟨hopen, hheld⟩ := Bool.and_eq_true_iff.mp hheld
  obtain rfl : o = .more := GoalOutcome.eq_more_of_isOpen hopen
  exact ⟨g, p, g', s, t, answer?_eq_some.mp hp, answer?_eq_some.mp hx, of_decide_eq_true hheld,
    answer?_eq_some.mp ht⟩

/-- Where two cleanup goals are held, the search is stopped, or cut back to where it began. -/
theorem sweeps_dropped_pending : ∃ g p g' s t, prepare pendingGoal .initial = .ok g p ∧
    execute (Solver.context .none 30) g p = .ok (.more, g') s ∧ s.held.length = 2 ∧
    stop (Solver.context .none 30) g' s = .ok () t ∧
    (∃ l, t.chronicle = .stopped :: (l ++ .stopping :: s.chronicle) ∧
      (Swept s.held l ∨ CutShort s.held l)) ∧
    Yields (Activation.perform (Solver.context .none 30) (.cut 0))
      ⟨s, ⟨g'.code, g'.args, 0, 0, #[], #[.barrier ⟨0, 0⟩], 0⟩⟩
      (fun _ m => ∃ l, m.workspace.chronicle = l ++ s.chronicle ∧ Swept s.held l)
      fun i m => i = .stop .spent ∨ (∃ status, i = .stop (.halted status)) ∧
        ∃ l, m.workspace.chronicle = l ++ s.chronicle ∧ CutShort s.held l := by
  obtain ⟨g, p, g', s, t, hp, hx, ⟨hactive, hheld, -⟩, ht⟩ := pending_runs
  obtain ⟨hstop, hcut, -⟩ := sweeps_dropped Host.brackets_none 30
  exact ⟨g, p, g', s, t, hp, hx, hheld, ht, yields_ok (hstop g' s hactive) ht, hcut 0 ⟨0, 0⟩ _ rfl⟩

/-- Two cleanup goals are held when the search for a goal is stopped. Only the newer one is started, as it
asks for the end of the run. -/
theorem older_cleanup_lost : ∃ g p g' s t, prepare pendingGoal .initial = .ok g p ∧
    execute (Solver.context .none 30) g p = .ok (.more, g') s ∧ s.held.length = 2 ∧
    stop (Solver.context .none 30) g' s = .ok () t ∧
    ∃ l, t.chronicle = .stopped :: (l ++ .stopping :: s.chronicle) ∧
      (Chronicle.outermost l).length = 1 ∧ ¬ Swept s.held l := by
  obtain ⟨g, p, g', s, t, hp, hx, ⟨hactive, hheld, hhalts⟩, ht⟩ := pending_runs
  obtain ⟨l, hl, hone⟩ := yields_ok (tells_stop_of_halts Host.brackets_none hactive hhalts) ht
  refine ⟨g, p, g', s, t, hp, hx, hheld, ht, l, hl, hone, fun hswept => ?_⟩
  rw [hswept.outermost_eq, List.length_reverse, hheld] at hone
  cases hone

end Engine

end Resolvent
