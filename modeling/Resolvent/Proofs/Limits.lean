import Resolvent.Proofs.Refusing

/-!
# Limits

The limits of an engine are pure guards: they never lead a run elsewhere, they only refuse. By induction
on the fuel all calls end alike with greater limits if no limit refuses anything
(`Solver.steady_context`). So a host that asks an engine for one thing after the other, deciding each
time by all that it has seen before, sees the same outcomes, answers and errors with greater limits
(`Engine.converse_eased`). What a limit refuses costs a variable, so a host that only searches can tell by
the variables that nothing has been refused (`Engine.not_limited_converse`).
-/

namespace Resolvent

variable {α : Type} {c c' : Config}

/-! ### Searches -/

namespace Engine

theorem steady_prepare (goal : Term) : Steady c c' (prepare goal) := by
  have hactivate : Steady c c' activate := by
    refine Easing.Indifferent.bind (.modifyGet (fun _ hs => ⟨hs.config, hs.limit⟩) (fun _ h => h)
      fun _ => rfl) fun id => ?_
    exact Steady.mark.discard.bind fun _ => .pure _
  have hpark : Steady c c' park :=
    fun _ hs => ⟨⟨hs.config, hs.limit⟩, id, fun _ => rfl⟩
  refine (Steady.onDatabase _).bind fun r => .get_bind (fun _ _ => rfl) fun s => ?_
  exact .ite (hpark.bind fun _ => hactivate.bind fun _ => .pure _) (hactivate.bind fun _ => .pure _)

variable {ctx : Context} (hctx : ctx.Steady c c')

include hctx

theorem steady_execute (g : PreparedGoal) : Steady c c' (execute ctx g) := by
  refine .ite (.pure _) (.get_bind (fun _ _ => rfl) fun s => .ite ?_ ?_)
  · exact (Steady.onTerms _).bind fun _ => .pure _
  · refine (Easing.Indifferent.tryCatch ((hctx.invoke _ _ _).map _) fun e => ?_).bind fun _ => .pure _
    cases e with
    | thrown x => exact (Steady.onTerms _).bind fun _ => .pure _
    | halted n => exact .pure _
    | spent => exact .throw _

theorem steady_stop (g : PreparedGoal) : Steady c c' (stop ctx g) := by
  have hdrop : Steady c c' (drop ctx) := by
    refine (Steady.cutTo 0).bind fun goals => (Steady.note .stopping).bind fun _ => ?_
    refine (Easing.Indifferent.tryCatch (hctx.runCleanups _) fun e => ?_).bind fun _ =>
      Steady.note .stopped
    cases e with
    | spent => exact .throw _
    | _ => exact .pure _
  have hunpark : Steady c c' unpark := by
    refine .modify (fun s hs => ?_) (fun s h => ?_) fun s => ?_
    · split
      · exact hs
      · exact ⟨hs.config, hs.limit⟩
    · split <;> exact h
    · obtain ⟨_, _, _, _, _, _ | ⟨p, rest⟩, _, _, _⟩ := s
      · rfl
      · rfl
  refine .get_bind (fun _ _ => rfl) fun s => .ite (.pure _) (hdrop.bind fun _ => ?_)
  refine (Steady.undoTo 0).bind fun _ => .ite hunpark ?_
  exact .modify (fun _ hs => ⟨hs.config, hs.limit⟩) (fun _ h => h) fun _ => rfl

theorem steady_collect (template goal : Term) (limit : Option Nat) :
    Steady c c' (collect ctx template goal limit) := by
  have hloop (n : Nat) : ∀ g found, Steady c c' (collectLoop ctx template limit n g found) := by
    induction n with
    | zero => exact fun _ _ => .throw _
    | succ n ih =>
      intro g found
      refine .ite (.pure _) ((steady_execute hctx g).bind fun r => ?_)
      obtain ⟨o, g'⟩ := r
      cases o with
      | more => exact (Steady.onTerms _).bind fun t => ih g' (t :: found)
      | last => exact (Steady.onTerms _).bind fun _ => .pure _
      | _ => exact .pure _
  refine (steady_prepare goal).bind fun g => (hloop _ g []).bind fun r => ?_
  refine (steady_stop hctx _).bind fun _ => ?_
  unfold GoalOutcome.collected
  split
  · exact .throw _
  · exact .throw _
  · exact .pure _

theorem steady_runOnce (goal : Term) : Steady c c' (runOnce ctx goal) := by
  refine (steady_prepare goal).bind fun g => (steady_execute hctx g).bind fun r => ?_
  refine (steady_stop hctx _).bind fun _ => ?_
  unfold GoalOutcome.isSolution
  split
  · exact .pure _
  · exact .pure _
  · exact .pure _
  · exact .throw _
  · exact .throw _

theorem steady_runCleanups (goals : List Term) : Steady c c' (runCleanups ctx goals) := by
  refine .forM (fun goal => (Steady.note (.started goal)).bind fun _ => ?_) goals
  refine (Easing.Indifferent.tryCatch (steady_runOnce hctx goal).discard fun e => ?_).bind fun _ =>
    Steady.note (.ended goal)
  cases e with
  | thrown x => exact .pure _
  | halted n => exact (Steady.note (.halted goal)).bind fun _ => .throw _
  | spent => exact .throw _

end Engine

/-! ### Predicates that every database has -/

namespace Builtin

theorem steady_popNativeState : Steady c c' Engine.popNativeState := by
  refine Steady.top?.bind fun p => ?_
  split
  · exact Steady.pop.bind fun _ => (Steady.undoTo _).bind fun _ => .pure _
  · exact .pure _

theorem steady_integer (t : Term) : Steady c c' (integer t) := by
  refine (Steady.deref t).bind fun t' => ?_
  split
  · exact Steady.raise _
  · exact .pure _
  · exact Steady.raise _

theorem steady_rangeEnd (t : Term) : Steady c c' (rangeEnd t) := by
  refine (Steady.deref t).bind fun t' => ?_
  split
  · refine .get_bind (fun _ _ => rfl) fun s => ?_
    exact .ite (.pure _) ((steady_integer t).bind fun _ => .pure _)
  · exact (steady_integer t).bind fun _ => .pure _

variable {ctx : Context} (hc : c.Eased c') (hctx : ctx.Steady c c')

include hc

theorem steady_reportRange (t : Term) (n : Int64) (last : Option Int64) :
    Steady c c' (reportRange ctx t n last) := by
  have hunify (a : Answer) : Steady c c' (do
      if ← Engine.unify ctx.fuel t (.int n) then return a else return .fail : EngineM Answer) :=
    (Steady.unify _ _ _).bind fun b => .ite (.pure _) (.pure _)
  refine .ite (.pure _) (.ite (hunify _) ?_)
  exact (Engine.steady_pushChoice hc _).bind fun _ => hunify _

theorem steady_between (redo : Bool) (args : Array Term) : Steady c c' (runBetween ctx redo args) := by
  rw [runBetween]
  split
  · refine steady_popNativeState.bind fun p => ?_
    split
    · exact steady_reportRange hc _ _ _
    · exact .pure _
  · refine (steady_integer _).bind fun low => (steady_rangeEnd _).bind fun high => ?_
    refine (Steady.deref _).bind fun t => ?_
    split
    · exact steady_reportRange hc _ _ _
    · exact .pure _
    · exact Steady.raise _

include hctx

omit hc in
theorem steady_conclude (result : Except Stop Answer) : Steady c c' (conclude ctx result) := by
  refine Easing.Indifferent.bind ?_ fun r => (hctx.runCleanups _).bind fun _ => ?_
  · refine Steady.top?.bind fun p => ?_
    split
    · exact Steady.pop.bind fun _ => .pure _
    · exact .pure _
  · cases result with
    | ok a => exact .pure a
    | error e => exact .throw e

theorem steady_finish (code : Code) (args : Array Term) (redo : Bool) :
    Steady c c' (finish ctx code args redo) := by
  refine (Easing.Indifferent.tryCatch ((hctx.invoke _ _ _).map _) fun e => .pure _).bind fun result => ?_
  split
  · exact (Engine.steady_pushChoice hc _).bind fun _ => .pure _
  · exact .throw _
  · refine Easing.Indifferent.bind (.modify (fun _ hs => ⟨hs.config, hs.limit⟩) (fun _ h => h.note _)
      fun _ => rfl) fun _ => steady_conclude hctx _
  · exact steady_conclude hctx _

theorem steady_execute (redo : Bool) (args : Array Term) (b : Builtin) :
    Steady c c' (b.execute ctx redo args) := by
  cases b with
  | between => exact steady_between hc redo args
  | findall =>
    exact (Engine.steady_collect hctx _ _ _).bind fun _ => (Steady.onTerms _).bind fun _ =>
      Steady.unifyOnce _ _ _
  | callCleanup =>
    show Steady c c' (runCallCleanup ctx redo args)
    rw [runCallCleanup]
    split
    · refine steady_popNativeState.bind fun p => ?_
      split
      · exact steady_finish hc hctx _ _ _
      · exact .pure _
    · refine (Steady.onDatabase _).bind fun r => ?_
      exact (Engine.steady_pushChoice hc _).bind fun _ => steady_finish hc hctx _ _ _
  | halt =>
    refine .ite (Steady.quit 0) ((steady_integer _).bind fun n => ?_)
    exact .ite (Steady.quit _) (Steady.raise _)

end Builtin

/-! ### Calls with any fuel -/

namespace Solver

variable {host : Host}

/-- A call is carried out alike if the calls that it makes in turn are. -/
theorem steady_invoke (hc : c.Eased c') (hhost : host.Steady c c') {ctx : Context}
    (hctx : ctx.Steady c c') (callee : Callee) (args : Array Term) (redo : Bool) :
    Steady c c' (invoke host ctx callee args redo) := by
  refine (steady_checkDepth hc).bind fun _ => steady_nested ?_
  rcases callee with code | b | id
  · exact .ite (Activation.steady_resume hc hctx code args) (Activation.steady_start hc hctx code args)
  · exact Builtin.steady_execute hc hctx redo args b
  · exact hhost ctx hctx id redo args

/-- All calls, with whatever fuel, are carried out alike. -/
theorem steady_context (hc : c.Eased c') (hhost : host.Steady c c') (n : Nat) :
    (context host n).Steady c c' := by
  induction n with
  | zero =>
    exact ⟨fun _ _ _ => .throw _, fun _ => .throw _, fun f =>
      Steady.onTerms (Activation.faultException f)⟩
  | succ n ih =>
    exact ⟨steady_invoke hc hhost ih, Engine.steady_runCleanups ih, fun f =>
      Steady.onTerms (Activation.faultException f)⟩

end Solver

/-! ### What a host sees -/

/-- What a host does with an engine. -/
inductive Request where
  /-- It prepares a goal. -/
  | prepare (goal : Term)
  /-- It searches for the next solution of a goal. -/
  | execute (fuel : Nat) (g : PreparedGoal)
  /-- It drops what is left of a search. -/
  | stop (fuel : Nat) (g : PreparedGoal)
  /-- It works on the database, to make goals or to change predicates. -/
  | work (step : DatabaseM Unit)

/-- What a host is given. -/
inductive Reply where
  /-- A goal, prepared. -/
  | prepared (g : PreparedGoal)
  /-- An outcome, and the goal as it is now. -/
  | executed (o : GoalOutcome) (g : PreparedGoal)
  /-- Nothing. -/
  | done

/-- What a host sees when it has asked for something. -/
structure Sight where
  /-- What it has been given, or what has ended the step. -/
  reply : Except Stop Reply
  /-- The database, with the bindings in it. -/
  database : Database

namespace Request

/-- The request is carried out. -/
def serve (host : Host) : Request → EngineM Reply
  | prepare goal => .prepared <$> Engine.prepare goal
  | execute n g => do
    let (o, g) ← Engine.execute (Solver.context host n) g
    return .executed o g
  | stop n g => do
    Engine.stop (Solver.context host n) g
    return .done
  | work step => do
    Engine.onDatabase step
    return .done

/-- What is seen of the request, and where it leads to. -/
def ask (host : Host) (r : Request) (s : Workspace) : Sight × Workspace :=
  match r.serve host s with
  | .ok reply s => (⟨.ok reply, s.database⟩, s)
  | .error e s => (⟨.error e, s.database⟩, s)

end Request

/-- A host asks for at most `n` things, each of which it decides on by all that it has seen before, the
latest first. -/
def Engine.converse (host : Host) (script : List Sight → Option Request) :
    Nat → List Sight → Workspace → List Sight × Workspace
  | 0, seen, s => (seen, s)
  | n + 1, seen, s =>
    match script seen with
    | none => (seen, s)
    | some r => converse host script n ((r.ask host s).1 :: seen) (r.ask host s).2

namespace Request

variable {host : Host}

theorem steady_serve (hc : c.Eased c') (hhost : host.Steady c c') (r : Request) :
    Steady c c' (r.serve host) := by
  cases r with
  | prepare goal => exact (Engine.steady_prepare goal).map _
  | execute n g =>
    exact (Engine.steady_execute (Solver.steady_context hc hhost n) g).bind fun _ => .pure _
  | stop n g =>
    exact (Engine.steady_stop (Solver.steady_context hc hhost n) g).bind fun _ => .pure _
  | work step => exact (Steady.onDatabase step).bind fun _ => .pure _

/-- The same is seen with greater limits. -/
theorem leads_ask (hc : c.Eased c') (hhost : host.Steady c c') (r : Request) {s : Workspace}
    (hs : s.Under c) : (Workspace.easing c c').Leads s (r.ask host s).2
      (r.ask host (s.ease c') = ((r.ask host s).1, (r.ask host s).2.ease c')) := by
  have h := steady_serve hc hhost r s hs
  cases hx : r.serve host s with
  | ok reply t =>
    obtain ⟨hfits, hlimited, heased⟩ := h.ok hx
    simp only [ask, hx]
    exact ⟨hfits, hlimited, fun ht => by rw [show r.serve host (s.ease c') = _ from heased ht]; rfl⟩
  | error e t =>
    obtain ⟨hfits, hlimited, heased⟩ := h.error hx
    simp only [ask, hx]
    exact ⟨hfits, hlimited, fun ht => by rw [show r.serve host (s.ease c') = _ from heased ht]; rfl⟩

end Request

namespace Engine

variable {host : Host}

theorem leads_converse (hc : c.Eased c') (hhost : host.Steady c c')
    (script : List Sight → Option Request) (n : Nat) : ∀ (seen : List Sight) {s : Workspace},
    s.Under c → (Workspace.easing c c').Leads s (converse host script n seen s).2
      (converse host script n seen (s.ease c') = ((converse host script n seen s).1,
        (converse host script n seen s).2.ease c')) := by
  induction n with
  | zero => exact fun _ _ hs => ⟨hs, id, fun _ => rfl⟩
  | succ n ih =>
    intro seen s hs
    simp only [converse]
    cases script seen with
    | none => exact ⟨hs, id, fun _ => rfl⟩
    | some r =>
      have h := r.leads_ask hc hhost hs
      refine h.trans (ih _ h.fits) fun hask hrest => ?_
      dsimp only
      rw [hask]
      exact hrest

/-- With greater limits a host sees the same, if no limit does not allow what is to be done: the same
outcomes, answers and errors, in the same order, whatever it asks for. Only the limits are different in
the end. -/
theorem converse_eased (hc : c.Eased c') (hhost : host.Steady c c') (d : Database)
    (script : List Sight → Option Request) (n : Nat)
    (h : ¬(converse host script n [] ⟨d, .ofConfig c⟩).2.Limited) :
    converse host script n [] ⟨d, .ofConfig c'⟩ = ((converse host script n [] ⟨d, .ofConfig c⟩).1,
      (converse host script n [] ⟨d, .ofConfig c⟩).2.ease c') :=
  (leads_converse hc hhost script n [] (s := ⟨d, .ofConfig c⟩) ⟨rfl, rfl⟩).eased h

end Engine

/-! ### A run within its limits -/

namespace Request

/-- The request is one for a search, and not one that works on the database itself. -/
def IsSearch : Request → Prop
  | work _ => False
  | _ => True

variable {host : Host} {r : Request}

theorem heeds_serve (hhost : host.Heeding) (hr : r.IsSearch) : Keeps Workspace.Heeds (r.serve host) := by
  have hrun := Operation.heeds_run hhost
  cases r with
  | prepare goal => exact Keeps.map _ fun s => yields_discard.mp (hrun (.prepare goal) s)
  | execute n g =>
    exact Keeps.bind (fun s => yields_discard.mp (hrun (.execute n g) s)) fun _ => .pure _
  | stop n g => exact Keeps.bind (hrun (.stop n g)) fun _ => .pure _
  | work step => exact hr.elim

theorem heeds_ask (hhost : host.Heeding) (hr : r.IsSearch) (s : Workspace) : s.Heeds (r.ask host s).2 := by
  have h := heeds_serve hhost hr s
  rw [ask]
  unfold Yields at h
  split at h <;> rename_i heq <;> rw [heq] <;> exact h

end Request

namespace Engine

variable {host : Host} {script : List Sight → Option Request}

theorem heeds_converse (hhost : host.Heeding) (hscript : ∀ seen, ∀ r ∈ script seen, r.IsSearch) (n : Nat) :
    ∀ (seen : List Sight) (s : Workspace), s.Heeds (converse host script n seen s).2 := by
  induction n with
  | zero => exact fun _ s => .refl s
  | succ n ih =>
    intro seen s
    rw [converse]
    cases hr : script seen with
    | none => exact .refl s
    | some r => exact (r.heeds_ask hhost (hscript seen r hr) s).trans (ih _ _)

/-- A host that only searches can tell that no limit has refused anything: there are no more variables than
before. -/
theorem not_limited_converse (hhost : host.Heeding) (hscript : ∀ seen, ∀ r ∈ script seen, r.IsSearch)
    {n : Nat} {s : Workspace} (hs : ¬s.Limited) (hsize : (converse host script n [] s).2.moment.store.size ≤
      s.moment.store.size) : ¬(converse host script n [] s).2.Limited := fun h =>
  ((heeds_converse hhost hscript n [] s).limited h).elim hs (Nat.not_lt.mpr hsize)

/-- Nothing has been told of by a new engine. -/
theorem not_limited_ofConfig (d : Database) (c : Config) : ¬Workspace.Limited ⟨d, .ofConfig c⟩ := by
  have hchronicle : Workspace.chronicle ⟨d, .ofConfig c⟩ = [] := by
    unfold Workspace.chronicle Engine.ofConfig
    exact Ghost.value_of _
  simp [Workspace.Limited, hchronicle]

/-- A host that prepares `(between(8, 9, X), call_cleanup((true ; true), true))`, searches for three
solutions and drops the last one. -/
def sampleScript : List Sight → Option Request
  | [] => some (.prepare (.compound 3 .conj [rangeGoal, heldGoal]))
  | [⟨.ok (.prepared g), _⟩] => some (.execute 20 g)
  | [⟨.ok (.executed .more g), _⟩, _] => some (.execute 20 g)
  | [⟨.ok (.executed .more g), _⟩, _, _] => some (.execute 20 g)
  | [⟨.ok (.executed .more g), _⟩, _, _, _] => some (.stop 20 g)
  | _ => none

theorem isSearch_sampleScript (seen : List Sight) : ∀ r ∈ sampleScript seen, r.IsSearch := by
  unfold sampleScript
  split <;> rintro _ ⟨⟩ <;> trivial

/-- Everything that the host asks for is done, with choice points and cleanup goals, and no limit refuses
anything; so it is done with greater limits too. -/
theorem converse_eased_sample : ∃ c', Config.standard.Eased c' ∧ c' ≠ .standard ∧
    Host.none.Steady .standard c' ∧
    let d := (Workspace.varied .initial).database
    (converse .none sampleScript 5 [] ⟨d, .ofConfig .standard⟩).1.length = 5 ∧
    ¬(converse .none sampleScript 5 [] ⟨d, .ofConfig .standard⟩).2.Limited ∧
    converse .none sampleScript 5 [] ⟨d, .ofConfig c'⟩ =
      ((converse .none sampleScript 5 [] ⟨d, .ofConfig .standard⟩).1,
        (converse .none sampleScript 5 [] ⟨d, .ofConfig .standard⟩).2.ease c') := by
  let c' : Config := ⟨0x200000, 2000, 0x200000, 131072, false, .error⟩
  have hc : Config.standard.Eased c' :=
    ⟨by decide, by decide, by decide, by decide, rfl, rfl⟩
  have hhost : Host.none.Steady .standard c' :=
    fun _ _ _ _ _ => .throw _
  have hrun : (converse .none sampleScript 5 [] (.varied .initial)).1.length = 5 ∧
      (converse .none sampleScript 5 [] (.varied .initial)).2.moment.store.size ≤
        (Workspace.varied .initial).moment.store.size := by
    decide +kernel
  have hlimited := not_limited_converse Host.heeding_none isSearch_sampleScript
    (not_limited_ofConfig _ _) hrun.2
  refine ⟨c', hc, fun heq => ?_, hhost, hrun.1, hlimited, converse_eased hc hhost _ _ _ hlimited⟩
  exact absurd (congrArg Config.maxOperands heq) (by decide)

end Engine

end Resolvent
