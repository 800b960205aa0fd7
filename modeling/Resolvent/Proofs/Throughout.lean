import Resolvent.Proofs.Effects

/-!
# What whole searches do

A lawful effect that is the same whatever a step ends with (`Effect.Uniform`) is one of everything that an
engine may be asked for: of goals that are prepared, searched for and stopped, of cleanup goals, and of all
calls, if the native predicates of the host have it. Only what an engine does between two searches has to be
looked at for it.
-/

namespace Resolvent

/-- What is told of the searches as a whole, and not of their steps. -/
def Chronicle.Event.IsOutline : Chronicle.Event → Prop
  | .started _ | .ended _ | .halted _ | .quit _ | .stopping | .stopped => True
  | _ => False

namespace Effect

/-- The effect does not depend on what a step ends with, and what an engine does between two searches has
it. -/
structure Uniform (F : Effect) : Prop extends F.Lawful where
  /-- With an answer or without one. -/
  alike : ∀ {e s t}, F.err e s t ↔ F.ok s t
  /-- Something is told of a search as a whole. -/
  outline : ∀ {e : Chronicle.Event}, e.IsOutline → F.Allows (Engine.note e)
  /-- A goal with a cleanup goal is interrupted. -/
  interrupt : ∀ s, F.ok s s.interrupt
  /-- A search is set aside. -/
  park : F.Allows Engine.park
  /-- A search is taken up again. -/
  unpark : F.Allows Engine.unpark
  /-- A search is begun. -/
  activate : F.Allows Engine.activate
  /-- A fault is reported. -/
  report : ∀ f {s t}, F.fault f s t → Yields (Engine.onTerms (Activation.faultException f)) t
    (fun _ u => F.ok s u) fun e u => F.err e s u
  /-- No goal is searched for any more. -/
  rest : ∀ s, F.ok s { s with engine := { s.engine with active := none } }

variable {F : Effect} {α : Type}

/-- What has stopped a step may be looked at. -/
theorem Allows.tryCatch (hF : F.Uniform) {x : EngineM α} {f : Stop → EngineM α} (hx : F.Allows x)
    (hf : ∀ e, F.Allows (f e)) : F.Allows (tryCatch x f) := by
  intro s
  rw [yields_tryCatch]
  refine (hx s).imp (fun _ _ h => h) fun e t h => ?_
  have ht := hF.alike.mp h
  exact (hf e t).imp (fun _ _ h' => hF.trans ht h') fun _ _ h' => hF.stopped ht h'

theorem Allows.throw (hF : F.Uniform) (e : Stop) : F.Allows (throw e : EngineM α) :=
  fun s => hF.alike.mpr (hF.refl s)

namespace Uniform

variable (hF : F.Uniform) {ctx : Context}

include hF

/-! ### Searches -/

theorem prepare (goal : Term) : F.Allows (Engine.prepare goal) := by
  have hlawful := hF.toLawful
  refine (hF.compileGoal _ _).bind hlawful fun r => (Allows.get hlawful).bind hlawful fun s => ?_
  dsimp only
  split
  · exact hF.park.bind hlawful fun _ => hF.activate.bind hlawful fun _ => .pure hlawful _
  · exact hF.activate.bind hlawful fun _ => .pure hlawful _

theorem ofStop (e : Stop) : F.Allows (GoalOutcome.ofStop e) := by
  have hlawful := hF.toLawful
  cases e with
  | thrown x => exact (hF.onTerms (Exception.extending_ofTerm _)).bind hlawful fun _ => .pure hlawful _
  | halted n => exact .pure hlawful _
  | spent => exact .spent hlawful

theorem execute (hctx : F.Calls ctx) (g : PreparedGoal) : F.Allows (Engine.execute ctx g) := by
  have hlawful := hF.toLawful
  rw [Engine.execute]
  split
  · exact .pure hlawful _
  refine (Allows.get hlawful).bind hlawful fun s => ?_
  split
  · exact (hF.onTerms (Exception.extending_ofError _)).bind hlawful fun _ => .pure hlawful _
  · have hcall := (hctx.invoke (.code g.code) g.args g.started).map hlawful GoalOutcome.ofAnswer
    exact (hcall.tryCatch hF hF.ofStop).bind hlawful fun _ => .pure hlawful _

theorem drop (hctx : F.Calls ctx) : F.Allows (Engine.drop ctx) := by
  have hlawful := hF.toLawful
  have hcaught (e : Stop) : F.Allows (Engine.unlessSpent e) := by
    cases e with
    | spent => exact .spent hlawful
    | _ => exact .pure hlawful _
  refine (hF.cutTo 0).bind hlawful fun goals => ?_
  refine (hF.outline (e := .stopping) trivial).bind hlawful fun _ => ?_
  refine ((hctx.runCleanups goals).tryCatch hF hcaught).bind hlawful fun _ => ?_
  exact hF.outline trivial

theorem stop (hctx : F.Calls ctx) (g : PreparedGoal) : F.Allows (Engine.stop ctx g) := by
  have hlawful := hF.toLawful
  refine (Allows.get hlawful).bind hlawful fun s => ?_
  split
  · exact .pure hlawful _
  refine (hF.drop hctx).bind hlawful fun _ => (hF.undoTo 0).bind hlawful fun _ => ?_
  split
  · exact hF.unpark
  · exact hF.rest

theorem collectLoop (hctx : F.Calls ctx) (template : Term) (limit : Option Nat) (n : Nat) :
    ∀ g found, F.Allows (Engine.collectLoop ctx template limit n g found) := by
  have hlawful := hF.toLawful
  have hcopy (template : Term) : F.Allows (Engine.onTerms (Universe.copy template)) :=
    hF.onTerms (Universe.extending_copy _)
  induction n with
  | zero => exact fun _ _ => .spent hlawful
  | succ n ih =>
    intro g found
    rw [Engine.collectLoop]
    split
    · exact .pure hlawful _
    refine (hF.execute hctx g).bind hlawful fun r => ?_
    obtain ⟨o, g'⟩ := r
    cases o with
    | more => exact (hcopy _).bind hlawful fun t => ih g' (t :: found)
    | last => exact (hcopy _).bind hlawful fun _ => .pure hlawful _
    | _ => exact .pure hlawful _

theorem collected (found : α) (o : GoalOutcome) : F.Allows (o.collected found) := by
  cases o with
  | halted n => exact .throw hF _
  | raised x => exact .throw hF _
  | _ => exact .pure hF.toLawful _

theorem isSolution (o : GoalOutcome) : F.Allows o.isSolution := by
  cases o with
  | halted n => exact .throw hF _
  | raised x => exact .throw hF _
  | _ => exact .pure hF.toLawful _

theorem collect (hctx : F.Calls ctx) (template goal : Term) (limit : Option Nat) :
    F.Allows (Engine.collect ctx template goal limit) := by
  have hlawful := hF.toLawful
  refine (hF.prepare goal).bind hlawful fun g => ?_
  refine (hF.collectLoop hctx _ _ _ g []).bind hlawful fun r => ?_
  exact (hF.stop hctx _).bind hlawful fun _ => hF.collected _ _

theorem runOnce (hctx : F.Calls ctx) (goal : Term) : F.Allows (Engine.runOnce ctx goal) := by
  have hlawful := hF.toLawful
  refine (hF.prepare goal).bind hlawful fun g => (hF.execute hctx g).bind hlawful fun r => ?_
  exact (hF.stop hctx _).bind hlawful fun _ => hF.isSolution _

theorem cleanupStopped (goal : Term) (e : Stop) : F.Allows (Engine.cleanupStopped goal e) := by
  have hlawful := hF.toLawful
  cases e with
  | thrown x => exact .pure hlawful _
  | halted n => exact (hF.outline (e := .halted goal) trivial).bind hlawful fun _ => .throw hF _
  | spent => exact .spent hlawful

theorem runCleanups (hctx : F.Calls ctx) (goals : List Term) : F.Allows (Engine.runCleanups ctx goals) := by
  have hlawful := hF.toLawful
  induction goals with
  | nil => exact .pure hlawful _
  | cons goal goals ih =>
    refine Allows.bind hlawful (f := fun _ => Engine.runCleanups ctx goals) ?_ fun _ => ih
    refine (hF.outline (e := .started goal) trivial).bind hlawful fun _ => ?_
    refine (Allows.tryCatch hF ((hF.runOnce hctx goal).map hlawful _) (hF.cleanupStopped goal)).bind
      hlawful fun _ => ?_
    exact hF.outline trivial

/-! ### Predicates that every database has -/

theorem conclude (hctx : F.Calls ctx) (result : Except Stop Answer) :
    F.Allows (Builtin.conclude ctx result) := by
  have hlawful := hF.toLawful
  refine (Allows.popCleanup hlawful).bind hlawful fun goal => (hctx.runCleanups _).bind hlawful fun _ => ?_
  cases result with
  | ok a => exact .pure hlawful a
  | error e => exact .throw hF e

theorem finish (hctx : F.Calls ctx) (code : Code) (args : Array Term) (redo : Bool) :
    F.Allows (Builtin.finish ctx code args redo) := by
  have hlawful := hF.toLawful
  have hcall := (hctx.invoke (.code code) args redo).map hlawful (Except.ok (ε := Stop))
  refine (hcall.tryCatch hF fun e => .pure hlawful (.error e)).bind hlawful fun result => ?_
  split
  · exact (Allows.pushNativeState hlawful _).bind hlawful fun _ => .pure hlawful _
  · exact .spent hlawful
  · exact Allows.bind hlawful (x := modify Workspace.interrupt) hF.interrupt fun _ => hF.conclude hctx _
  · exact hF.conclude hctx _

theorem builtin (hctx : F.Calls ctx) (b : Builtin) (redo : Bool) (args : Array Term) :
    F.Allows (b.execute ctx redo args) := by
  have hlawful := hF.toLawful
  cases b with
  | between => exact hlawful.between redo args
  | findall => exact hlawful.findall (fun _ _ => hF.collect hctx _ _ _) args
  | callCleanup => exact hlawful.callCleanup (hF.finish hctx) redo args
  | halt =>
    refine hlawful.halt (fun n => ?_) args
    exact (hF.outline (e := .quit n) trivial).bind hlawful fun _ => .throw hF _

end Uniform

/-! ### Calls -/

/-- The native predicates of the host have the effect, if their calls do. -/
def IsOf (F : Effect) (host : Host) : Prop :=
  ∀ ctx : Context, F.Calls ctx → ∀ id redo args, F.Allows (host id ctx redo args)

/-- All calls of an engine have the effect. -/
theorem Uniform.context (hF : F.Uniform) (hretries : ∀ ctx, F.Calls ctx → F.Retries ctx) {host : Host}
    (hhost : F.IsOf host) (n : Nat) : F.Calls (Solver.context host n) :=
  hF.toLawful.contextWith hretries (fun _ hctx b redo args => hF.builtin hctx b redo args) hhost
    (fun _ hctx goals => hF.runCleanups hctx goals) hF.report n

end Effect

end Resolvent
