import Resolvent.Engine

/-!
# Searches for goals

A goal is compiled as the only clause of a predicate over its variables. `Goal.prepare` makes it the
goal that is searched for, and sets the present search aside if there is one; `Goal.execute` finds
its next solution; `Goal.stop` drops what is left of the search, running the cleanup goals in it,
undoes the bindings, and takes up the search that was set aside.

`collect` and `runOnce` are runs of a goal from beginning to end.
-/

namespace Resolvent

/-- What is raised when a goal cannot be compiled. -/
def CompileError.kindFor (goal : Term) : CompileError → ErrorKind
  | .notCallable _ => .type "callable" goal
  | e => e.kind

namespace Database

/-- The code of a goal as the only clause of a predicate of the given name over its variables, and
the variables. -/
def compileGoal (name : Atom) (goal : Term) : DatabaseM (Code × Array Term) := do
  let σ := (← get).terms.store
  let goal := σ.deref goal
  match goal with
  | .var _ => raise .instantiation
  | .const (.atom _) | .compound .. => pure ()
  | .const _ => raise (.type "callable" goal)
  let vars := (σ.vars goal).map Term.var
  let tag ← onTerms (Universe.tag name vars.length)
  let head ← if vars.isEmpty then pure (.atom name) else onTerms (Universe.compound tag vars)
  let chunk ← compile (Chunk.ofClauses tag [⟨head, goal⟩]) (CompileError.kindFor goal)
  return (← load chunk, vars.toArray)

/-- The goal that a control construct called by its tag stands for. -/
def controlGoal (tag : Tag) (args : List Term) : DatabaseM Term := do
  match tag.extraOfCall?, args with
  | some extra, goal :: args =>
    let extraArgs := args.take extra
    match (← get).terms.store.deref goal with
    | .var _ => raise .instantiation
    | target =>
      if extraArgs.isEmpty then return target
      match target with
      | .const (.atom name) =>
        onTerms do Universe.compound (← Universe.tag name extraArgs.length) extraArgs
      | .compound _ f fargs =>
        let all := fargs ++ extraArgs
        let name := ((← get).terms.symbols.parts f).1
        onTerms do Universe.compound (← Universe.tag name all.length) all
      | _ => raise (.type "callable" target)
  | _, [] => return .atom ((← get).terms.symbols.parts tag).1
  | _, args => onTerms (Universe.compound tag args)

/-- The code that a control construct called by its tag runs, and the arguments for it. -/
def controlCode (tag : Tag) (args : List Term) : DatabaseM (Code × Array Term) := do
  compileGoal .metaCall (← controlGoal tag args)

end Database

/-- What one search for a solution of a goal gives. -/
inductive GoalOutcome where
  /-- A solution; there may be another one. -/
  | more
  /-- A solution, and no other. -/
  | last
  /-- No solution, or no other. -/
  | fail
  /-- The end of the run was asked for, with an exit status. -/
  | halted (status : Int)
  /-- An exception that nothing has caught. -/
  | raised (e : Exception)

namespace GoalOutcome

/-- The outcome that an answer stands for. -/
def ofAnswer : Answer → GoalOutcome
  | .more => .more
  | .last => .last
  | .fail => .fail

/-- The outcome that a search ends with before it gives an answer. Too little fuel is none. -/
def ofStop : Stop → EngineM GoalOutcome
  | .thrown e => return .raised (← Engine.onTerms (Exception.ofTerm e.ball))
  | .halted status => return .halted status
  | .spent => throw .spent

/-- Whether a search may be continued after the outcome. -/
def isOpen : GoalOutcome → Bool
  | .more => true
  | _ => false

/-- What follows from the outcome after all solutions have been collected. -/
def collected {α : Type} (found : α) : GoalOutcome → EngineM α
  | .halted status => throw (.halted status)
  | .raised e => throw (.thrown e)
  | _ => return found

/-- Whether the outcome is a solution. -/
def isSolution : GoalOutcome → EngineM Bool
  | .more | .last => return true
  | .fail => return false
  | .halted status => throw (.halted status)
  | .raised e => throw (.thrown e)

end GoalOutcome

/-- A goal being searched for. -/
structure PreparedGoal where
  /-- The number of the goal. -/
  id : Nat
  /-- Its code. -/
  code : Code
  /-- The arguments of the code, its variables. -/
  args : Array Term
  /-- The goal as a term. -/
  term : Term
  /-- Whether a solution has been searched for. -/
  started : Bool
  /-- Whether there is nothing more to be found. -/
  isDone : Bool
  /-- Whether the goal runs while another one is set aside. -/
  isNested : Bool

namespace Engine

/-- Sets the present search aside and starts one with an empty trail and no choice points. -/
def park : EngineM Unit :=
  fun ⟨database, ⟨config, trail, choices, depth, returnPoints, active, nextGoal, chronicle⟩⟩ =>
    let (aside, trail) := trail.setAside
    .ok () ⟨database, ⟨config, trail, { choices with points := #[], made := .of [] }, depth,
      ⟨choices.points, choices.made, aside, active⟩ :: returnPoints, active, nextGoal, chronicle⟩⟩

/-- Takes up the search that was set aside last. -/
def unpark : EngineM Unit :=
  modify fun s =>
    match s.engine.returnPoints with
    | [] => s
    | p :: rest =>
      { s with engine := { s.engine with
        choices := { s.engine.choices with points := p.points, made := p.made }
        trail := p.trail
        active := p.active
        returnPoints := rest } }

/-- Makes a new goal the active one and takes a mark. -/
def activate : EngineM Nat := do
  let id ← modifyGet fun s =>
    (s.engine.nextGoal, { s with engine := { s.engine with
      active := some s.engine.nextGoal
      nextGoal := s.engine.nextGoal + 1 } })
  discard mark
  return id

/-- Makes a goal the one that is searched for. -/
def prepare (goal : Term) : EngineM PreparedGoal := do
  let (code, args) ← onDatabase (Database.compileGoal .query goal)
  let isNested := (← get).engine.active.isSome
  if isNested then park
  return ⟨← activate, code, args, goal, false, false, isNested⟩

/-- Searches for the next solution of a goal. -/
def execute (ctx : Context) (goal : PreparedGoal) : EngineM (GoalOutcome × PreparedGoal) := do
  if goal.isDone then return (.fail, goal)
  if (← get).engine.active ≠ some goal.id then
    let e ← onTerms (Exception.ofError (.system "goal_not_active"))
    return (.raised e, goal)
  let outcome ← tryCatch
    (GoalOutcome.ofAnswer <$> ctx.invoke (.code goal.code) goal.args goal.started)
    GoalOutcome.ofStop
  return (outcome, { goal with started := true, isDone := !outcome.isOpen })

/-- Goes on after a run has ended, unless the fuel did not suffice for it. -/
def unlessSpent : Stop → EngineM Unit
  | .spent => throw .spent
  | _ => pure ()

/-- Drops all choice points and runs the cleanup goals among them; that one of these asks for the end
of the run is ignored. -/
def drop (ctx : Context) : EngineM Unit := do
  let cleanups ← cutTo 0
  note .stopping
  tryCatch (ctx.runCleanups cleanups) unlessSpent
  note .stopped

/-- Drops what is left of the search for a goal, unless it is not the active one. -/
def stop (ctx : Context) (goal : PreparedGoal) : EngineM Unit := do
  if (← get).engine.active ≠ some goal.id then return
  drop ctx
  undoTo 0
  if goal.isNested then unpark
  else modify fun s => { s with engine := { s.engine with active := none } }

/-- Collects copies of a template for the solutions of a goal behind those in `found`, last copy
first, until there are `limit` of them. -/
def collectLoop (ctx : Context) (template : Term) (limit : Option Nat) :
    Nat → PreparedGoal → List Term → EngineM (List Term × GoalOutcome × PreparedGoal)
  | 0, _, _ => throw .spent
  | n + 1, goal, found => do
    if limit.any (· ≤ found.length) then return (found.reverse, .last, goal)
    let (outcome, goal) ← execute ctx goal
    match outcome with
    | .more =>
      let t ← onTerms (Universe.copy template)
      collectLoop ctx template limit n goal (t :: found)
    | .last =>
      let t ← onTerms (Universe.copy template)
      return ((t :: found).reverse, outcome, goal)
    | _ => return (found.reverse, outcome, goal)

/-- Copies of a template for each solution of a goal, at most `limit` of them. -/
def collect (ctx : Context) (template goal : Term) (limit : Option Nat) :
    EngineM (List Term) := do
  let goal ← prepare goal
  let (found, outcome, goal) ← collectLoop ctx template limit ctx.fuel goal []
  stop ctx goal
  outcome.collected found

/-- Copies of a goal for each of its solutions, at most `limit` of them. -/
def solveAll (ctx : Context) (goal : Term) (limit : Option Nat) : EngineM (List Term) :=
  collect ctx goal goal limit

/-- Whether a goal has a solution; its bindings are not kept. -/
def runOnce (ctx : Context) (goal : Term) : EngineM Bool := do
  let goal ← prepare goal
  let (outcome, goal) ← execute ctx goal
  stop ctx goal
  outcome.isSolution

/-- Goes on after the run of a cleanup goal has been ended by an exception. -/
def cleanupStopped (goal : Term) : Stop → EngineM Unit
  | .thrown _ => pure ()
  | .halted status => do
    note (.halted goal)
    throw (.halted status)
  | .spent => throw .spent

/-- Runs goals once each, for their effects only. Exceptions are ignored; a goal that asks for the
end of the run ends this one too. -/
def runCleanups (ctx : Context) (goals : List Term) : EngineM Unit :=
  goals.forM fun goal => do
    note (.started goal)
    tryCatch (discard (runOnce ctx goal)) (cleanupStopped goal)
    note (.ended goal)

end Engine

end Resolvent
