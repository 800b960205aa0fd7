import Resolvent.Database
import Resolvent.Unify

/-!
# Engines

An `Engine` is the state of a search over a database: the trail, the choice stack, the depth of the
activations, and the searches that are set aside while nested goals run. A `Workspace` is a database
with one engine that works on it.

What calls a predicate does so through a `Context`, which carries the calls that the predicate may
make in turn. So predicates that call each other are defined one by one, each over the calls with
one step less of fuel; `Stop.spent` says that the fuel did not suffice.
-/

namespace Resolvent

/-- What a call or a redo of a predicate gives. -/
inductive Answer where
  /-- A solution; a redo may give another one. -/
  | more
  /-- A solution, and no other. -/
  | last
  /-- No solution, or no other. -/
  | fail
deriving DecidableEq

/-- What ends a run before it gives an answer. -/
inductive Stop where
  /-- An exception. -/
  | thrown (e : Exception)
  /-- The end of the run was asked for, with an exit status. -/
  | halted (status : Int)
  /-- The fuel is spent. -/
  | spent

/-- A state that a search passes through. -/
structure Scene where
  /-- The bindings and the trail. -/
  moment : Moment
  /-- The choice points. -/
  points : Array ChoicePoint
  /-- The moments at which these were made. -/
  made : List Moment

/-- A call that has looked for what it leads to. -/
structure Lookup where
  /-- The database in which it looked. -/
  database : Database
  /-- What a call of an unknown predicate does. -/
  policy : UnknownPolicy
  /-- The tag that is called. -/
  tag : Tag
  /-- The arguments. -/
  args : Array Term
  /-- The callee with its arguments, `none` if the call fails at once, or what ended the search. -/
  found : Except Stop (Option (Callee × Array Term))

namespace Chronicle

/-- Something that happens in a run. -/
inductive Event where
  /-- The search passed through a state between two instructions. -/
  | passed (x : Scene)
  /-- A call has looked for what it leads to. -/
  | looked (x : Lookup)
  /-- A callee that a call led to is called, or asked for another solution. -/
  | invoked (callee : Callee) (args : Array Term) (redo : Bool)
  /-- A cleanup point was made for the goal. -/
  | held (goal : Term)
  /-- The cleanup goal was started. -/
  | started (goal : Term)
  /-- The cleanup goal came to its end, with an answer or an exception. -/
  | ended (goal : Term)
  /-- The cleanup goal asked for the end of the run. -/
  | halted (goal : Term)
  /-- The end of the run was asked for, with an exit status. -/
  | quit (status : Int)
  /-- A goal with a cleanup goal was interrupted because the end of the run had been asked for. What is
  told is the newest choice point, and the cleanup goal that had just asked, if it was one. -/
  | interrupted (top : Option ChoicePoint) (asker : Option Term)
  /-- A limit did not allow what was to be done. -/
  | limited
  /-- What is left of a search is being dropped. -/
  | stopping
  /-- What was left of a search has been dropped. -/
  | stopped

/-- The cleanup goal that asked for the end of the run. -/
def Event.halted? : Event → Option Term
  | .halted goal => some goal
  | _ => none

end Chronicle

/-- What has happened in runs, the latest first. -/
abbrev Chronicle := List Chronicle.Event

/-- The search of a goal while a nested goal runs. -/
structure ReturnPoint where
  /-- Its choice points. -/
  points : Array ChoicePoint
  /-- The moments at which these were made. -/
  made : Ghost (List Moment)
  /-- Its trail. -/
  trail : Trail Empty
  /-- The goal. -/
  active : Option Nat

/-- The state of a search. -/
structure Engine where
  /-- The limits and switches. -/
  config : Config
  /-- The bindings to be undone. -/
  trail : Trail Empty
  /-- The choice points. -/
  choices : ChoiceStack
  /-- How deep activations are nested now. -/
  depth : Nat
  /-- The searches set aside, the latest first. -/
  returnPoints : List ReturnPoint
  /-- The goal that is being searched for. -/
  active : Option Nat
  /-- The number of the next goal. -/
  nextGoal : Nat
  /-- What has happened, for statements about runs. -/
  chronicle : Ghost Chronicle

/-- An engine that has not been used. -/
def Engine.ofConfig (config : Config) : Engine :=
  ⟨config, .empty, .empty config.maxChoicePoints, 0, [], none, 0, .of []⟩

/-- How many searches are set aside. -/
def Engine.nesting (e : Engine) : Nat :=
  e.returnPoints.length

/-- A database and an engine that works on it. -/
structure Workspace where
  /-- The database. -/
  database : Database
  /-- The engine. -/
  engine : Engine

namespace Workspace

/-- What a call of an unknown predicate does. -/
def unknownPolicy (s : Workspace) : UnknownPolicy :=
  s.database.unknown.getD s.engine.config.unknown

/-- The bindings and the trail. -/
def moment (s : Workspace) : Moment :=
  ⟨s.database.terms.store, s.engine.trail⟩

/-- The state of the search. -/
def scene (s : Workspace) : Ghost Scene :=
  s.engine.choices.made.map fun made => ⟨s.moment, s.engine.choices.points, made⟩

/-- The workspace after something has happened. -/
def note (e : Ghost Chronicle.Event) (s : Workspace) : Workspace :=
  { s with engine := { s.engine with chronicle := e.map₂ List.cons s.engine.chronicle } }

/-- The workspace after a choice point of the kind has been made. -/
def hold (kind : ChoiceKind) (s : Workspace) : Workspace :=
  match kind with
  | .cleanup goal => s.note (.of (.held goal))
  | _ => s

/-- The workspace after the search has passed through it. -/
def pass (s : Workspace) : Workspace :=
  s.note (s.scene.map .passed)

/-- The workspace after a goal with a cleanup goal has been interrupted. -/
def interrupt (s : Workspace) : Workspace :=
  s.note (s.engine.chronicle.map fun l =>
    .interrupted s.engine.choices.top? (l.head?.bind Chronicle.Event.halted?))

end Workspace

/-- A step of a run. -/
abbrev EngineM := EStateM Stop Workspace

/-- The calls that a predicate may make. -/
structure Context where
  /-- How many steps a loop may take. -/
  fuel : Nat
  /-- Calls a callee with arguments, or asks it for another solution. -/
  invoke : Callee → Array Term → Bool → EngineM Answer
  /-- Runs goals once each, for their effects only. -/
  runCleanups : List Term → EngineM Unit
  /-- The exception that a fault of the code is thrown as. -/
  report : Fault → EngineM Exception

namespace Engine

/-! ### Parts of the state -/

/-- A step on the database; its exception ends the run. -/
@[inline] def onDatabase {α : Type} (step : DatabaseM α) : EngineM α :=
  fun ⟨database, engine⟩ =>
    match step database with
    | .ok a database => .ok a ⟨database, engine⟩
    | .error e database => .error (.thrown e) ⟨database, engine⟩

/-- A step on the symbols and bindings. -/
@[inline] def onTerms {α : Type} (step : StateM Universe α) : EngineM α :=
  onDatabase (Database.onTerms step)

instance : MonadLift (StateM Universe) EngineM := ⟨onTerms⟩

instance : MonadLift DatabaseM EngineM := ⟨onDatabase⟩

/-- A step on the choice points. -/
@[inline] def onChoices {α : Type} (step : ChoiceStack → α × ChoiceStack) : EngineM α :=
  fun ⟨database, ⟨config, trail, choices, depth, returnPoints, active, nextGoal, chronicle⟩⟩ =>
    let (a, choices) := step choices
    .ok a ⟨database, ⟨config, trail, choices, depth, returnPoints, active, nextGoal, chronicle⟩⟩

/-- A step on the bindings and the trail. -/
@[inline] def onBindings {α : Type} (step : Store → Trail Empty → α × Store × Trail Empty) :
    EngineM α :=
  fun ⟨⟨⟨symbols, store⟩, predicates, codeCache, sites, generation, unknown, listeners, journal⟩,
      ⟨config, trail, choices, depth, returnPoints, active, nextGoal, chronicle⟩⟩ =>
    let (a, store, trail) := step store trail
    .ok a ⟨⟨⟨symbols, store⟩, predicates, codeCache, sites, generation, unknown, listeners,
      journal⟩, ⟨config, trail, choices, depth, returnPoints, active, nextGoal, chronicle⟩⟩

/-- Raises an error. -/
def raise {α : Type} (e : ErrorKind) : EngineM α :=
  onDatabase (Database.raise e)

/-- Something happens. -/
@[inline] def note (e : Chronicle.Event) : EngineM Unit :=
  modify (Workspace.note (.of e))

/-- Raises the error for a limit that does not allow what is to be done. -/
def exceed {α : Type} (resource : String) : EngineM α := do
  note .limited
  raise (.resource resource)

/-- Throws a copy of a term. -/
def throwTerm {α : Type} (t : Term) : EngineM α := do
  throw (.thrown (← onTerms (Exception.ofTerm t)))

/-- A term with its binding read. -/
@[inline] def deref (t : Term) : EngineM Term :=
  fun s => .ok (s.database.terms.store.deref t) s

/-- Asks for the end of the run, with an exit status. -/
def quit {α : Type} (status : Int) : EngineM α := do
  note (.quit status)
  throw (.halted status)

/-! ### Bindings -/

/-- Takes a mark. -/
def mark : EngineM Nat :=
  onBindings fun σ τ => let (m, τ) := τ.mark; (m, σ, τ)

/-- Undoes the bindings made since a mark. -/
def undoTo (m : Nat) : EngineM Unit :=
  onBindings fun σ τ => let (σ, τ, _) := τ.undoTo m σ; ((), σ, τ)

/-- The answer of a step, unless the fuel did not suffice for it. -/
def answered {α : Type} : Option α → EngineM α
  | some a => pure a
  | none => throw .spent

/-- Unifies two terms in at most `n` steps; a failed attempt leaves no bindings. -/
def unify (n : Nat) (s t : Term) : EngineM Bool := do
  answered (← onBindings (Resolvent.unify n s t))

/-- Unifies two terms in at most `n` steps; a failed attempt leaves its bindings. -/
def unifyInPlace (n : Nat) (s t : Term) : EngineM Bool := do
  answered (← onBindings (Resolvent.unifyInPlace n s t))

/-- The answer of a native predicate whose only solution makes two terms equal. -/
def unifyOnce (n : Nat) (s t : Term) : EngineM Answer := do
  return if ← unify n s t then .last else .fail

/-! ### Choice points -/

/-- The height of the choice stack. -/
@[inline] def height : EngineM Nat :=
  fun s => .ok s.engine.choices.size s

/-- The newest choice point. -/
@[inline] def top? : EngineM (Option ChoicePoint) :=
  fun s => .ok s.engine.choices.top? s

/-- Removes the newest choice point. -/
def pop : EngineM Unit :=
  onChoices fun choices => ((), choices.pop)

/-- The present moment, for statements about it. -/
@[inline] def now : EngineM (Ghost Moment) :=
  fun s => .ok (.of s.moment) s

/-- Makes a choice point with a mark taken now. -/
def pushChoice (kind : ChoiceKind) : EngineM Unit := do
  let m ← mark
  let made ← now
  let pushed ← onChoices fun choices =>
    if choices.hasRoom then (true, choices.push ⟨m, kind⟩ made) else (false, choices)
  unless pushed do exceed "choice_points"
  modify (·.hold kind)

/-- Drops the choice points above a height and gives the goals of the cleanup points among them. -/
def cutTo (height : Nat) : EngineM (List Term) :=
  onChoices fun choices => choices.cutTo height

/-- Keeps what a native predicate needs for its next solution. -/
def pushNativeState (state : NativeState) : EngineM Unit :=
  pushChoice (.native state)

/-- Takes back what a native predicate has kept, and undoes the bindings made since. -/
def popNativeState : EngineM (Option NativeState) := do
  match ← top? with
  | some ⟨m, .native state⟩ =>
    pop
    undoTo m
    return some state
  | _ => return none

/-- Takes the goal of a cleanup point off the choice stack, if one is on top. -/
def popCleanup : EngineM (Option Term) := do
  match ← top? with
  | some ⟨_, .cleanup goal⟩ =>
    pop
    return some goal
  | _ => return none

end Engine

end Resolvent
