import Resolvent.Callee
import Resolvent.Ghost
import Resolvent.Text.Diagnosis
import Resolvent.Trail

/-!
# The choice stack

A choice point says what to do when the search comes back to it, and to which mark the trail is
undone then. Choice points lie on a stack of bounded height. Cutting drops those above a height; the
goals of dropped cleanup points are handed to whoever cuts, to be run.
-/

namespace Resolvent

/-- What a predicate without clauses keeps for its next solution. -/
inductive NativeState where
  /-- The next integer of a range, and its last one unless it is unbounded. -/
  | range (next : Int64) (last : Option Int64)
  /-- The code of a goal and the arguments to call it with. -/
  | goal (code : Code) (args : Array Term)
  /-- What a predicate of the host keeps, a number of a kind. -/
  | host (kind : Nat) (n : Int)

/-- A place to cut back to. -/
structure Barrier where
  /-- The height of the choice stack. -/
  height : Nat
  /-- The mark on the trail. -/
  mark : Nat
deriving DecidableEq

/-- What a slot of an activation holds. -/
inductive Slot where
  /-- Nothing yet. -/
  | empty
  /-- A term. -/
  | term (t : Term)
  /-- A place to cut back to. -/
  | barrier (b : Barrier)

/-- What to do when the search comes back to a choice point. -/
inductive ChoiceKind where
  /-- Ask a callee for its next solution, and then go on at `resume`; the call is at `callAt`. -/
  | retry (callee : Callee) (args : Array Term) (resume callAt : Nat)
  /-- Go on at `resume` in the same activation. -/
  | alternative (resume : Nat)
  /-- Nothing: it keeps what a predicate without clauses needs for its next solution. -/
  | native (state : NativeState)
  /-- The activation of this code fails. -/
  | entry (code : Code)
  /-- Nothing: it keeps the slots of an activation that was left with solutions to come, and the
  height of the choice stack above its entry. -/
  | exit (slots : Array Slot) (height : Nat)
  /-- Run a goal, and go on searching. -/
  | cleanup (goal : Term)

/-- A place that the search can come back to. -/
structure ChoicePoint where
  /-- The mark to which the trail is undone. -/
  mark : Nat
  /-- What to do then. -/
  kind : ChoiceKind

/-- The goal of a cleanup point. -/
def ChoicePoint.cleanup? (p : ChoicePoint) : Option Term :=
  match p.kind with
  | .cleanup goal => some goal
  | _ => none

/-- The choice points of an engine. -/
structure ChoiceStack where
  /-- The choice points, the newest last. -/
  points : Array ChoicePoint
  /-- How many there may be. -/
  limit : Nat
  /-- The moments at which the choice points were made, for statements about them. -/
  made : Ghost (List Moment)

namespace ChoiceStack

/-- The stack of no choice points. -/
def empty (limit : Nat) : ChoiceStack := ⟨#[], limit, .of []⟩

/-- How many choice points there are. -/
def size (s : ChoiceStack) : Nat :=
  s.points.size

/-- Whether there may be one more choice point. -/
def hasRoom (s : ChoiceStack) : Bool :=
  s.size < s.limit

/-- The stack with one more choice point, made at a moment. -/
def push (s : ChoiceStack) (p : ChoicePoint) (m : Ghost Moment := default) : ChoiceStack :=
  { s with points := s.points.push p, made := s.made.map₂ (· ++ [·]) m }

/-- The stack with one more choice point, if there may be one more. -/
def push? (s : ChoiceStack) (p : ChoicePoint) : Option ChoiceStack :=
  if s.hasRoom then some (s.push p) else none

/-- The newest choice point. -/
def top? (s : ChoiceStack) : Option ChoicePoint :=
  s.points.back?

/-- The choice point at an index, counted from the oldest. -/
def get? (s : ChoiceStack) (i : Nat) : Option ChoicePoint :=
  s.points[i]?

/-- The stack without its newest choice point. -/
def pop (s : ChoiceStack) : ChoiceStack :=
  { s with points := s.points.pop, made := s.made.map List.dropLast }

/-- The stack with another newest choice point. -/
def setTop (s : ChoiceStack) (p : ChoicePoint) : ChoiceStack :=
  { s with points := s.points.setIfInBounds (s.points.size - 1) p }

/-- The stack without the choice points above a height, and the goals of the cleanup points among
these, newest first. -/
def cutTo (s : ChoiceStack) (height : Nat) : List Term × ChoiceStack :=
  let dropped := (s.points.extract height s.points.size).toList
  (dropped.reverse.filterMap ChoicePoint.cleanup?,
    { s with points := s.points.shrink height, made := s.made.map (List.take height) })

@[simp] theorem size_push (s : ChoiceStack) (p : ChoicePoint) (m : Ghost Moment) :
    (s.push p m).size = s.size + 1 := by
  simp [push, size]

@[simp] theorem size_pop (s : ChoiceStack) : s.pop.size = s.size - 1 := by
  simp [pop, size]

@[simp] theorem top?_push (s : ChoiceStack) (p : ChoicePoint) (m : Ghost Moment) :
    (s.push p m).top? = some p := by
  simp [push, top?]

@[simp] theorem pop_push (s : ChoiceStack) (p : ChoicePoint) (m : Ghost Moment) :
    (s.push p m).pop = s := by
  have hmade : (s.made.map₂ (· ++ [·]) m).map List.dropLast = s.made := by
    ext
    simp
  simp [push, pop, hmade]

@[simp] theorem size_cutTo (s : ChoiceStack) (height : Nat) :
    (s.cutTo height).2.size = min height s.size := by
  simp [cutTo, size]

end ChoiceStack

/-! ### Diagnosis -/

/-- What a choice point does, for diagnosis. -/
def ChoiceKind.inspect (σ : Store) : ChoiceKind → String
  | .retry _ _ resume callAt =>
    Text.record "Retry" [("resume", toString resume), ("call_ip", toString callAt)]
  | .alternative resume => Text.record "Alternative" [("resume", toString resume)]
  | .native _ => "Native"
  | .entry code => Text.record "FrameEntry" [("chunk", Text.quoteShown code.chunk.name)]
  | .exit slots height =>
    Text.record "FrameExit" [("env", toString slots.size), ("entry", toString height)]
  | .cleanup goal => Text.record "Cleanup" [("goal", σ.inspect goal)]

/-- A choice point for diagnosis. -/
def ChoicePoint.inspect (σ : Store) (p : ChoicePoint) : String :=
  Text.record "ChoicePoint" [("trail_mark", toString p.mark), ("kind", p.kind.inspect σ)]

end Resolvent
