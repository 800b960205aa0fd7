import Resolvent.Body
import Resolvent.Instruction

/-!
# Programs

A program is the code of one predicate before it is packed: its instructions name constants, tags
and labels themselves, and a line may place a label.
-/

namespace Resolvent

namespace Program

/-- A line of a program. -/
inductive Line where
  /-- An instruction. -/
  | instruction (i : Instruction Term Tag Nat)
  /-- The place of a label. -/
  | label (n : Nat)

/-- A range of lines and the label that balls thrown in it go to. -/
structure Handler where
  /-- The label at the start of the range. -/
  start : Nat
  /-- The label behind the range. -/
  stop : Nat
  /-- The label that balls go to. -/
  target : Nat
  /-- The slot with the barrier saved when the range was entered. -/
  slot : UInt16
deriving DecidableEq

end Program

/-- The code of a predicate before it is packed. -/
structure Program where
  /-- The name in listings. -/
  name : String
  /-- How many arguments a call has. -/
  arity : UInt16
  /-- How many slots an activation has. -/
  slots : UInt16
  /-- The instructions and labels. -/
  lines : Array Program.Line
  /-- The handlers, an inner one before those around it. -/
  handlers : Array Program.Handler

namespace Program

/-- A label as text. -/
def labelText (n : Nat) : String :=
  "L" ++ toString n

namespace Line

/-- A line as text, with the names of its symbols. -/
def render (u : Universe) : Line → String
  | .instruction i => i.format u.render u.symbols.indicator labelText
  | .label n => labelText n ++ ":"

/-- A line for diagnosis, with its symbols by number. -/
def inspect (σ : Store) : Line → String
  | .instruction i => i.format σ.inspect (fun t => "Tag#" ++ toString t.index) labelText
  | .label n => labelText n ++ ":"

/-- The instruction of a line, if it is one. -/
def instruction? : Line → Option (Instruction Term Tag Nat)
  | .instruction i => some i
  | .label _ => none

end Line

/-- The instructions of a program without its labels. -/
def instructions (p : Program) : List (Instruction Term Tag Nat) :=
  p.lines.toList.filterMap Line.instruction?

end Program

namespace CompileError

/-- What is reported of a compile error. -/
def message : CompileError → String
  | notCallable goal => "Goal is not callable: " ++ goal.inspect
  | variableHead v => "Invalid clause head: " ++ v.text
  | invalidHead head => "Invalid clause head: " ++ head.inspect
  | tooManyConstants => "Too many constants (max 65535)"
  | tooManyTags => "Too many distinct functors (max 65535)"
  | tooManySlots => "Too many environment slots (max 65535)"
  | tooManyArguments => "Too many arguments (max 65535)"
  | codeTooLarge => "Compiled code exceeds 4 GiB"
  | unboundLabel n => "Label L" ++ toString n ++ " was never placed"
  | variableNotFound v => "Variable " ++ v.text ++ " has no slot"

/-- The error that is raised for a compile error. -/
def kind : CompileError → ErrorKind
  | notCallable goal => .type "callable" (.const goal)
  | variableHead _ => .instantiation
  | invalidHead head => .type "callable" (.const head)
  | tooManyConstants => .resource "constants"
  | tooManyTags => .resource "functors"
  | tooManySlots => .resource "environment"
  | tooManyArguments => .representation "max_arity"
  | codeTooLarge => .resource "code"
  | unboundLabel n => .system (message (unboundLabel n))
  | variableNotFound v => .system (message (variableNotFound v))

/-- Raises a compile error. -/
def toException (e : CompileError) : StateM Universe Exception :=
  Exception.ofError e.kind

end CompileError

end Resolvent
