import Resolvent.Exception

/-!
# Bodies of clauses

A body is a list of goals that hold one after the other. `Body.ofTree` reads it from a tree, taking
the control constructs apart; what is left is a call of a predicate. A body that contains a number
or a host value in the place of a goal is refused, and the leftmost one is reported.
-/

namespace Resolvent

/-- Why a predicate cannot be compiled. -/
inductive CompileError where
  /-- A goal that is a number or a host value. -/
  | notCallable (goal : Constant)
  /-- A head that is a variable. -/
  | variableHead (head : Var)
  /-- A head that is a number or a host value. -/
  | invalidHead (head : Constant)
  /-- Too many constants. -/
  | tooManyConstants
  /-- Too many tags. -/
  | tooManyTags
  /-- Too many slots. -/
  | tooManySlots
  /-- Too many arguments. -/
  | tooManyArguments
  /-- Too many bytes of code. -/
  | codeTooLarge
  /-- A jump to a label that is nowhere. -/
  | unboundLabel (label : Nat)
  /-- A variable without a slot. -/
  | variableNotFound (v : Var)

/-- A goal in the body of a clause. -/
inductive Goal where
  /-- A variable, whose binding is called. -/
  | callVar (v : Var)
  /-- The goal that holds. -/
  | succeed
  /-- The goal that does not hold. -/
  | fail
  /-- The goal `!`. -/
  | cut
  /-- Either body. -/
  | either (first second : List Goal)
  /-- The second body for the first solution of the condition, or else the third. -/
  | ifThenElse (condition consequence alternative : List Goal)
  /-- The second body for the first solution of the condition. -/
  | ifThen (condition consequence : List Goal)
  /-- No solution of a body. -/
  | negation (body : List Goal)
  /-- Two trees made equal. -/
  | unify (left right : Tree)
  /-- A tree thrown. -/
  | raise (ball : Tree)
  /-- A body, and another one for the balls thrown in it that unify with the catcher. -/
  | guard (body : List Goal) (catcher : Tree) (recovery : List Goal)
  /-- A call of a predicate. -/
  | call (tag : Tag) (args : List Tree)

namespace Body

/-- The goal of a disjunction: with a commitment on the left it is a conditional. -/
def either : List Goal → List Goal → Goal
  | [.ifThen c t], b => .ifThenElse c t b
  | a, b => .either a b

/-- Reads the goals of a body behind those in `found`, last goal first. The tag of every goal that
is an atom is entered into the symbols. -/
def readGoals : Tree → List Goal → EStateM CompileError Symbols (List Goal)
  | .var v, found => return .callVar v :: found
  | .const (.atom a), found =>
    if a = .trueGoal then return .succeed :: found
    else if a = .failGoal ∨ a = .falseGoal then return .fail :: found
    else if a = .cutGoal then return .cut :: found
    else return .call (← modifyGet (Symbols.tag a 0)) [] :: found
  | .const c, _ => throw (.notCallable c)
  | .compound tag [a, b], found => do
    if tag = .conj then
      readGoals b (← readGoals a found)
    else if tag = .disj then
      let a ← readGoals a []
      let b ← readGoals b []
      return either a.reverse b.reverse :: found
    else if tag = .arrow then
      let a ← readGoals a []
      let b ← readGoals b []
      return .ifThen a.reverse b.reverse :: found
    else if tag = .equation then return .unify a b :: found
    else return .call tag [a, b] :: found
  | .compound tag [a], found => do
    if tag = .negation then return .negation (← readGoals a []).reverse :: found
    else if tag = .throwGoal then return .raise a :: found
    else return .call tag [a] :: found
  | .compound tag [a, b, c], found => do
    if tag = .catchGoal then
      let a ← readGoals a []
      let c ← readGoals c []
      return .guard a.reverse b c.reverse :: found
    else return .call tag [a, b, c] :: found
  | .compound tag args, found => return .call tag args :: found
termination_by structural t => t

/-- The goals of a body. -/
def ofTree (t : Tree) : EStateM CompileError Symbols (List Goal) := do
  return (← readGoals t []).reverse

end Body

/-! ### Slots -/

mutual

/-- How many slots a goal needs for barriers and balls. -/
def Goal.slots : Goal → Nat
  | .either a b => Body.slots a + Body.slots b
  | .ifThenElse c t e => 1 + Body.slots c + Body.slots t + Body.slots e
  | .ifThen c t => 1 + Body.slots c + Body.slots t
  | .negation b => 1 + Body.slots b
  | .guard b _ r => 2 + Body.slots b + Body.slots r
  | .callVar _ | .succeed | .fail | .cut | .unify .. | .raise _ | .call .. => 0

/-- How many slots the goals of a body need for barriers and balls. -/
def Body.slots : List Goal → Nat
  | [] => 0
  | g :: gs => g.slots + Body.slots gs

end

end Resolvent
