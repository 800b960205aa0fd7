import Resolvent.Binary64.Nearest
import Resolvent.Term

/-!
# The numeric tower

Machine integers grow into big integers, integers into rational numbers, and whatever meets a float
becomes a float. Arithmetic on the exact numbers is exact; a result need not be in its simplest
form, and `Number.toConstant` brings it there.
-/

namespace Resolvent

/-- A number taken out of a term for arithmetic. -/
inductive Number where
  /-- A machine integer. -/
  | int (n : Int64)
  /-- An integer of any size. -/
  | big (n : Int)
  /-- A rational number. -/
  | rat (q : Rat)
  /-- A float. -/
  | float (x : Binary64)
deriving DecidableEq

namespace Number

/-- The number of a constant, if it is one. -/
def ofConstant? : Constant → Option Number
  | .int n => some (.int n)
  | .big n => some (.big n)
  | .rat q => some (.rat q)
  | .float x => some (.float x)
  | .atom _ | .host _ => none

/-- The number of a term whose binding has been read, if it is one. -/
def ofTerm? : Term → Option Number
  | .const c => ofConstant? c
  | _ => none

/-- The number in its simplest form. -/
def toConstant : Number → Constant
  | .int n => .int n
  | .big n => .ofInt n
  | .rat q => .ofRat q
  | .float x => .float x

/-- Whether the number is a float. -/
def isFloat : Number → Bool
  | .float _ => true
  | _ => false

/-- Whether the number is zero. -/
def isZero : Number → Bool
  | .int n => n = 0
  | .big n => n = 0
  | .rat q => q = 0
  | .float x => x.isZero

/-- The float nearest to the number. -/
def toBinary64 : Number → Binary64
  | .int n => .ofInt n.toInt
  | .big n => .ofInt n
  | .rat q => .ofRat q
  | .float x => x

/-- The value of a number that is not a float. -/
def toRat : Number → Rat
  | .int n => n.toInt
  | .big n => n
  | .rat q => q
  | .float _ => 0

/-- The value of an integer. -/
def toInt? : Number → Option Int
  | .int n => some n.toInt
  | .big n => some n
  | .rat _ | .float _ => none

/-- A number whose integer result is small enough stays a machine integer if both operands are. -/
def ofSmall (small : Bool) (n : Int) : Number :=
  if small ∧ -0x8000000000000000 ≤ n ∧ n < 0x8000000000000000 then .int (Int64.ofInt n) else .big n

/-- Whether the number is a machine integer. -/
def isSmall : Number → Bool
  | .int _ => true
  | _ => false

/-- An operation on numbers from its forms on floats, integers and rational numbers. -/
def combine (float : Binary64 → Binary64 → Binary64) (int : Int → Int → Int)
    (rat : Rat → Rat → Rat) (a b : Number) : Number :=
  if a.isFloat || b.isFloat then .float (float a.toBinary64 b.toBinary64)
  else
    match a.toInt?, b.toInt? with
    | some m, some n => ofSmall (a.isSmall && b.isSmall) (int m n)
    | _, _ => .rat (rat a.toRat b.toRat)

/-- The sum of two numbers. -/
def add : Number → Number → Number := combine .add (· + ·) (· + ·)

/-- The difference of two numbers. -/
def sub : Number → Number → Number := combine .sub (· - ·) (· - ·)

/-- The product of two numbers. -/
def mul : Number → Number → Number := combine .mul (· * ·) (· * ·)

/-- The number with the other sign. -/
def neg : Number → Number
  | .int n => ofSmall true (-n.toInt)
  | .big n => .big (-n)
  | .rat q => .rat (-q)
  | .float x => .float x.neg

/-- The order of numbers by value. Where a float takes part, both are compared as floats. -/
def order (a b : Number) : Ordering :=
  if a.isFloat || b.isFloat then a.toBinary64.order b.toBinary64
  else
    match a.toInt?, b.toInt? with
    | some m, some n => compare m n
    | _, _ => if a.toRat < b.toRat then .lt else if a.toRat = b.toRat then .eq else .gt

end Number

end Resolvent
