/-!
# Double-precision floats

A `Binary64` is a float given by its 64 bits, so two of them are equal exactly when they are the
same float: the two zeros differ, and a NaN equals itself. Sums and products are those of binary
floating point; besides, there are the total order of all floats (`Binary64.order`) and equality up
to a relative tolerance (`Binary64.near`).
-/

namespace Resolvent

/-- A double-precision float, given by its bits. -/
structure Binary64 where
  /-- Sign, exponent and fraction, from the highest bit down. -/
  bits : UInt64
deriving DecidableEq, Inhabited

namespace Binary64

/-- The float as a number of the machine. -/
def toFloat (x : Binary64) : Float :=
  Float.ofBits x.bits

/-- The bits of a positive infinity. -/
def infinityBits : Nat := 0x7ff0000000000000

/-- Whether the sign bit is set. -/
def isNegative (x : Binary64) : Bool :=
  0x8000000000000000 ≤ x.bits.toNat

/-- The bits without the sign bit; larger magnitudes have larger bits. -/
def magnitude (x : Binary64) : Nat :=
  x.bits.toNat % 0x8000000000000000

/-- Whether the float is not a number. -/
def isNaN (x : Binary64) : Bool :=
  infinityBits < x.magnitude

/-- Whether the float is a real number. -/
def isFinite (x : Binary64) : Bool :=
  x.magnitude < infinityBits

/-- Whether the float is one of the two zeros. -/
def isZero (x : Binary64) : Bool :=
  x.magnitude = 0

/-- The float of a sign and a magnitude. -/
def ofMagnitude (negative : Bool) (m : Nat) : Binary64 :=
  ⟨UInt64.ofNat (if negative then 0x8000000000000000 + m else m)⟩

/-- The result of an operation that has none: a quiet NaN with its sign bit set. -/
def undefinedResult : Binary64 :=
  ⟨0xfff8000000000000⟩

/-! ### Arithmetic -/

/-- An operation on floats: the first operand that is a NaN is the result, and an operation without
a result gives `undefinedResult`. -/
def combine (op : Float → Float → Float) (x y : Binary64) : Binary64 :=
  if x.isNaN then x
  else if y.isNaN then y
  else
    let z := op x.toFloat y.toFloat
    if z.isNaN then undefinedResult else ⟨z.toBits⟩

/-- The sum of two floats. -/
def add : Binary64 → Binary64 → Binary64 := combine (· + ·)

/-- The difference of two floats. -/
def sub : Binary64 → Binary64 → Binary64 := combine (· - ·)

/-- The product of two floats. -/
def mul : Binary64 → Binary64 → Binary64 := combine (· * ·)

/-- The float with the other sign. -/
def neg (x : Binary64) : Binary64 :=
  ofMagnitude (!x.isNegative) x.magnitude

/-! ### Comparison -/

/-- The place of a float in the total order: negative NaNs, negative numbers, the negative zero,
the positive zero, positive numbers, positive NaNs. -/
def rank (x : Binary64) : Int :=
  if x.isNegative then -(x.magnitude : Int) - 1 else x.magnitude

/-- The total order of floats. -/
def order (x y : Binary64) : Ordering :=
  compare x.rank y.rank

/-- The relative tolerance of `near`. -/
def tolerance : Float := 1e-12

/-- The least positive float of full precision. -/
def leastNormal : Float := Float.ofBits 0x0010000000000000

/-- Equality up to a relative tolerance. Equal numbers are near each other, the two zeros too; a
NaN is near nothing, and an infinity only near itself. -/
def near (x y : Binary64) : Bool :=
  let a := x.toFloat
  let b := y.toFloat
  if a == b then true
  else if !x.isFinite || !y.isFinite then false
  else
    let larger := if a.abs < b.abs then b.abs else a.abs
    let scale := if larger < leastNormal then leastNormal else larger
    (a - b).abs ≤ tolerance * scale

example : tolerance.toBits = 0x3d719799812dea11 := by decide

end Binary64

end Resolvent
