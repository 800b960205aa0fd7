import Resolvent.Binary64

/-!
# The shortest decimal of a float

A positive float stands for an interval of reals, those that round to it. `Binary64.shortest` gives
the decimal with the fewest digits in that interval, and of two such the one nearer to the float, a
tie going up. `Binary64.display` lays it out with a point and no exponent, `Binary64.inspect` with
an exponent where the number is very large or very small.
-/

namespace Resolvent

/-- The decimal number `digits * 10 ^ exponent`. -/
structure Decimal where
  /-- The digits, read as one number. -/
  digits : Nat
  /-- The power of ten of the last digit. -/
  exponent : Int
deriving DecidableEq

namespace Binary64

/-- The number `m` of a positive finite float `m * 2 ^ e`, by its magnitude. -/
def significand (magnitude : Nat) : Nat :=
  if magnitude / 0x10000000000000 = 0 then magnitude else magnitude % 0x10000000000000 + 0x10000000000000

/-- The number `e` of a positive finite float `m * 2 ^ e`, by its magnitude. -/
def scale (magnitude : Nat) : Int :=
  max (magnitude / 0x10000000000000 : Nat) 1 - 1075

/-- The value of a positive float and the ends of the interval that rounds to it, as multiples of a
common unit `1 / den`. -/
structure Interval where
  /-- The lower end. -/
  low : Nat
  /-- The value. -/
  value : Nat
  /-- The upper end. -/
  high : Nat
  /-- How many of the units make one. -/
  den : Nat
  /-- Whether the ends round to the float too. -/
  closed : Bool

/-- The interval of a positive finite float. Below a power of two the floats lie twice as dense, so
there the lower end is nearer. -/
def interval (magnitude : Nat) : Interval :=
  let m := significand magnitude
  let e := scale magnitude - 2
  let below := if magnitude % 0x10000000000000 = 0 ∧ 1 < magnitude / 0x10000000000000 then 1 else 2
  let up := Nat.pow 2 e.toNat
  ⟨(4 * m - below) * up, 4 * m * up, (4 * m + 2) * up, Nat.pow 2 (-e).toNat, m % 2 = 0⟩

namespace Interval

/-- Whether the decimal `n * 10 ^ k` lies in the interval. -/
def contains (i : Interval) (n : Nat) (k : Int) : Bool :=
  let x := n * Nat.pow 10 k.toNat * i.den
  let unit := Nat.pow 10 (-k).toNat
  if i.closed then i.low * unit ≤ x && x ≤ i.high * unit
  else i.low * unit < x && x < i.high * unit

/-- The multiple of `10 ^ k` next to the value, below or above, that lies in the interval: the
nearer one if both do, the upper one if both are equally near. -/
def neighbour? (i : Interval) (k : Int) : Option Nat :=
  let num := i.value * Nat.pow 10 (-k).toNat
  let den := i.den * Nat.pow 10 k.toNat
  let floor := num / den
  let rest := num % den
  match i.contains floor k, i.contains (floor + 1) k with
  | true, true => some (if 2 * rest < den then floor else floor + 1)
  | true, false => some floor
  | false, true => some (floor + 1)
  | false, false => none

/-- The power of ten of the leading digit of the value. -/
def leadingExponent (i : Interval) : Int :=
  let guess : Int := (i.value.log2 : Int) - i.den.log2
  let start := guess * 30103 / 100000 - 1
  let fits (k : Int) : Bool := i.den * Nat.pow 10 k.toNat ≤ i.value * Nat.pow 10 (-k).toNat
  if fits (start + 2) then start + 2 else if fits (start + 1) then start + 1 else start

end Interval

/-- The shortest decimal that rounds to a positive finite float: the first grid of powers of ten,
from coarse to fine, on which a neighbour of the value lies in the interval. -/
def shortest (magnitude : Nat) : Decimal :=
  let i := interval magnitude
  let top := i.leadingExponent + 1
  let found := (List.range 18).findSome? fun (n : Nat) =>
    let k : Int := top - n
    (i.neighbour? k).bind fun d => if d = 0 then none else some (⟨d, k⟩ : Decimal)
  found.getD ⟨0, 0⟩

/-! ### Layout -/

/-- A decimal with a point and no exponent; a whole number has no point. -/
def layoutPlain (d : Decimal) : List Char :=
  let chars := Nat.toDigits 10 d.digits
  if d.exponent ≥ 0 then chars ++ List.replicate d.exponent.toNat '0'
  else
    let places := (-d.exponent).toNat
    if chars.length ≤ places then
      '0' :: '.' :: (List.replicate (places - chars.length) '0' ++ chars)
    else
      chars.take (chars.length - places) ++ '.' :: chars.drop (chars.length - places)

/-- A decimal with one digit before the point, and its exponent. -/
def layoutScientific (d : Decimal) : List Char :=
  let chars := Nat.toDigits 10 d.digits
  let fraction := if chars.length ≤ 1 then [] else '.' :: chars.drop 1
  let e := d.exponent + (chars.length - 1 : Nat)
  let sign := if e < 0 then ['-'] else []
  chars.take 1 ++ fraction ++ 'e' :: sign ++ Nat.toDigits 10 e.natAbs

/-- The sign and the text of a float, with `zero` for zero and `positive` for the finite floats
above it. -/
def layout (zero : List Char) (positive : Nat → List Char) (x : Binary64) : List Char :=
  if x.isNaN then ['N', 'a', 'N']
  else
    let text :=
      if !x.isFinite then ['i', 'n', 'f'] else if x.isZero then zero else positive x.magnitude
    if x.isNegative then '-' :: text else text

/-- Whether a positive finite float is a whole number. -/
def isWhole (magnitude : Nat) : Bool :=
  let e := scale magnitude
  e ≥ 0 || significand magnitude % Nat.pow 2 (-e).toNat = 0

/-- A float in full, without an exponent: `1`, `0.1`, `1000000000000000000000`. -/
def display : Binary64 → List Char :=
  layout ['0'] fun m => layoutPlain (shortest m)

/-- A float for diagnosis: with a point below `10 ^ 16` and from `10 ^ -4` on, otherwise with an
exponent. -/
def inspect : Binary64 → List Char :=
  layout ['0', '.', '0'] fun m =>
    let d := shortest m
    let top := d.exponent + ((Nat.toDigits 10 d.digits).length - 1 : Nat)
    if top < -4 || 16 ≤ top then layoutScientific d
    else if isWhole m then layoutPlain d ++ ['.', '0'] else layoutPlain d

example : display ⟨0x3fb999999999999a⟩ = ['0', '.', '1'] ∧
    display ⟨0x3ff0000000000000⟩ = ['1'] := by
  decide +kernel

example : display ⟨0xc059000000000000⟩ = ['-', '1', '0', '0'] ∧
    display ⟨1⟩ = '0' :: '.' :: (List.replicate 323 '0' ++ ['5']) := by decide +kernel

example : inspect ⟨0x4341c37937e08000⟩ = ['1', 'e', '1', '6'] ∧
    inspect ⟨0x3e7ad7f29abcaf48⟩ = ['1', 'e', '-', '7'] ∧
    inspect ⟨0x8000000000000000⟩ = ['-', '0', '.', '0'] := by decide +kernel

-- `2 ^ -24` lies midway between two decimals of sixteen digits
example : String.ofList (inspect ⟨0x3e70000000000000⟩) = "5.960464477539063e-8" := by
  decide +kernel

end Binary64

end Resolvent
