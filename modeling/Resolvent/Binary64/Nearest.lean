import Resolvent.Binary64

/-!
# The float nearest to a rational number

`Binary64.ofRat` rounds to the nearest float, a tie going to the float with an even last bit; what
is too large for a float becomes an infinity.
-/

namespace Resolvent

namespace Binary64

/-- The exponent of two of the last bit of floats as large as `num / den`. -/
def unitExponent (num den : Nat) : Int :=
  let guess : Int := (num.log2 : Int) - den.log2
  let below := if guess ≥ 0 then num < den * Nat.pow 2 guess.toNat else num * Nat.pow 2 (-guess).toNat < den
  max ((if below then guess - 1 else guess) - 52) (-1074)

/-- The whole number nearest to `num / den`, a tie going to the even one. -/
def roundDiv (num den : Nat) : Nat :=
  let q := num / den
  let r := num % den
  if den < 2 * r || (2 * r = den && q % 2 = 1) then q + 1 else q

/-- The magnitude of the float nearest to `num / den`. -/
def nearestMagnitude (num den : Nat) : Nat :=
  if num = 0 then 0
  else
    let e := unitExponent num den
    let m := if e ≥ 0 then roundDiv num (den * Nat.pow 2 e.toNat) else roundDiv (num * Nat.pow 2 (-e).toNat) den
    min ((e + 1074).toNat * 0x10000000000000 + m) infinityBits

/-- The float nearest to a rational number. -/
def ofRat (q : Rat) : Binary64 :=
  ofMagnitude (q.num < 0) (nearestMagnitude q.num.natAbs q.den)

/-- The float nearest to an integer. -/
def ofInt (n : Int) : Binary64 :=
  ofMagnitude (n < 0) (nearestMagnitude n.natAbs 1)

example : ofInt 0 = ⟨0⟩ ∧ ofInt 1 = ⟨0x3ff0000000000000⟩ ∧ ofInt (-3) = ⟨0xc008000000000000⟩ := by
  decide +kernel

example : ofInt (2 ^ 53 + 1) = ofInt (2 ^ 53) ∧ ofInt (2 ^ 53 + 3) = ofInt (2 ^ 53 + 4) := by
  decide +kernel

example : ofInt (2 ^ 1024) = ⟨0x7ff0000000000000⟩ ∧
    ofRat ((1 : Rat) / 10) = ⟨0x3fb999999999999a⟩ := by
  decide +kernel

end Binary64

end Resolvent
