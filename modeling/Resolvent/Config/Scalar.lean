import Resolvent.Config.Table

/-!
# Values that are written as one word

An integer is written in decimal, or in another base behind `0x`, `0o` or `0b`, and has to be a
machine integer. A float has a fraction, an exponent or both. A moment is a date, a time of the day,
or both with `T` between them and perhaps the difference from universal time behind them.
-/

namespace Resolvent

namespace Config.Scalar

/-! ### Digits -/

/-- The value of a digit in a base. -/
def digit? (base : Nat) (c : Char) : Option Nat :=
  let n := c.toNat
  let d :=
    if 48 ≤ n ∧ n ≤ 57 then n - 48
    else if 65 ≤ n ∧ n ≤ 70 then n - 55
    else if 97 ≤ n ∧ n ≤ 102 then n - 87
    else base
  if d < base then some d else none

/-- The number that digits write behind those of `n`; an underscore may stand between two digits. -/
def digitsFrom (base : Nat) : Bool → Nat → List Char → Option Nat
  | afterDigit, n, [] => if afterDigit then some n else none
  | afterDigit, n, c :: cs =>
    if c = '_' then if afterDigit then digitsFrom base false n cs else none
    else
      match digit? base c with
      | some d => digitsFrom base true (base * n + d) cs
      | none => none

/-- The number that digits write. -/
def digits (base : Nat) (cs : List Char) : Option Nat :=
  digitsFrom base false 0 cs

/-- The number that decimal digits write, the first of which is zero only if it stands alone. -/
def decimal : List Char → Option Nat
  | ['0'] => some 0
  | '0' :: _ => none
  | cs => digits 10 cs

/-- A sign in front of a word, and the word without it. -/
def sign : List Char → Bool × List Char
  | '+' :: cs => (false, cs)
  | '-' :: cs => (true, cs)
  | cs => (false, cs)

/-! ### Integers and floats -/

/-- The integer that a word writes. -/
def integer? : List Char → Option Int
  | '0' :: 'x' :: cs => (digits 16 cs).map Int.ofNat
  | '0' :: 'o' :: cs => (digits 8 cs).map Int.ofNat
  | '0' :: 'b' :: cs => (digits 2 cs).map Int.ofNat
  | cs =>
    let (negative, cs) := sign cs
    (decimal cs).map fun n => if negative then -Int.ofNat n else n

/-- The least number that is rounded to infinity: the middle between the largest float and the power
of two behind it. -/
def leastInfinite : Nat := (Nat.pow 2 54 - 1) * Nat.pow 2 970

/-- Whether `n * 10 ^ e` is rounded to infinity. -/
def isInfinite (n : Nat) (e : Int) : Bool :=
  if 0 ≤ e then n ≠ 0 && (400 < e || leastInfinite ≤ n * Nat.pow 10 e.toNat)
  else (-e).toNat ≤ n.log2 && leastInfinite * Nat.pow 10 (-e).toNat ≤ n

/-- The number `n` and the exponent `e` such that a word writes the float nearest to
`n * 10 ^ e`. -/
def float? (word : List Char) : Option (Nat × Int) :=
  let mantissa := word.takeWhile fun c => c ≠ 'e' && c ≠ 'E'
  let exponent := word.dropWhile fun c => c ≠ 'e' && c ≠ 'E'
  let whole := mantissa.takeWhile (· ≠ '.')
  let fraction := mantissa.dropWhile (· ≠ '.')
  if fraction.isEmpty && exponent.isEmpty then none
  else do
    let n ← decimal whole
    let m ← if fraction.isEmpty then some 0 else digits 10 fraction.tail
    let places := (fraction.tail.filter (· ≠ '_')).length
    let (negative, power) := sign exponent.tail
    let e ← if exponent.isEmpty then some 0 else digits 10 power
    return (n * Nat.pow 10 places + m, (if negative then -Int.ofNat e else e) - places)

/-- Whether a word writes a float. One that is too large is none unless it is negative. -/
def isFloat (word : List Char) : Bool :=
  let (negative, word) := sign word
  word = "inf".toList || word = "nan".toList ||
    match float? word with
    | some (n, e) => negative || !isInfinite n e
    | none => false

/-! ### Moments -/

/-- The number that the first `n` characters write, all of them digits, and the rest. -/
def fixed? (n : Nat) (cs : List Char) : Option (Nat × List Char) :=
  if (cs.take n).length = n ∧ (cs.take n).all Char.isDigit then
    (digits 10 (cs.take n)).map (·, cs.drop n)
  else none

/-- What stands behind a character. -/
def behind? (c : Char) : List Char → Option (List Char)
  | [] => none
  | d :: cs => if c = d then some cs else none

/-- The number of days of a month. -/
def daysOf (year month : Nat) : Nat :=
  if month = 2 then if year % 4 = 0 && (year % 100 ≠ 0 || year % 400 = 0) then 29 else 28
  else if month = 4 || month = 6 || month = 9 || month = 11 then 30
  else 31

/-- What stands behind a date. -/
def behindDate? (cs : List Char) : Option (List Char) := do
  let (year, cs) ← fixed? 4 cs
  let (month, cs) ← fixed? 2 (← behind? '-' cs)
  let (day, cs) ← fixed? 2 (← behind? '-' cs)
  if 1 ≤ month ∧ month ≤ 12 ∧ 1 ≤ day ∧ day ≤ daysOf year month then some cs else none

/-- What stands behind hours and minutes. -/
def behindMinutes? (cs : List Char) : Option (List Char) := do
  let (hours, cs) ← fixed? 2 cs
  let (minutes, cs) ← fixed? 2 (← behind? ':' cs)
  if hours < 24 ∧ minutes < 60 then some cs else none

/-- What stands behind a time of the day; a minute may have a second 60. -/
def behindTime? (cs : List Char) : Option (List Char) := do
  let (seconds, cs) ← fixed? 2 (← behind? ':' (← behindMinutes? cs))
  if 60 < seconds then none
  else
    match cs with
    | '.' :: c :: cs => if c.isDigit then some (cs.dropWhile Char.isDigit) else none
    | cs => some cs

/-- Whether a word writes a difference from universal time. -/
def isOffset : List Char → Bool
  | ['Z'] | ['z'] => true
  | '+' :: cs | '-' :: cs => behindMinutes? cs = some []
  | _ => false

/-- Whether a word writes a date. -/
def isDate (word : List Char) : Bool :=
  behindDate? word = some []

/-- Whether a word writes a time of the day as it may stand behind a date. -/
def isTimeOfDate (word : List Char) : Bool :=
  match behindTime? word with
  | some [] => true
  | some cs => isOffset cs
  | none => false

/-- Whether a word writes a moment. -/
def isMoment (word : List Char) : Bool :=
  behindTime? word = some [] || isDate word ||
    match behindDate? word with
    | some (c :: cs) => (c = 'T' || c = 't') && isTimeOfDate cs
    | _ => false

/-! ### Words -/

/-- Whether a character may stand in a word. -/
def isWordChar (c : Char) : Bool :=
  c.isAlphanum || c = '_' || c = '-' || c = '+' || c = '.' || c = ':'

/-- The value that a word writes. -/
def ofWord? (word : List Char) : Option Value :=
  if word = "true".toList then some (.boolean true)
  else if word = "false".toList then some (.boolean false)
  else
    match integer? word with
    | some n => if -0x8000000000000000 ≤ n ∧ n < 0x8000000000000000 then some (.integer n) else none
    | none => if isFloat word || isMoment word then some .other else none

/-- Reads a word. A date may be followed by a blank and a time of the day. -/
def read? (cs : List Char) : Option (Value × List Char) :=
  let word := cs.takeWhile isWordChar
  let rest := cs.dropWhile isWordChar
  let time := rest.tail.takeWhile isWordChar
  if isDate word && rest.head? = some ' ' && isTimeOfDate time then
    some (.other, rest.tail.dropWhile isWordChar)
  else (ofWord? word).map (·, rest)

end Config.Scalar

end Resolvent
