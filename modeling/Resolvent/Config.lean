import Resolvent.Text.Quoted

/-!
# Configuration

The limits of an engine and what it does where a predicate is unknown. A configuration can be
overridden entry by entry from a lookup of texts by name.
-/

namespace Resolvent

/-- What a call of an unknown predicate does. -/
inductive UnknownPolicy where
  /-- It raises an error. -/
  | error
  /-- It fails. -/
  | fail
deriving DecidableEq

namespace UnknownPolicy

/-- The name of a policy. -/
def name : UnknownPolicy → String
  | error => "error"
  | fail => "fail"

/-- The policy of a name. -/
def ofName? (name : String) : Option UnknownPolicy :=
  [error, fail].find? (·.name = name)

end UnknownPolicy

/-- The limits and switches of an engine. -/
structure Config where
  /-- How many choice points there may be. -/
  maxChoicePoints : Nat
  /-- How deep activations may be nested. -/
  maxCallDepth : Nat
  /-- How much of the native stack nested activations may use, in bytes. -/
  maxStackBytes : Nat
  /-- How many operands an activation may have. -/
  maxOperands : Nat
  /-- Whether every instruction is reported. -/
  trace : Bool
  /-- What a call of an unknown predicate does. -/
  unknown : UnknownPolicy

namespace Config

/-- The configuration that holds unless something else is said. -/
def standard : Config := ⟨0x100000, 1000, 0x100000, 65536, false, .error⟩

/-- The stack that is kept free for what happens when the limit is reached, in bytes. -/
def stackHeadroom : Nat := 0x100000

/-- The greatest number that a limit can be. -/
def maxLimit : Nat := 0xffffffffffffffff

/-- The size of the stack of a thread made for an engine, in bytes. -/
def threadStackSize (c : Config) : Nat :=
  min (c.maxStackBytes + stackHeadroom) maxLimit

/-! ### Overrides -/

/-- A text that is no value for a key. -/
structure InvalidValue where
  /-- The key. -/
  key : String
  /-- The text. -/
  value : String

/-- What is reported of an invalid value. -/
def InvalidValue.message (e : InvalidValue) : String :=
  "Invalid value for " ++ e.key ++ ": " ++ Text.quoteShown e.value

/-- Whether a character is white space. -/
def isBlank (c : Char) : Bool :=
  let n := c.toNat
  (9 ≤ n && n ≤ 13) || n = 0x20 || n = 0x85 || n = 0xa0 || n = 0x1680 ||
    (0x2000 ≤ n && n ≤ 0x200a) || n = 0x2028 || n = 0x2029 || n = 0x202f || n = 0x205f || n = 0x3000

/-- A list of characters without the white space around it. -/
def trim (cs : List Char) : List Char :=
  ((cs.dropWhile isBlank).reverse.dropWhile isBlank).reverse

/-- The number that decimal digits write. -/
def digitsValue? (cs : List Char) : Option Nat :=
  if cs.isEmpty then none
  else cs.foldlM (fun n c => if c.isDigit then some (10 * n + (c.toNat - 48)) else none) 0

/-- The limit that a text writes: a positive number, with white space around it and a plus sign
allowed. -/
def limit? (value : String) : Option Nat :=
  let cs := trim value.toList
  let digits := match cs with
    | '+' :: rest => rest
    | _ => cs
  (digitsValue? digits).bind fun n => if 0 < n ∧ n ≤ maxLimit then some n else none

/-- A limit from the text found for it, or else as it is. -/
def overrideLimit (key : String) (found : Option String) (old : Nat) : Except InvalidValue Nat :=
  match found with
  | none => .ok old
  | some value =>
    match limit? value with
    | some n => .ok n
    | none => .error ⟨key, value⟩

/-- The configuration with the entries that `lookup` finds. -/
def withOverrides (c : Config) (lookup : String → Option String) : Except InvalidValue Config := do
  let maxChoicePoints ←
    overrideLimit "max_choice_points" (lookup "HORN_MAX_CHOICE_POINTS") c.maxChoicePoints
  let maxCallDepth ← overrideLimit "max_call_depth" (lookup "HORN_MAX_CALL_DEPTH") c.maxCallDepth
  let maxOperands ←
    overrideLimit "max_operand_stack" (lookup "HORN_MAX_OPERAND_STACK") c.maxOperands
  let maxStackBytes ←
    overrideLimit "max_stack_bytes" (lookup "HORN_MAX_STACK_BYTES") c.maxStackBytes
  let trace := match lookup "HORN_TRACE" with
    | some value => value ∈ ["1", "true", "yes", "on"]
    | none => c.trace
  let unknown ← match lookup "HORN_UNKNOWN" with
    | some value =>
      match UnknownPolicy.ofName? value with
      | some policy => .ok policy
      | none => .error ⟨"unknown", value⟩
    | none => .ok c.unknown
  return ⟨maxChoicePoints, maxCallDepth, maxStackBytes, maxOperands, trace, unknown⟩

end Config

end Resolvent
