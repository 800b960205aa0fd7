import Resolvent.Instruction
import Resolvent.Term

/-!
# Packed code

A `Chunk` is the code of one predicate as bytes, with tables of the tags and constants that its
instructions name by index, and the ranges guarded by handlers. `Chunk.fetch` reads an instruction.
-/

namespace Resolvent

/-- What can go wrong in packed code. -/
inductive Fault where
  /-- An operand is missing. -/
  | stackUnderflow
  /-- There are too many operands. -/
  | stackOverflow
  /-- A byte that is no opcode. -/
  | invalidOpcode (b : UInt8)
  /-- A constant index outside the table. -/
  | invalidConstant (n : UInt16)
  /-- A tag index outside the table. -/
  | invalidTag (n : UInt16)
  /-- A slot outside the environment. -/
  | invalidSlot (n : UInt16)
  /-- An argument that the call does not have. -/
  | invalidArgument (n : UInt16)
  /-- A slot that does not hold what is expected. -/
  | slotKind (n : UInt16) (expected : String)
  /-- A place outside the code. -/
  | outOfCode
  /-- An alternative is expected on top of the choice stack. -/
  | noAlternative
  /-- A left activation is expected on top of the choice stack. -/
  | noExit
  /-- The choice stack is lower than at the entry of the activation. -/
  | entryMissing
deriving DecidableEq

namespace Fault

/-- Two hexadecimal digits of a byte. -/
def hexByte (b : UInt8) : String :=
  let n := b.toNat
  String.ofList [Nat.digitChar (n / 16), Nat.digitChar (n % 16)]

/-- What is reported of a fault. -/
def message : Fault → String
  | stackUnderflow => "Stack underflow"
  | stackOverflow => "Operand stack overflow"
  | invalidOpcode b => "Invalid opcode: 0x" ++ hexByte b
  | invalidConstant n => "Invalid constant index: " ++ toString n.toNat
  | invalidTag n => "Invalid tag index: " ++ toString n.toNat
  | invalidSlot n => "Invalid environment slot: " ++ toString n.toNat
  | invalidArgument n => "Invalid argument index: " ++ toString n.toNat
  | slotKind n expected =>
    "Environment slot " ++ toString n.toNat ++ " does not hold a " ++ expected
  | outOfCode => "Instruction pointer out of bounds"
  | noAlternative => "No alternative on the choice stack"
  | noExit => "No frame exit marker to resume"
  | entryMissing => "Frame entry marker missing"

end Fault

namespace Chunk

/-- A range of the code and the place that balls thrown in it go to. -/
structure Handler where
  /-- The first offset of the range. -/
  start : UInt32
  /-- The offset behind the range. -/
  stop : UInt32
  /-- Where balls go to. -/
  target : UInt32
  /-- The slot with the barrier saved when the range was entered. -/
  slot : UInt16
deriving DecidableEq

/-- Whether an offset lies in the range. -/
def Handler.covers (h : Handler) (offset : Nat) : Bool :=
  h.start.toNat ≤ offset && offset < h.stop.toNat

end Chunk

/-- The packed code of a predicate. -/
structure Chunk where
  /-- The name in listings. -/
  name : String
  /-- How many arguments a call has. -/
  arity : UInt16
  /-- How many slots an activation has. -/
  slots : UInt16
  /-- The instructions. -/
  code : Array UInt8
  /-- The tags that instructions name. -/
  tags : Array Tag
  /-- The constants that instructions name. -/
  constants : Array Term
  /-- The handlers, an inner one before those around it. -/
  handlers : Array Chunk.Handler
deriving Inhabited

namespace Chunk

/-- The opcode at an offset, if there is one. -/
def opcode? (c : Chunk) (offset : Nat) : Option Opcode :=
  c.code[offset]?.bind Opcode.ofByte?

/-- The number in the two bytes at an offset. -/
def read16? (c : Chunk) (offset : Nat) : Option UInt16 := do
  return Instruction.ofBytes16 (← c.code[offset]?) (← c.code[offset + 1]?)

/-- The number in the four bytes at an offset. -/
def read32? (c : Chunk) (offset : Nat) : Option UInt32 := do
  return Instruction.ofBytes32 (← c.code[offset]?) (← c.code[offset + 1]?) (← c.code[offset + 2]?)
    (← c.code[offset + 3]?)

/-- The first handler whose range an offset lies in, which is the innermost one. -/
def handlerFor? (c : Chunk) (offset : Nat) : Option Handler :=
  c.handlers.find? (·.covers offset)

/-- The instruction at an offset, and the offset behind it. -/
def fetch (c : Chunk) (offset : Nat) : Except Fault (Instruction UInt16 UInt16 UInt32 × Nat) := do
  let some b := c.code[offset]? | throw .outOfCode
  let some op := Opcode.ofByte? b | throw (.invalidOpcode b)
  match op.operandSize with
  | 0 => return (.ofOperand op 0 0, offset + 1)
  | 2 =>
    let some n := c.read16? (offset + 1) | throw .outOfCode
    return (.ofOperand op n 0, offset + 3)
  | _ =>
    let some n := c.read32? (offset + 1) | throw .outOfCode
    return (.ofOperand op 0 n, offset + 5)

end Chunk

end Resolvent
