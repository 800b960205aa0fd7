import Resolvent.Opcode

/-!
# Instructions

An instruction is an opcode with its operand. What stands for a constant, a tag and a place in the
code depends on the stage: in a program they are a term, a tag and a label, in packed code an index
into the constant table, an index into the tag table and an offset.
-/

namespace Resolvent

/-- An instruction over constants `κ`, tags `τ` and places in the code `ℓ`. -/
inductive Instruction (κ τ ℓ : Type) where
  /-- Discard the top operand. -/
  | pop
  /-- Push the top operand once more. -/
  | dup
  /-- Push a constant. -/
  | pushConstant (c : κ)
  /-- Push an argument of the call. -/
  | pushArgument (n : UInt16)
  /-- Push the term in a slot. -/
  | pushEnvironment (slot : UInt16)
  /-- Push a new variable. -/
  | createVariable
  /-- Pop the arguments of a tag and push the compound. -/
  | createCompound (tag : τ)
  /-- Make the slots. -/
  | allocate (n : UInt16)
  /-- Pop a term into a slot. -/
  | storeEnvironment (slot : UInt16)
  /-- Go on elsewhere. -/
  | jump (target : ℓ)
  /-- Pop the arguments of a tag and call its predicate. -/
  | call (tag : τ)
  /-- Leave the activation. -/
  | leave
  /-- Do nothing. -/
  | succeed
  /-- Pop two terms and unify them. -/
  | unify
  /-- Push an alternative. -/
  | tryMeElse (target : ℓ)
  /-- Point the alternative on top of the choice stack elsewhere. -/
  | retryMeElse (target : ℓ)
  /-- Drop the alternative on top of the choice stack. -/
  | trustMe
  /-- Backtrack. -/
  | fail
  /-- Drop the choice points above the barrier in a slot. -/
  | cut (slot : UInt16)
  /-- Save a barrier into a slot. -/
  | saveCut (slot : UInt16)
  /-- Pop a term and throw it. -/
  | raise
deriving DecidableEq

namespace Instruction

variable {κ τ ℓ κ' τ' ℓ' : Type}

/-- The opcode of an instruction. -/
def opcode : Instruction κ τ ℓ → Opcode
  | pop => .pop
  | dup => .dup
  | pushConstant _ => .pushConstant
  | pushArgument _ => .pushArgument
  | pushEnvironment _ => .pushEnvironment
  | createVariable => .createVariable
  | createCompound _ => .createCompound
  | allocate _ => .allocate
  | storeEnvironment _ => .storeEnvironment
  | jump _ => .jump
  | call _ => .call
  | leave => .leave
  | succeed => .succeed
  | unify => .unify
  | tryMeElse _ => .tryMeElse
  | retryMeElse _ => .retryMeElse
  | trustMe => .trustMe
  | fail => .fail
  | cut _ => .cut
  | saveCut _ => .saveCut
  | raise => .raise

/-- How many bytes an instruction takes. -/
def size (i : Instruction κ τ ℓ) : Nat :=
  1 + i.opcode.operandSize

/-! ### Bytes -/

/-- A number as two bytes, the higher one first. -/
def bytes16 (n : UInt16) : List UInt8 :=
  [(n >>> 8).toUInt8, n.toUInt8]

/-- A number as four bytes, the highest one first. -/
def bytes32 (n : UInt32) : List UInt8 :=
  [(n >>> 24).toUInt8, (n >>> 16).toUInt8, (n >>> 8).toUInt8, n.toUInt8]

/-- The number of two bytes. -/
def ofBytes16 (a b : UInt8) : UInt16 :=
  a.toUInt16 <<< 8 ||| b.toUInt16

/-- The number of four bytes. -/
def ofBytes32 (a b c d : UInt8) : UInt32 :=
  a.toUInt32 <<< 24 ||| b.toUInt32 <<< 16 ||| c.toUInt32 <<< 8 ||| d.toUInt32

/-- The operand of an instruction of packed code as bytes. -/
def operandBytes : Instruction UInt16 UInt16 UInt32 → List UInt8
  | pushConstant n | pushArgument n | pushEnvironment n | createCompound n | allocate n
  | storeEnvironment n | call n | cut n | saveCut n => bytes16 n
  | jump n | tryMeElse n | retryMeElse n => bytes32 n
  | pop | dup | createVariable | leave | succeed | unify | trustMe | fail | raise => []

/-- An instruction of packed code as bytes. -/
def encode (i : Instruction UInt16 UInt16 UInt32) : List UInt8 :=
  i.opcode.toByte :: i.operandBytes

/-- The instruction of an opcode, with the one of the given operands that belongs to it. -/
def ofOperands (op : Opcode) (constant : κ) (tag : τ) (n : UInt16) (place : ℓ) :
    Instruction κ τ ℓ :=
  match op with
  | .pop => pop
  | .dup => dup
  | .pushConstant => pushConstant constant
  | .pushArgument => pushArgument n
  | .pushEnvironment => pushEnvironment n
  | .createVariable => createVariable
  | .createCompound => createCompound tag
  | .allocate => allocate n
  | .storeEnvironment => storeEnvironment n
  | .jump => jump place
  | .call => call tag
  | .leave => leave
  | .succeed => succeed
  | .unify => unify
  | .tryMeElse => tryMeElse place
  | .retryMeElse => retryMeElse place
  | .trustMe => trustMe
  | .fail => fail
  | .cut => cut n
  | .saveCut => saveCut n
  | .raise => raise

/-- The instruction of packed code of an opcode and an operand. -/
def ofOperand (op : Opcode) (n : UInt16) (place : UInt32) : Instruction UInt16 UInt16 UInt32 :=
  ofOperands op n n n place

/-! ### Text -/

/-- An instruction as text, with its name and its operand as the functions write it. -/
def format (constant : κ → String) (tag : τ → String) (place : ℓ → String) (i : Instruction κ τ ℓ) :
    String :=
  let name := i.opcode.mnemonic
  match i with
  | pushConstant c => name ++ " " ++ constant c
  | createCompound t | call t => name ++ " " ++ tag t
  | pushArgument n | pushEnvironment n | allocate n | storeEnvironment n | cut n | saveCut n =>
    name ++ " " ++ toString n.toNat
  | jump l | tryMeElse l | retryMeElse l => name ++ " " ++ place l
  | _ => name

end Instruction

end Resolvent
