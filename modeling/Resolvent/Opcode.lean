/-!
# Opcodes

The first byte of every instruction says what it does. `Opcode.toByte` and `Opcode.ofByte?` are
inverse to each other; the bytes between 0 and 255 that stand for nothing are refused.
-/

namespace Resolvent

/-- What an instruction does. -/
inductive Opcode where
  /-- Discard the top operand. -/
  | pop
  /-- Push the top operand once more. -/
  | dup
  /-- Push a constant. -/
  | pushConstant
  /-- Push an argument of the call. -/
  | pushArgument
  /-- Push the term in a slot. -/
  | pushEnvironment
  /-- Push a new variable. -/
  | createVariable
  /-- Pop the arguments of a tag and push the compound. -/
  | createCompound
  /-- Make the slots. -/
  | allocate
  /-- Pop a term into a slot. -/
  | storeEnvironment
  /-- Go on elsewhere. -/
  | jump
  /-- Pop the arguments of a tag and call its predicate. -/
  | call
  /-- Leave the activation. -/
  | leave
  /-- Do nothing. -/
  | succeed
  /-- Pop two terms and unify them. -/
  | unify
  /-- Push an alternative. -/
  | tryMeElse
  /-- Point the alternative at the next one. -/
  | retryMeElse
  /-- Drop the alternative. -/
  | trustMe
  /-- Backtrack. -/
  | fail
  /-- Drop the choice points above the barrier in a slot. -/
  | cut
  /-- Save a barrier into a slot. -/
  | saveCut
  /-- Pop a term and throw it. -/
  | raise
deriving DecidableEq

namespace Opcode

/-- The byte of an opcode. -/
def toByte : Opcode → UInt8
  | pop => 0x01
  | dup => 0x02
  | pushConstant => 0x10
  | pushArgument => 0x11
  | pushEnvironment => 0x12
  | createVariable => 0x13
  | createCompound => 0x14
  | allocate => 0x30
  | storeEnvironment => 0x31
  | jump => 0x50
  | call => 0x60
  | leave => 0x61
  | succeed => 0x62
  | unify => 0x80
  | tryMeElse => 0xf0
  | retryMeElse => 0xf1
  | trustMe => 0xf2
  | fail => 0xf3
  | cut => 0xf4
  | saveCut => 0xf5
  | raise => 0xf8

/-- The opcode of a byte, if it stands for one. -/
def ofByte? (b : UInt8) : Option Opcode :=
  match b.toNat with
  | 0x01 => some pop
  | 0x02 => some dup
  | 0x10 => some pushConstant
  | 0x11 => some pushArgument
  | 0x12 => some pushEnvironment
  | 0x13 => some createVariable
  | 0x14 => some createCompound
  | 0x30 => some allocate
  | 0x31 => some storeEnvironment
  | 0x50 => some jump
  | 0x60 => some call
  | 0x61 => some leave
  | 0x62 => some succeed
  | 0x80 => some unify
  | 0xf0 => some tryMeElse
  | 0xf1 => some retryMeElse
  | 0xf2 => some trustMe
  | 0xf3 => some fail
  | 0xf4 => some cut
  | 0xf5 => some saveCut
  | 0xf8 => some raise
  | _ => none

theorem ofByte?_toByte (op : Opcode) : ofByte? op.toByte = some op := by
  cases op <;> rfl

/-- How many bytes of operand follow an opcode. -/
def operandSize : Opcode → Nat
  | pop | dup | createVariable | leave | succeed | unify | trustMe | fail | raise => 0
  | pushConstant | pushArgument | pushEnvironment | createCompound | allocate | storeEnvironment
  | call | cut | saveCut => 2
  | jump | tryMeElse | retryMeElse => 4

/-- Whether the operand is a place in the code. -/
def isJump : Opcode → Bool
  | jump | tryMeElse | retryMeElse => true
  | _ => false

/-- Whether the operand is an index of the tag table. -/
def usesTag : Opcode → Bool
  | call | createCompound => true
  | _ => false

/-- Whether execution never goes on with the next instruction. -/
def isTerminator : Opcode → Bool
  | jump | leave | fail | raise => true
  | _ => false

/-- The name of an opcode in listings. -/
def mnemonic : Opcode → String
  | pop => "pop"
  | dup => "dup"
  | pushConstant => "push_constant"
  | pushArgument => "push_argument"
  | pushEnvironment => "push_environment"
  | createVariable => "create_variable"
  | createCompound => "create_compound"
  | allocate => "allocate"
  | storeEnvironment => "store_environment"
  | jump => "jump"
  | call => "call"
  | leave => "return"
  | succeed => "true"
  | unify => "unify"
  | tryMeElse => "try_me_else"
  | retryMeElse => "retry_me_else"
  | trustMe => "trust_me"
  | fail => "fail"
  | cut => "cut"
  | saveCut => "save_cut"
  | raise => "throw"

/-- All opcodes. -/
def all : List Opcode :=
  [pop, dup, pushConstant, pushArgument, pushEnvironment, createVariable, createCompound, allocate,
    storeEnvironment, jump, call, leave, succeed, unify, tryMeElse, retryMeElse, trustMe, fail, cut,
    saveCut, raise]

/-- The opcode of a name in listings. -/
def ofMnemonic? (name : String) : Option Opcode :=
  all.find? (·.mnemonic = name)

end Opcode

end Resolvent
