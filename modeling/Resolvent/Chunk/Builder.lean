import Resolvent.Body
import Resolvent.Chunk

/-!
# Building packed code

The tables of a chunk hold a tag once; atoms, machine integers and floats are entered once too, a
float by its bits. `Builder` writes instructions one by one, and a jump may be written before its
target is known.
-/

namespace Resolvent

/-- The tables of a chunk, with the indices of what must not be entered twice. -/
structure Chunk.Tables where
  /-- The tags. -/
  tags : Array Tag
  /-- The index of each tag. -/
  tagIndex : Std.TreeMap Nat UInt16
  /-- The constants. -/
  constants : Array Term
  /-- The index of each atom, machine integer and float, by its key. -/
  constantIndex : Std.TreeMap Nat UInt16

namespace Chunk.Tables

/-- Empty tables. -/
def empty : Tables := ⟨#[], ∅, #[], ∅⟩

/-- How many entries a table can have. -/
def maxEntries : Nat := 65536

/-- A number of its own for every constant that is entered once. -/
def key? : Term → Option Nat
  | .const (.atom a) => some (3 * a.index)
  | .const (.int n) => some (3 * n.toUInt64.toNat + 1)
  | .const (.float x) => some (3 * x.bits.toNat + 2)
  | _ => none

/-- The index of a tag, entered if it is new. -/
def addTag (t : Tables) (tag : Tag) : Except CompileError (UInt16 × Tables) :=
  match t.tagIndex[tag.index]? with
  | some n => .ok (n, t)
  | none =>
    if t.tags.size < maxEntries then
      let n := .ofNat t.tags.size
      .ok (n, { t with tags := t.tags.push tag, tagIndex := t.tagIndex.insert tag.index n })
    else .error .tooManyTags

/-- The index of a constant, entered if it is new or has no key. -/
def addConstant (t : Tables) (c : Term) : Except CompileError (UInt16 × Tables) :=
  match (key? c).bind fun key => t.constantIndex[key]? with
  | some n => .ok (n, t)
  | none =>
    if t.constants.size < maxEntries then
      let n := .ofNat t.constants.size
      let index := match key? c with
        | some key => t.constantIndex.insert key n
        | none => t.constantIndex
      .ok (n, { t with constants := t.constants.push c, constantIndex := index })
    else .error .tooManyConstants

end Chunk.Tables

namespace Chunk

/-- A chunk being written. -/
structure Builder where
  /-- The name in listings. -/
  name : String
  /-- How many arguments a call has. -/
  arity : UInt16
  /-- How many slots an activation has. -/
  slots : UInt16
  /-- The instructions so far. -/
  code : Array UInt8
  /-- The tables so far. -/
  tables : Tables
  /-- The handlers so far. -/
  handlers : Array Handler

namespace Builder

/-- A chunk without code. -/
def ofName (name : String) (arity slots : UInt16) : Builder :=
  ⟨name, arity, slots, #[], .empty, #[]⟩

/-- Writes bytes. -/
def writeBytes (b : Builder) (bytes : List UInt8) : Builder :=
  { b with code := bytes.foldl .push b.code }

/-- Writes an instruction. -/
def emit (b : Builder) (i : Instruction UInt16 UInt16 UInt32) : Builder :=
  b.writeBytes i.encode

/-- Writes an instruction with a place as operand that is not known yet; the result tells where the
place belongs. -/
def emitJump (b : Builder) (op : Opcode) : Nat × Builder :=
  (b.code.size + 1, b.writeBytes (op.toByte :: Instruction.bytes32 0xffffffff))

/-- Overwrites bytes from an offset on. -/
def overwrite (code : Array UInt8) (offset : Nat) : List UInt8 → Array UInt8
  | [] => code
  | byte :: bytes => overwrite (code.setIfInBounds offset byte) (offset + 1) bytes

/-- Puts a place where `emitJump` left it open. -/
def patch (b : Builder) (hole target : Nat) : Except CompileError Builder :=
  if target < 0x100000000 then
    .ok { b with code := overwrite b.code hole (Instruction.bytes32 (.ofNat target)) }
  else .error .codeTooLarge

/-- The chunk as written. -/
def build (b : Builder) : Chunk :=
  ⟨b.name, b.arity, b.slots, b.code, b.tables.tags, b.tables.constants, b.handlers⟩

end Builder

end Chunk

end Resolvent
