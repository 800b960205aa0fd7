import Resolvent.Chunk.Builder
import Resolvent.Program.Compile

/-!
# Packing a program

`Program.assemble` enters the constants and tags of a program into tables, finds the offset of every
label, and writes the instructions as bytes. A label that is placed twice stands for its last place.
-/

namespace Resolvent

namespace Program

/-- What the first pass over the lines of a program gives. -/
structure Layout where
  /-- The tables. -/
  tables : Chunk.Tables
  /-- The instructions, their places still given by labels. -/
  instructions : Array (Instruction UInt16 UInt16 Nat)
  /-- The offset of each label placed so far. -/
  places : Std.TreeMap Nat Nat
  /-- The offset behind the instructions. -/
  offset : Nat

namespace Layout

/-- The layout of no lines. -/
def empty : Layout := ⟨.empty, #[], ∅, 0⟩

/-- The constant and tag of an instruction entered into the tables. -/
def enter (tables : Chunk.Tables) :
    Instruction Term Tag Nat → Except CompileError (Instruction UInt16 UInt16 Nat × Chunk.Tables)
  | .pushConstant c => do
    let (n, tables) ← tables.addConstant c
    return (.pushConstant n, tables)
  | .createCompound t => do
    let (n, tables) ← tables.addTag t
    return (.createCompound n, tables)
  | .call t => do
    let (n, tables) ← tables.addTag t
    return (.call n, tables)
  | .pop => return (.pop, tables)
  | .dup => return (.dup, tables)
  | .pushArgument n => return (.pushArgument n, tables)
  | .pushEnvironment n => return (.pushEnvironment n, tables)
  | .createVariable => return (.createVariable, tables)
  | .allocate n => return (.allocate n, tables)
  | .storeEnvironment n => return (.storeEnvironment n, tables)
  | .jump l => return (.jump l, tables)
  | .leave => return (.leave, tables)
  | .succeed => return (.succeed, tables)
  | .unify => return (.unify, tables)
  | .tryMeElse l => return (.tryMeElse l, tables)
  | .retryMeElse l => return (.retryMeElse l, tables)
  | .trustMe => return (.trustMe, tables)
  | .fail => return (.fail, tables)
  | .cut n => return (.cut n, tables)
  | .saveCut n => return (.saveCut n, tables)
  | .raise => return (.raise, tables)

/-- The layout with one more line. -/
def addLine (l : Layout) : Line → Except CompileError Layout
  | .label n => .ok { l with places := l.places.insert n l.offset }
  | .instruction i => do
    let (i, tables) ← enter l.tables i
    return { l with
      tables := tables
      instructions := l.instructions.push i
      offset := l.offset + i.size }

/-- The offset of a label. -/
def place (l : Layout) (label : Nat) : Except CompileError UInt32 :=
  match l.places[label]? with
  | none => .error (.unboundLabel label)
  | some n => if n < 0x100000000 then .ok (.ofNat n) else .error .codeTooLarge

/-- An instruction with its place given by an offset. -/
def resolve (l : Layout) :
    Instruction UInt16 UInt16 Nat → Except CompileError (Instruction UInt16 UInt16 UInt32)
  | .jump n => return .jump (← l.place n)
  | .tryMeElse n => return .tryMeElse (← l.place n)
  | .retryMeElse n => return .retryMeElse (← l.place n)
  | .pushConstant n => return .pushConstant n
  | .createCompound n => return .createCompound n
  | .call n => return .call n
  | .pop => return .pop
  | .dup => return .dup
  | .pushArgument n => return .pushArgument n
  | .pushEnvironment n => return .pushEnvironment n
  | .createVariable => return .createVariable
  | .allocate n => return .allocate n
  | .storeEnvironment n => return .storeEnvironment n
  | .leave => return .leave
  | .succeed => return .succeed
  | .unify => return .unify
  | .trustMe => return .trustMe
  | .fail => return .fail
  | .cut n => return .cut n
  | .saveCut n => return .saveCut n
  | .raise => return .raise

/-- A handler with its places given by offsets. -/
def resolveHandler (l : Layout) (h : Handler) : Except CompileError Chunk.Handler := do
  return ⟨← l.place h.start, ← l.place h.stop, ← l.place h.target, h.slot⟩

end Layout

/-- The packed code of a program. -/
def assemble (p : Program) : Except CompileError Chunk := do
  let layout ← p.lines.foldlM Layout.addLine .empty
  let code ← layout.instructions.foldlM (fun (code : Array UInt8) i => do
    return (← layout.resolve i).encode.foldl .push code) #[]
  let handlers ← p.handlers.mapM layout.resolveHandler
  return ⟨p.name, p.arity, p.slots, code, layout.tables.tags, layout.tables.constants, handlers⟩

end Program

/-- The packed code of a predicate with the given clauses. -/
def Chunk.ofClauses (tag : Tag) (clauses : List Clause) : EStateM CompileError Universe Chunk := do
  let program ← Program.ofClauses tag clauses
  match program.assemble with
  | .ok chunk => return chunk
  | .error e => throw e

end Resolvent
