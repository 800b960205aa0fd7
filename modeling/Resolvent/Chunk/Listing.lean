import Resolvent.Chunk
import Resolvent.Text.Render

/-!
# Listings of packed code

A listing names the chunk and its sizes, its handlers, and every instruction with its offset, in the
order of the code. Bytes that are no instruction are listed one by one.
-/

namespace Resolvent

namespace Chunk

/-- A number with at least four hexadecimal digits. -/
def hex4 (n : Nat) : String :=
  let digits := Nat.toDigits 16 n
  String.ofList (List.replicate (4 - digits.length) '0' ++ digits)

/-- The operand of an opcode at an offset as text. -/
def operandText (c : Chunk) (u : Universe) (op : Opcode) (offset : Nat) : String :=
  match op.operandSize with
  | 0 => ""
  | 2 =>
    let n := (c.read16? offset).getD 0
    let index := " #" ++ toString n.toNat ++ " ("
    if op.usesTag then index ++ (c.tags[n.toNat]?.map u.symbols.indicator).getD "???" ++ ")"
    else if op = .pushConstant then index ++ (c.constants[n.toNat]?.map u.render).getD "???" ++ ")"
    else " " ++ toString n.toNat
  | _ => " -> " ++ hex4 ((c.read32? offset).getD 0).toNat

/-- The instruction at an offset as text, and the offset behind it. -/
def instructionText (c : Chunk) (u : Universe) (offset : Nat) : String × Nat :=
  match c.opcode? offset with
  | some op => (op.mnemonic ++ c.operandText u op (offset + 1), offset + 1 + op.operandSize)
  | none => ("??? (0x" ++ Fault.hexByte (c.code[offset]?.getD 0) ++ ")", offset + 1)

theorem lt_instructionText (c : Chunk) (u : Universe) (offset : Nat) :
    offset < (c.instructionText u offset).2 := by
  unfold instructionText
  split <;> simp only <;> omega

/-- The instructions from an offset on, each on a line of its own, behind `out`. -/
def writeListing (c : Chunk) (u : Universe) (offset : Nat) (out : String) : String :=
  if offset < c.code.size then
    let line := (c.instructionText u offset).1
    writeListing c u (c.instructionText u offset).2 (out ++ hex4 offset ++ " " ++ line ++ "\n")
  else out
termination_by c.code.size - offset
decreasing_by have := c.lt_instructionText u offset; omega

/-- The listing of a chunk. -/
def listing (c : Chunk) (u : Universe) : String :=
  let title := "=== " ++ c.name ++ " ===\n"
  let sizes := "env: " ++ toString c.slots.toNat ++ ", arity: " ++ toString c.arity.toNat ++
    ", tags: " ++ toString c.tags.size ++ ", constants: " ++ toString c.constants.size ++ "\n"
  let handlers := c.handlers.foldl (fun out h =>
    out ++ "handler [" ++ hex4 h.start.toNat ++ ", " ++ hex4 h.stop.toNat ++ ") -> " ++
      hex4 h.target.toNat ++ " barrier=" ++ toString h.slot.toNat ++ "\n") (title ++ sizes)
  c.writeListing u 0 handlers

end Chunk

end Resolvent
