import Resolvent.Config
import Resolvent.Config.QuotedText

/-!
# Configuration documents

A document sets entries of a configuration, one on a line: a key, `=` and a value. Values are texts
in quotes, words, lists in brackets and tables in braces. A line with a name in brackets opens a
table, and the keys that follow belong to it; two brackets open one more table of a list of tables.
What stands behind `#` is a comment.

`Config.ofDocument?` reads a document. It refuses one that does not have this form, that names
something twice, or that gives an entry of a configuration a value of the wrong kind. Other keys are
allowed, and their values are ignored.
-/

namespace Resolvent

namespace Config

/-- What has been read of a document. -/
structure Document where
  /-- The names and values of the document. -/
  fields : Fields
  /-- The name of the table that was opened last. -/
  current : List String

namespace Document

open QuotedText (isPlain skipBlanks behindBreak?)

/-! ### Lines and keys -/

/-- The text behind a comment, if one stands first. -/
def skipComment : List Char → List Char
  | '#' :: cs => cs.dropWhile isPlain
  | cs => cs

/-- The text behind the end of a line, before which blanks and a comment may stand. -/
def skipLineEnd? (cs : List Char) : Option (List Char) :=
  match skipComment (skipBlanks cs) with
  | [] => some []
  | cs => behindBreak? cs

/-- Skips at most `n` line ends, with the blanks and comments around them. -/
def skipLines : Nat → List Char → List Char
  | 0, cs => cs
  | n + 1, cs =>
    match skipLineEnd? cs with
    | some [] => []
    | some rest => skipLines n rest
    | none => skipBlanks cs

/-- Whether a character may stand in a key without quotes. -/
def isKeyChar (c : Char) : Bool :=
  c.isAlphanum || c = '_' || c = '-'

/-- Reads a part of a key. -/
def readPart? : List Char → Option (String × List Char)
  | '"' :: cs => QuotedText.readShort? ('"' :: cs)
  | '\x27' :: cs => QuotedText.readShort? ('\x27' :: cs)
  | cs =>
    match cs.takeWhile isKeyChar with
    | [] => none
    | part => some (String.ofList part, cs.dropWhile isKeyChar)

/-- Reads a key with at most `n` parts, dots between them and blanks around them: all parts but the
last one, and the last one. -/
def readKey? : Nat → List Char → Option (List String × String × List Char)
  | 0, _ => none
  | n + 1, cs =>
    match readPart? (skipBlanks cs) with
    | none => none
    | some (part, cs) =>
      match skipBlanks cs with
      | '.' :: cs => (readKey? n cs).map fun (path, name, cs) => (part :: path, name, cs)
      | cs => some ([], part, cs)

/-- One more than the number of parts that a key may have, and than the number of lists and tables
that may stand in one another. -/
def nestingLimit : Nat := 80

/-! ### Values -/

mutual

/-- Reads a value, in which at most `depth` lists and tables stand in one another, in at most `n`
steps. -/
def readValue? : Nat → Nat → List Char → Option (Value × List Char)
  | 0, _, _ => none
  | _ + 1, _, '"' :: cs => (QuotedText.read? ('"' :: cs)).map fun (s, cs) => (.text s, cs)
  | _ + 1, _, '\x27' :: cs => (QuotedText.read? ('\x27' :: cs)).map fun (s, cs) => (.text s, cs)
  | _ + 1, 0, cs => Scalar.read? cs
  | n + 1, depth + 1, '[' :: cs =>
    (readItems? n depth true (skipLines n cs)).map fun (isEmpty, cs) => (.list isEmpty, cs)
  | n + 1, depth + 1, '\x7b' :: cs =>
    match skipBlanks cs with
    | '\x7d' :: cs => some (.table .braces [], cs)
    | cs => (readFields? n depth [] cs).map fun (fields, cs) => (.table .braces fields, cs)
  | _ + 1, _, cs => Scalar.read? cs

/-- Reads the items of a list and its closing bracket, and tells whether there are none. -/
def readItems? : Nat → Nat → Bool → List Char → Option (Bool × List Char)
  | 0, _, _, _ => none
  | _ + 1, _, isEmpty, ']' :: cs => some (isEmpty, cs)
  | n + 1, depth, _, cs =>
    match readValue? n depth cs with
    | none => none
    | some (_, cs) =>
      match skipLines n cs with
      | ',' :: cs => readItems? n depth false (skipLines n cs)
      | ']' :: cs => some (false, cs)
      | _ => none

/-- Reads the fields of a table behind those read before, and its closing brace. -/
def readFields? : Nat → Nat → Fields → List Char → Option (Fields × List Char)
  | 0, _, _, _ => none
  | n + 1, depth, fields, cs =>
    match readSetting? n depth fields cs with
    | none => none
    | some (fields, cs) =>
      match skipBlanks cs with
      | ',' :: cs => readFields? n depth fields cs
      | '\x7d' :: cs => some (fields, cs)
      | _ => none

/-- Reads a key, `=` and a value, and enters them into a table. -/
def readSetting? : Nat → Nat → Fields → List Char → Option (Fields × List Char)
  | 0, _, _, _ => none
  | n + 1, depth, fields, cs =>
    match readKey? (nestingLimit - 1) cs with
    | some (path, name, '=' :: cs) =>
      match readValue? n depth (skipBlanks cs) with
      | none => none
      | some (value, cs) => (Table.addEntry? path name value fields).map (·, cs)
    | _ => none

end

/-! ### Documents -/

/-- Opens a table by the line with its name. -/
def openTable? (d : Document) (path : List String) (name : String) : Option Document :=
  (Table.openTable? path name d.fields).map (⟨·, path ++ [name]⟩)

/-- Opens one more table of a list of tables. -/
def openListed? (d : Document) (path : List String) (name : String) : Option Document :=
  (Table.openListed? path name d.fields).map (⟨·, path ++ [name]⟩)

/-- Reads a line that opens a table, behind its first bracket. -/
def readHeader? (d : Document) : List Char → Option (Document × List Char)
  | '[' :: cs => do
    let (path, name, cs) ← readKey? (nestingLimit - 1) cs
    let cs ← Scalar.behind? ']' (← Scalar.behind? ']' cs)
    return (← d.openListed? path name, cs)
  | cs => do
    let (path, name, cs) ← readKey? (nestingLimit - 1) cs
    let cs ← Scalar.behind? ']' cs
    return (← d.openTable? path name, cs)

/-- Reads a line that sets a key of the table that was opened last, in at most `n` steps. -/
def readEntry? (n : Nat) (d : Document) (cs : List Char) : Option (Document × List Char) := do
  let (path, name, cs) ← readKey? (nestingLimit - 1) cs
  let (value, cs) ← readValue? n (nestingLimit - 1) (skipBlanks (← Scalar.behind? '=' cs))
  let addEntry := fun (_ : Origin) => Table.addEntry? path name value
  let fields ← Table.changeAt .implied addEntry d.current .header d.fields
  return ({ d with fields := fields }, cs)

/-- Reads the lines of a document, of which `d` has been read, `n` bounding their number and
length. -/
def readLines? : Nat → Document → List Char → Option Document
  | 0, _, _ => none
  | n + 1, d, cs =>
    match skipLineEnd? cs, skipBlanks cs with
    | some [], _ => some d
    | some cs, _ => readLines? n d cs
    | none, '[' :: cs => do
      let (d, cs) ← d.readHeader? cs
      readLines? n d (← skipLineEnd? cs)
    | none, cs => do
      let (d, cs) ← d.readEntry? n cs
      readLines? n d (← skipLineEnd? cs)

/-- Reads a document. A mark of the byte order in front of it is skipped. -/
def read? (source : String) : Option Document :=
  readLines? (source.length + 5) ⟨[], []⟩ <|
    match source.toList with
    | '\ufeff' :: cs => cs
    | cs => cs

/-! ### Entries of a configuration -/

/-- A limit, or else as it is. -/
def limit? (d : Document) (key : String) (old : Nat) : Option Nat :=
  match d.fields.lookup key with
  | none => some old
  | some (.integer n) => if 0 ≤ n then some n.toNat else none
  | some _ => none

/-- A switch, or else as it is. -/
def switch? (d : Document) (key : String) (old : Bool) : Option Bool :=
  match d.fields.lookup key with
  | none => some old
  | some (.boolean b) => some b
  | some _ => none

/-- A policy, or else as it is. A policy is named by a text, or by the only name in a table, which
then has nothing in it. -/
def policy? (d : Document) (key : String) (old : UnknownPolicy) : Option UnknownPolicy :=
  match d.fields.lookup key with
  | none => some old
  | some (.text name) => UnknownPolicy.ofName? name
  | some (.table _ [(name, value)]) => if value.isEmpty then UnknownPolicy.ofName? name else none
  | some _ => none

end Document

/-- The configuration that a document describes; what it does not set is as in the standard
configuration. -/
def ofDocument? (source : String) : Option Config := do
  let d ← Document.read? source
  let maxChoicePoints ← d.limit? "max_choice_points" standard.maxChoicePoints
  let maxCallDepth ← d.limit? "max_call_depth" standard.maxCallDepth
  let maxStackBytes ← d.limit? "max_stack_bytes" standard.maxStackBytes
  let maxOperands ← d.limit? "max_operand_stack" standard.maxOperands
  let trace ← d.switch? "trace" standard.trace
  let unknown ← d.policy? "unknown" standard.unknown
  return ⟨maxChoicePoints, maxCallDepth, maxStackBytes, maxOperands, trace, unknown⟩

end Config

end Resolvent
