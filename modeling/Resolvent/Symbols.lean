import Std.Data.TreeMap

/-!
# Symbols

Names are met once and from then on denoted by small numbers: an `Atom` is the position of a name
in a symbol table, a `Tag` the position of a name together with an arity. Positions are handed out
in order of first use and never change, so atoms are equal exactly when their names are, and tags
exactly when their names and arities are. Arities are words of 32 bits: a greater number is taken
modulo 2 ^ 32.

Every table starts from `Symbols.initial`, which knows the names of the control constructs; their
atoms and tags are the constants of `Atom` and `Tag` below.
-/

namespace Resolvent

/-- A name, denoted by its position in a symbol table. -/
structure Atom where
  /-- Position in the table. -/
  index : Nat
deriving DecidableEq, Inhabited

/-- A name with an arity, denoted by its position in a symbol table. -/
structure Tag where
  /-- Position in the table. -/
  index : Nat
deriving DecidableEq, Inhabited

/-- The order in which a symbol table files pairs of an atom and an arity. -/
def Symbols.pairOrder : Atom × UInt32 → Atom × UInt32 → Ordering :=
  compareLex (compareOn fun p => p.1.index) (compareOn fun p => p.2)

/-- A table of the names and tags met so far. -/
structure Symbols where
  /-- The name of each atom. -/
  names : Array String
  /-- The atom of each name. -/
  atoms : Std.TreeMap String Atom
  /-- The name and arity of each tag. -/
  pairs : Array (Atom × UInt32)
  /-- The tag of each name and arity. -/
  tags : Std.TreeMap (Atom × UInt32) Tag Symbols.pairOrder

namespace Symbols

/-- The table that knows no name. -/
def empty : Symbols := ⟨#[], ∅, #[], ∅⟩

/-- The atom of a name, entered into the table on first use. -/
def intern (name : String) (s : Symbols) : Atom × Symbols :=
  match s.atoms[name]? with
  | some a => (a, s)
  | none =>
    let a : Atom := ⟨s.names.size⟩
    (a, { s with names := s.names.push name, atoms := s.atoms.insert name a })

/-- The atom of a name, if the table knows it. -/
def lookup? (s : Symbols) (name : String) : Option Atom :=
  s.atoms[name]?

/-- The name of an atom; the empty text for a position outside the table. -/
def name (s : Symbols) (a : Atom) : String :=
  s.names[a.index]?.getD ""

/-- The tag of an atom and an arity, entered into the table on first use. -/
def tag (a : Atom) (arity : Nat) (s : Symbols) : Tag × Symbols :=
  let pair := (a, UInt32.ofNat arity)
  match s.tags[pair]? with
  | some t => (t, s)
  | none =>
    let t : Tag := ⟨s.pairs.size⟩
    (t, { s with pairs := s.pairs.push pair, tags := s.tags.insert pair t })

/-- The tag of a name and an arity, with the name entered first. -/
def tagNamed (name : String) (arity : Nat) (s : Symbols) : Tag × Symbols :=
  let (a, s) := s.intern name
  s.tag a arity

/-- The atom and the arity of a tag. -/
def parts (s : Symbols) (t : Tag) : Atom × Nat :=
  let (a, arity) := s.pairs[t.index]?.getD (⟨0⟩, 0)
  (a, arity.toNat)

/-- The name of a tag. -/
def tagName (s : Symbols) (t : Tag) : String :=
  s.name (s.parts t).1

/-- The arity of a tag. -/
def arity (s : Symbols) (t : Tag) : Nat :=
  (s.parts t).2

theorem arity_lt (s : Symbols) (t : Tag) : s.arity t < 0x100000000 :=
  UInt32.toNat_lt _

/-- A tag written as `name/arity`. -/
def indicator (s : Symbols) (t : Tag) : String :=
  s.tagName t ++ "/" ++ toString (s.arity t)

/-- How many names the table knows. -/
def atomCount (s : Symbols) : Nat :=
  s.names.size

/-- How many tags the table knows. -/
def tagCount (s : Symbols) : Nat :=
  s.pairs.size

end Symbols

/-! ### The symbols every table starts with -/

namespace Atom

/-- The empty list. -/
def nil : Atom := ⟨1⟩
/-- The goal `true`. -/
def trueGoal : Atom := ⟨2⟩
/-- The goal `fail`. -/
def failGoal : Atom := ⟨3⟩
/-- The goal `false`, which fails too. -/
def falseGoal : Atom := ⟨4⟩
/-- The goal `!`. -/
def cutGoal : Atom := ⟨5⟩
/-- The name given to a goal that is run on its own. -/
def query : Atom := ⟨23⟩
/-- The name given to a goal that another goal calls. -/
def metaCall : Atom := ⟨24⟩

end Atom

namespace Tag

/-- The greatest arity of `call`. -/
def maxCall : Nat := 8
/-- The tag of `call` with a goal and `extra` further arguments, for `extra < maxCall`. -/
def call (extra : Nat) : Tag := ⟨extra⟩
/-- The tag `,/2` of a conjunction. -/
def conj : Tag := ⟨12⟩
/-- The tag `;/2` of a disjunction. -/
def disj : Tag := ⟨13⟩
/-- The tag `->/2` of a commitment. -/
def arrow : Tag := ⟨14⟩
/-- The tag `\+/1` of a negation. -/
def negation : Tag := ⟨15⟩
/-- The tag `=/2` of an equation. -/
def equation : Tag := ⟨16⟩
/-- The tag `throw/1`. -/
def throwGoal : Tag := ⟨17⟩
/-- The tag `catch/3`. -/
def catchGoal : Tag := ⟨18⟩
/-- The tag `./2` of a list cell. -/
def cons : Tag := ⟨19⟩
/-- The tag `//2` of a predicate indicator. -/
def slash : Tag := ⟨20⟩
/-- The tag `error/2` of a raised error. -/
def error : Tag := ⟨21⟩

/-- The number of arguments that a call of this tag passes beyond the goal, if it is one of the
`call` tags. -/
def extraOfCall? (t : Tag) : Option Nat :=
  if t.index < maxCall then some t.index else none

/-- Whether the tag names a control construct, which has no clauses of its own: `call/1` to
`call/8`, `true`, `fail`, `false`, `!`, and the tags from `conj` to `catchGoal`. -/
def isControl (t : Tag) : Bool :=
  t.index < cons.index

end Tag

namespace Symbols

/-- The table that knows the names and tags of the control constructs, and the names used in the
errors they raise. -/
def initial : Symbols :=
  let calls := (List.range Tag.maxCall).foldl (fun s n => (s.tagNamed "call" (n + 1)).2) empty
  let named := ["[]", "true", "fail", "false", "!", "callable", "procedure", "integer", "list",
    "calls", "choice_points", "operand_stack"].foldl (fun s n => (s.intern n).2) calls
  let tagged := [("true", 0), ("fail", 0), ("false", 0), ("!", 0), (",", 2), (";", 2), ("->", 2),
    ("\\+", 1), ("=", 2), ("throw", 1), ("catch", 3), (".", 2), ("/", 2), ("error", 2)].foldl
      (fun s p => (s.tagNamed p.1 p.2).2) named
  ["$query", "$call"].foldl (fun s n => (s.intern n).2) tagged

example : initial.name .nil = "[]" ∧ initial.name .query = "$query" ∧
    initial.name .metaCall = "$call" := by decide +kernel

example : initial.indicator (.call 7) = "call/8" ∧ initial.indicator .conj = ",/2" ∧
    initial.indicator .catchGoal = "catch/3" ∧ initial.indicator .error = "error/2" := by
  decide +kernel

example : initial.atomCount = 25 ∧ initial.tagCount = 22 := by decide +kernel

end Symbols

end Resolvent
