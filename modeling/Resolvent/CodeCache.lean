import Resolvent.Callee
import Std.Data.TreeMap

/-!
# Remembered code

A `CodeCache` keeps the compiled code of predicates until they change, and counts how often it was
asked for code that it had and that it had not. A `CallSite` remembers what a call has led to, and
in which generation of the database, so that it is believed in that generation only.
-/

namespace Resolvent

/-- The compiled code of predicates. -/
structure CodeCache where
  /-- The code of each predicate, by the number of its tag. -/
  entries : Std.TreeMap Nat Code
  /-- How often code was found. -/
  hits : Nat
  /-- How often code was not found. -/
  misses : Nat

namespace CodeCache

/-- The cache that keeps nothing. -/
def empty : CodeCache := ⟨∅, 0, 0⟩

/-- How many predicates have code. -/
def size (c : CodeCache) : Nat :=
  c.entries.size

/-- Whether no predicate has code. -/
def isEmpty (c : CodeCache) : Bool :=
  c.entries.isEmpty

/-- The code of a predicate, the question counted. -/
def get (tag : Tag) (c : CodeCache) : Option Code × CodeCache :=
  match c.entries[tag.index]? with
  | some code => (some code, { c with hits := c.hits + 1 })
  | none => (none, { c with misses := c.misses + 1 })

/-- The predicate gets code. -/
def insert (tag : Tag) (code : Code) (c : CodeCache) : CodeCache :=
  { c with entries := c.entries.insert tag.index code }

/-- The predicate loses its code; the result tells whether it had any. -/
def evict (tag : Tag) (c : CodeCache) : Bool × CodeCache :=
  (c.entries.contains tag.index, { c with entries := c.entries.erase tag.index })

/-- All predicates lose their code. -/
def clear (c : CodeCache) : CodeCache :=
  { c with entries := ∅ }

end CodeCache

/-- What a call has led to. -/
structure CallSite where
  /-- The callee, and the generation in which it was found. -/
  known? : Option (Nat × Callee)

namespace CallSite

/-- The call site that has not been used. -/
def empty : CallSite := ⟨none⟩

/-- The callee, if it was found in the given generation. -/
def get? (s : CallSite) (generation : Nat) : Option Callee :=
  match s.known? with
  | some (found, callee) => if found = generation then some callee else none
  | none => none

/-- The call site remembers a callee. -/
def ofCallee (generation : Nat) (callee : Callee) : CallSite :=
  ⟨some (generation, callee)⟩

@[simp] theorem get?_empty (generation : Nat) : empty.get? generation = none := rfl

@[simp] theorem get?_ofCallee (found generation : Nat) (callee : Callee) :
    (ofCallee found callee).get? generation = if found = generation then some callee else none :=
  rfl

end CallSite

end Resolvent
