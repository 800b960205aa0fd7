import Resolvent.Chunk

/-!
# What calls lead to

A call leads to loaded code or to a predicate that is not given by clauses, a native one. Four
native predicates come with every database; the host may add others, which it tells apart by
numbers.
-/

namespace Resolvent

/-- A chunk that has been loaded. Every tag of the chunk has a call site, which remembers what a
call of the tag has led to; call sites are numbered through all loaded code. -/
structure Code where
  /-- The packed code. -/
  chunk : Chunk
  /-- The number of the call site of the first tag. -/
  firstSite : Nat

/-- The predicates that every database has without clauses for them. -/
inductive Builtin where
  /-- The integers of a range. -/
  | between
  /-- The list of the solutions of a goal. -/
  | findall
  /-- A goal, and another one to be run when it is finished. -/
  | callCleanup
  /-- The end of the run. -/
  | halt
deriving DecidableEq

/-- A predicate that is not given by clauses. -/
inductive Native where
  /-- One that every database has. -/
  | builtin (b : Builtin)
  /-- One of the host, by its number. -/
  | host (id : Nat)
deriving DecidableEq

/-- What a call leads to. -/
inductive Callee where
  /-- The code of clauses. -/
  | code (c : Code)
  /-- A predicate that is not given by clauses. -/
  | native (n : Native)

/-- A callee for diagnosis. -/
def Callee.inspect : Callee → String
  | .code c => "Compiled(" ++ c.chunk.name ++ ")"
  | .native _ => "Native"

end Resolvent
