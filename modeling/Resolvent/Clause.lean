import Resolvent.Universe

/-!
# Clauses

A clause says that its head holds where its body does. It is stored as two terms, which are read
through the bindings of their variables whenever the clause is used.
-/

namespace Resolvent

/-- A head and the body it follows from. -/
structure Clause where
  /-- What holds. -/
  head : Term
  /-- Where it holds. -/
  body : Term

namespace Clause

/-- The tag of a term that is a rule. -/
def neck : StateM Universe Tag :=
  Universe.tagNamed ":-" 2

/-- A term `Head :- Body` as a clause; any other term is a fact, whose body is `true`. -/
def ofTerm (t : Term) : StateM Universe Clause := do
  let neck ← neck
  match ← Universe.deref t with
  | .compound _ tag [head, body] =>
    return if tag = neck then ⟨head, body⟩ else ⟨t, .atom .trueGoal⟩
  | _ => return ⟨t, .atom .trueGoal⟩

/-- The predicate that a clause belongs to, if its head can be called. -/
def predicate? (c : Clause) : StateM Universe (Option Tag) := do
  return (← Universe.callableParts? c.head).map (·.1)

/-- A copy of the clause as a term `Head :- Body`. -/
def toTerm (c : Clause) : StateM Universe Term := do
  let neck ← neck
  let (head, body) ← Universe.withStore fun σ =>
    let (head, ρ, σ) := σ.copyWith c.head ∅
    let (body, _, σ) := σ.copyWith c.body ρ
    ((head, body), σ)
  Universe.compound neck [head, body]

end Clause

end Resolvent
