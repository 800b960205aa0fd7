import Resolvent.Trail

/-!
# Unification

`unifyInPlace` makes two terms equal by binding variables; a failed attempt leaves the bindings it
made, for a caller that undoes them itself. `unify` undoes them. Of two variables the younger is
bound to the older, so bindings between variables never go round in a circle; there is no check
whether a variable occurs in its own binding, so bindings to compounds may.

Unification of terms with such circles need not end. It is therefore given a number of steps, and
the answer is `none` if they do not suffice.
-/

namespace Resolvent

/-- Whether two constants unify: floats that are near each other do, all others only if equal. -/
def Constant.unifies : Constant → Constant → Bool
  | .float x, .float y => x.near y
  | c, d => c = d

/-- Unifies pairs of terms, first pair first, in at most `n` steps. -/
def unifyPairs {α : Type} : Nat → List (Term × Term) → Store → Trail α →
    Option Bool × Store × Trail α
  | 0, _, σ, τ => (none, σ, τ)
  | _, [], σ, τ => (some true, σ, τ)
  | n + 1, (s, t) :: rest, σ, τ =>
    match σ.deref s, σ.deref t with
    | .var v, .var w =>
      if v = w then unifyPairs n rest σ τ
      else
        let (σ, τ) := if w.id < v.id then τ.bind v (.var w) σ else τ.bind w (.var v) σ
        unifyPairs n rest σ τ
    | .var v, t =>
      let (σ, τ) := τ.bind v t σ
      unifyPairs n rest σ τ
    | s, .var w =>
      let (σ, τ) := τ.bind w s σ
      unifyPairs n rest σ τ
    | .const c, .const d => if c.unifies d then unifyPairs n rest σ τ else (some false, σ, τ)
    | .compound i f ss, .compound j g ts =>
      if i = j then unifyPairs n rest σ τ
      else if f = g then unifyPairs n (ss.zip ts ++ rest) σ τ
      else (some false, σ, τ)
    | .const _, .compound .. | .compound .., .const _ => (some false, σ, τ)

/-- Unifies two terms in at most `n` steps; a failed attempt leaves its bindings. -/
def unifyInPlace {α : Type} (n : Nat) (s t : Term) (σ : Store) (τ : Trail α) :
    Option Bool × Store × Trail α :=
  unifyPairs n [(s, t)] σ τ

/-- Unifies two terms in at most `n` steps; a failed attempt leaves nothing behind but the mark it
has taken. Actions on the trail stem from before the mark, so none is undone. -/
def unify {α : Type} (n : Nat) (s t : Term) (σ : Store) (τ : Trail α) :
    Option Bool × Store × Trail α :=
  let (m, τ) := τ.mark
  let (answer, σ, τ) := unifyInPlace n s t σ τ
  if answer = some false then
    let (σ, τ, _) := τ.undoTo m σ
    (some false, σ, τ)
  else (answer, σ, τ)

end Resolvent
