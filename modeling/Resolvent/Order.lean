import Resolvent.Number
import Resolvent.Universe

/-!
# The standard order of terms

Variables come before numbers, then atoms, compounds and host values. Variables are ordered by age,
numbers by value with a float before an equal exact number, atoms by name, and compounds by arity,
name and arguments from left to right.
-/

namespace Resolvent

/-- Numbers by value, a float before an equal exact number. -/
def Number.standardOrder (a b : Number) : Ordering :=
  (a.order b).then (compare (!a.isFloat) (!b.isFloat))

/-- The place of a kind of constant in the standard order. -/
def Constant.rank : Constant → Nat
  | .int _ | .big _ | .rat _ | .float _ => 1
  | .atom _ => 2
  | .host _ => 4

/-- The place of a kind of term in the standard order. -/
def Term.rank : Term → Nat
  | .var _ => 0
  | .const c => c.rank
  | .compound .. => 3

namespace Constant

/-- The standard order of constants. -/
def order (symbols : Symbols) (c d : Constant) : Ordering :=
  match c, d with
  | .atom a, .atom b => compare (symbols.name a) (symbols.name b)
  | .host i, .host j => compare i j
  | c, d =>
    match Number.ofConstant? c, Number.ofConstant? d with
    | some a, some b => a.standardOrder b
    | _, _ => compare c.rank d.rank

end Constant

/-- The order of tags by arity and then by name. -/
def Tag.order (symbols : Symbols) (f g : Tag) : Ordering :=
  (compare (symbols.arity f) (symbols.arity g)).then
    (compare (symbols.tagName f) (symbols.tagName g))

namespace Store

/-- Reads at most `n` bindings one after the other; the number still allowed goes with the term. -/
def read (σ : Store) : Nat → Term → Nat × Term
  | n + 1, .var v =>
    match σ.value? v with
    | some t => read σ n t
    | none => (n + 1, .var v)
  | n, t => (n, t)

theorem weight_read_le (σ : Store) (n : Nat) (t : Term) :
    σ.weight (σ.read n t).1 (σ.read n t).2 ≤ σ.weight n t := by
  fun_induction read σ n t with
  | case1 n v t h ih => simp [weight_var_succ, h]; omega
  | case2 n v h => exact Nat.le_refl _
  | case3 n t => exact Nat.le_refl _

/-- A pair of terms to be compared, and how many bindings may be read on the way through the first
one. -/
structure Pair where
  /-- How many bindings may be read. -/
  budget : Nat
  /-- The first term. -/
  left : Term
  /-- The second term. -/
  right : Term

private theorem sum_weight_zip_le (σ : Store) (n : Nat) (ss ts : List Term) :
    total ((ss.zipWith (Pair.mk n) ts).map fun p => σ.weight p.budget p.left) ≤ σ.weightAll n ss := by
  induction ss generalizing ts with
  | nil => simp
  | cons s ss ih =>
    cases ts with
    | nil => simp
    | cons t ts => simpa using ih ts

/-- The order of the first pair whose terms differ. Compounds of one stamp are one structure. -/
def orderPairs (σ : Store) (symbols : Symbols) : List Pair → Ordering
  | [] => .eq
  | ⟨budget, left, right⟩ :: rest =>
    match _ : σ.read budget left, σ.deref right with
    | (_, .var v), .var w => (compare v.id w.id).then (orderPairs σ symbols rest)
    | (_, .const c), .const d => (c.order symbols d).then (orderPairs σ symbols rest)
    | (n, .compound s f ss), .compound t g ts =>
      if s = t then orderPairs σ symbols rest
      else
        match f.order symbols g with
        | .eq => orderPairs σ symbols (ss.zipWith (Pair.mk n) ts ++ rest)
        | o => o
    | (_, a), b => (compare a.rank b.rank).then (orderPairs σ symbols rest)
termination_by pairs => total (pairs.map fun p => σ.weight p.budget p.left)
decreasing_by
  · simpa using weight_pos σ budget left
  · simpa using weight_pos σ budget left
  · simpa using weight_pos σ budget left
  · have h := weight_read_le σ budget left
    have := sum_weight_zip_le σ n ss ts
    simp_all
    omega
  · simpa using weight_pos σ budget left

/-- How often a circle of bindings is gone round before the comparison gives up on it. -/
def circleAllowance : Nat := 0x100000000

/-- The standard order of terms. -/
def order (σ : Store) (symbols : Symbols) (s t : Term) : Ordering :=
  σ.orderPairs symbols [⟨σ.size + circleAllowance, s, t⟩]

end Store

end Resolvent
