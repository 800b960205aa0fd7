import Resolvent.Term

/-!
# Bindings of variables

A `Store` holds the binding of every variable made so far. `Store.deref` reads a term through the
bindings of variables to variables; `Store.resolve` reads it all the way down and gives the tree
that the term denotes.

The reading of a term through a store whose bindings go round in a circle is cut off after as many
bindings on one path as there are variables; without circles no path is that long.
-/

namespace Resolvent

/-- The bindings of all variables made so far, and the number of compounds built so far. -/
structure Store where
  /-- The binding of each variable, if it has one. -/
  bindings : Array (Option Term)
  /-- The stamp of the next compound. -/
  stamps : Nat
deriving Inhabited

namespace Store

/-- The store of no variables. -/
def empty : Store := ⟨#[], 0⟩

/-- How many variables there are. -/
def size (σ : Store) : Nat :=
  σ.bindings.size

/-- The binding of a variable, if it has one. -/
def value? (σ : Store) (v : Var) : Option Term :=
  σ.bindings[v.id]?.join

/-- The variable gets a binding. -/
def bind (v : Var) (t : Term) (σ : Store) : Store :=
  { σ with bindings := σ.bindings.setIfInBounds v.id (some t) }

/-- The variable loses its binding. -/
def unbind (v : Var) (σ : Store) : Store :=
  { σ with bindings := σ.bindings.setIfInBounds v.id none }

/-- Makes a variable. -/
def fresh (σ : Store) : Var × Store :=
  (⟨σ.size⟩, { σ with bindings := σ.bindings.push none })

/-- Builds a compound. -/
def compound (tag : Tag) (args : List Term) (σ : Store) : Term × Store :=
  (.compound σ.stamps tag args, { σ with stamps := σ.stamps + 1 })

/-! ### What the steps do to the bindings -/

@[simp] theorem size_bind (v : Var) (t : Term) (σ : Store) : (σ.bind v t).size = σ.size := by
  simp [bind, size]

@[simp] theorem size_unbind (v : Var) (σ : Store) : (σ.unbind v).size = σ.size := by
  simp [unbind, size]

@[simp] theorem size_fresh (σ : Store) : σ.fresh.2.size = σ.size + 1 := by
  simp [fresh, size]

@[simp] theorem size_compound (tag : Tag) (args : List Term) (σ : Store) :
    (σ.compound tag args).2.size = σ.size := rfl

theorem value?_bind (v w : Var) (t : Term) (σ : Store) :
    (σ.bind v t).value? w = if v = w ∧ v.id < σ.size then some t else σ.value? w := by
  obtain ⟨i⟩ := v
  obtain ⟨j⟩ := w
  by_cases h : i = j
  · subst h
    by_cases hi : i < σ.bindings.size <;> simp [value?, bind, size, hi]
  · simp [value?, bind, h, Array.getElem?_setIfInBounds_ne]

theorem value?_unbind (v w : Var) (σ : Store) :
    (σ.unbind v).value? w = if v = w then none else σ.value? w := by
  obtain ⟨i⟩ := v
  obtain ⟨j⟩ := w
  by_cases h : i = j
  · subst h
    by_cases hi : i < σ.bindings.size <;> simp [value?, unbind, hi]
  · simp [value?, unbind, h, Array.getElem?_setIfInBounds_ne]

@[simp] theorem value?_fresh (w : Var) (σ : Store) : σ.fresh.2.value? w = σ.value? w := by
  simp only [value?, fresh, Array.getElem?_push]
  split <;> simp_all

@[simp] theorem value?_compound (tag : Tag) (args : List Term) (w : Var) (σ : Store) :
    (σ.compound tag args).2.value? w = σ.value? w := rfl

/-- To unbind a variable that had no binding takes its binding back. -/
theorem unbind_bind (v : Var) (t : Term) (σ : Store) (h : σ.value? v = none) :
    (σ.bind v t).unbind v = σ := by
  obtain ⟨bindings, stamps⟩ := σ
  simp only [bind, unbind, Array.setIfInBounds_setIfInBounds, Store.mk.injEq, and_true]
  apply Array.ext_getElem?
  intro i
  rw [Array.getElem?_setIfInBounds]
  split
  · rename_i hi
    subst hi
    split
    · rename_i hv
      simpa [value?, hv] using h.symm
    · simp_all
  · rfl

/-! ### Reading bindings -/

/-- Reads at most `n` bindings of variables one after the other. -/
def derefWithin (σ : Store) : Nat → Term → Term
  | n + 1, .var v =>
    match σ.value? v with
    | some t => derefWithin σ n t
    | none => .var v
  | _, t => t

/-- Reads bindings until the term is an unbound variable or no variable. -/
def deref (σ : Store) (t : Term) : Term :=
  σ.derefWithin σ.size t

mutual

/-- The number of steps that the walk through a term takes, if `f` tells it for variables. -/
def weightWith (f : Var → Nat) : Term → Nat
  | .var v => f v
  | .const _ => 1
  | .compound _ _ args => weightAllWith f args + 2

/-- The number of steps that the walk through several terms takes, if `f` tells it for variables. -/
def weightAllWith (f : Var → Nat) : List Term → Nat
  | [] => 0
  | t :: ts => weightWith f t + weightAllWith f ts

end

/-- The number of steps that the walk through a variable takes, with at most `n` bindings read on one
path. -/
def weightVar (σ : Store) : Nat → Var → Nat
  | 0, _ => 1
  | n + 1, v =>
    match σ.value? v with
    | some t => weightWith (weightVar σ n) t + 1
    | none => 1

/-- The number of steps that the walk through a term takes, with at most `n` bindings read on one
path. -/
def weight (σ : Store) (n : Nat) (t : Term) : Nat :=
  weightWith (σ.weightVar n) t

/-- The number of steps that the walk through several terms takes. -/
def weightAll (σ : Store) (n : Nat) (ts : List Term) : Nat :=
  weightAllWith (σ.weightVar n) ts

@[simp] theorem weight_var_zero (σ : Store) (v : Var) : σ.weight 0 (.var v) = 1 := rfl

theorem weight_var_succ (σ : Store) (n : Nat) (v : Var) :
    σ.weight (n + 1) (.var v) = (σ.value? v).elim 1 fun t => σ.weight n t + 1 := by
  simp only [weight, weightWith, weightVar]
  cases σ.value? v <;> rfl

@[simp] theorem weight_const (σ : Store) (n : Nat) (c : Constant) : σ.weight n (.const c) = 1 := rfl

@[simp] theorem weight_compound (σ : Store) (n : Nat) (stamp : Nat) (tag : Tag) (args : List Term) :
    σ.weight n (.compound stamp tag args) = σ.weightAll n args + 2 := rfl

@[simp] theorem weightAll_nil (σ : Store) (n : Nat) : σ.weightAll n [] = 0 := rfl

@[simp] theorem weightAll_cons (σ : Store) (n : Nat) (t : Term) (ts : List Term) :
    σ.weightAll n (t :: ts) = σ.weight n t + σ.weightAll n ts := rfl

theorem weight_pos (σ : Store) (n : Nat) (t : Term) : 0 < σ.weight n t := by
  match n, t with
  | 0, .var v => simp
  | n + 1, .var v => rw [weight_var_succ]; cases σ.value? v <;> simp
  | n, .const c => simp
  | n, .compound stamp tag args => simp

/-- A step of the walk through a term: a term still to be walked, with the number of bindings that
may be read on the way, or a node to be written. -/
inductive Step where
  /-- Walk a term. -/
  | walk (n : Nat) (t : Term)
  /-- Write a functor whose arguments have been walked. -/
  | write (tag : Tag) (arity : Nat)

/-- The number of steps that a step leads to. -/
def Step.weight (σ : Store) : Step → Nat
  | .walk n t => σ.weight n t
  | .write .. => 1

private theorem sum_weight_walk (σ : Store) (n : Nat) (ts : List Term) :
    total (ts.map fun t => Step.weight σ (.walk n t)) = σ.weightAll n ts := by
  induction ts with
  | nil => simp
  | cons t ts ih => rw [List.map_cons, total_cons, ih, weightAll_cons, Step.weight]

/-- Writes the nodes of the terms to be walked in front of `written`, last node first. -/
def writeNodes (σ : Store) : List Step → List Node → List Node
  | [], written => written
  | .write tag arity :: rest, written => writeNodes σ rest (.functor tag arity :: written)
  | .walk 0 (.var v) :: rest, written => writeNodes σ rest (.var v :: written)
  | .walk (n + 1) (.var v) :: rest, written =>
    match _ : σ.value? v with
    | some t => writeNodes σ (.walk n t :: rest) written
    | none => writeNodes σ rest (.var v :: written)
  | .walk _ (.const c) :: rest, written => writeNodes σ rest (.const c :: written)
  | .walk n (.compound _ tag args) :: rest, written =>
    writeNodes σ (args.map (.walk n) ++ .write tag args.length :: rest) written
termination_by steps => total (steps.map (Step.weight σ))
decreasing_by
  · simp [Step.weight]
  · simp [Step.weight]
  · simp_all [Step.weight, weight_var_succ]
  · simp_all [Step.weight, weight_var_succ]
  · simp [Step.weight]
  · have := sum_weight_walk σ n args
    simp [Step.weight, Function.comp_def] at *
    omega

/-- The nodes of the tree that a term denotes, arguments from left to right before their functor. -/
def postorder (σ : Store) (t : Term) : List Node :=
  (σ.writeNodes [.walk σ.size t] []).reverse

/-- The tree that a term denotes. -/
def resolve (σ : Store) (t : Term) : Tree :=
  Tree.ofPostorder (σ.postorder t)

/-- The distinct unbound variables of a term, in order of first occurrence from the left. -/
def vars (σ : Store) (t : Term) : List Var :=
  Var.distinct ((σ.postorder t).filterMap Node.var?)

/-- The elements of a proper list, with at most `n` bindings read along its spine, behind those in
`found`, last element first. -/
def listItemsWithin (σ : Store) : Nat → Term → List Term → Option (List Term)
  | n + 1, .var v, found =>
    match σ.value? v with
    | some t => listItemsWithin σ n t found
    | none => none
  | n, .compound _ tag [head, tail], found =>
    if tag = .cons then listItemsWithin σ n tail (head :: found) else none
  | _, .const (.atom a), found => if a = .nil then some found.reverse else none
  | _, _, _ => none
termination_by n t => (n, sizeOf t)

/-- The elements of a proper list. -/
def listItems? (σ : Store) (t : Term) : Option (List Term) :=
  σ.listItemsWithin σ.size t []

/-! ### Copying -/

/-- The variables made for the variables of the terms copied so far, by the numbers of these. -/
abbrev Renaming := Std.TreeMap Nat Var

/-- Reads nodes onto a stack of terms, the last term read on top, with a new variable for every
variable that `ρ` does not know yet. -/
def copyNodes : List Node → List Term → Renaming → Store → List Term × Renaming × Store
  | [], stack, ρ, σ => (stack, ρ, σ)
  | .var v :: rest, stack, ρ, σ =>
    match ρ[v.id]? with
    | some w => copyNodes rest (.var w :: stack) ρ σ
    | none =>
      let (w, σ) := σ.fresh
      copyNodes rest (.var w :: stack) (ρ.insert v.id w) σ
  | .const c :: rest, stack, ρ, σ => copyNodes rest (.const c :: stack) ρ σ
  | .functor tag arity :: rest, stack, ρ, σ =>
    let (t, σ) := σ.compound tag (stack.take arity).reverse
    copyNodes rest (t :: stack.drop arity) ρ σ

/-- A copy of a term with all bindings read and its variables replaced by new ones; terms copied one
after the other with one renaming share the new variables of their common variables. -/
def copyWith (t : Term) (ρ : Renaming) (σ : Store) : Term × Renaming × Store :=
  let (stack, ρ, σ) := copyNodes (σ.postorder t) [] ρ σ
  (stack.headD (.atom .nil), ρ, σ)

/-- A copy of a term that no later binding can change. -/
def copy (t : Term) (σ : Store) : Term × Store :=
  let (t, _, σ) := σ.copyWith t ∅
  (t, σ)

/-- Reads nodes onto a stack of terms, the last term read on top, keeping the variables. -/
def buildNodes : List Node → List Term → Store → List Term × Store
  | [], stack, σ => (stack, σ)
  | .var v :: rest, stack, σ => buildNodes rest (.var v :: stack) σ
  | .const c :: rest, stack, σ => buildNodes rest (.const c :: stack) σ
  | .functor tag arity :: rest, stack, σ =>
    let (t, σ) := σ.compound tag (stack.take arity).reverse
    buildNodes rest (t :: stack.drop arity) σ

end Store

end Resolvent
