import Mathlib.Tactic.IntervalCases
import Resolvent.Proofs.Acyclic
import Resolvent.Unify

/-!
# Unification computes most general unifiers

A substitution unifies pairs of terms if it makes the trees equal that the two terms of each pair denote
(`Store.Unifies`). Where there is one, unification succeeds, in as many steps as the trees have nodes that
the substitution makes of the first terms: every step takes some of them away. No step loses a unifier,
so the bindings made are a most general one (`Store.MostGeneral`), and none of them makes a circle, as a
variable would have to be larger than itself. So where unification fails there is no unifier.
`unifyInPlace_mostGeneral` puts this together, for terms without floats, which unify if they are near each
other.
-/

namespace Resolvent

namespace Tree

/-! ### Substitution -/

mutual

/-- The tree with trees in the place of its variables. -/
def subst (θ : Var → Tree) : Tree → Tree
  | .var v => θ v
  | .const c => .const c
  | .compound tag args => .compound tag (substAll θ args)

/-- The trees with trees in the place of their variables. -/
def substAll (θ : Var → Tree) : List Tree → List Tree
  | [] => []
  | t :: ts => subst θ t :: substAll θ ts

end

mutual

/-- The number of nodes of a tree. -/
def size : Tree → Nat
  | .var _ | .const _ => 1
  | .compound _ args => sizeAll args + 1

/-- The number of nodes of several trees. -/
def sizeAll : List Tree → Nat
  | [] => 0
  | t :: ts => size t + sizeAll ts

end

variable {θ : Var → Tree} {v : Var} {t : Tree} {ts : List Tree}

theorem substAll_eq_map (θ : Var → Tree) (ts : List Tree) : substAll θ ts = ts.map (subst θ) := by
  induction ts with
  | nil => rfl
  | cons t ts ih => rw [substAll, ih, List.map_cons]

theorem sizeAll_eq_total (ts : List Tree) : sizeAll ts = total (ts.map size) := by
  induction ts with
  | nil => rfl
  | cons t ts ih => rw [sizeAll, ih, List.map_cons, total_cons]

@[simp] theorem subst_var (θ : Var → Tree) (v : Var) : subst θ (.var v) = θ v := rfl

@[simp] theorem subst_const (θ : Var → Tree) (c : Constant) : subst θ (.const c) = .const c := rfl

@[simp] theorem subst_compound (θ : Var → Tree) (tag : Tag) (ts : List Tree) :
    subst θ (.compound tag ts) = .compound tag (ts.map (subst θ)) := by
  rw [subst, substAll_eq_map]

@[simp] theorem size_compound (tag : Tag) (ts : List Tree) :
    (compound tag ts).size = total (ts.map size) + 1 := by
  rw [size, sizeAll_eq_total]

theorem size_pos (t : Tree) : 0 < t.size := by
  cases t with
  | compound tag args => rw [size_compound]; exact Nat.succ_pos _
  | _ => exact Nat.one_pos

theorem size_le_total (ht : t ∈ ts) : t.size ≤ total (ts.map size) := by
  induction ts with
  | nil => cases ht
  | cons u ts ih =>
    rw [List.map_cons, total_cons]
    obtain rfl | ht := List.mem_cons.mp ht
    · exact Nat.le_add_right _ _
    · exact (ih ht).trans (Nat.le_add_left _ _)

/-- What is put in the place of a variable is no larger than the whole. -/
theorem Occurs.size_le (h : t.Occurs v) : (θ v).size ≤ (t.subst θ).size := by
  induction h with
  | var => exact Nat.le_refl _
  | compound ht _ ih =>
    rw [subst_compound, size_compound]
    exact ih.trans ((size_le_total (List.mem_map_of_mem ht)).trans (Nat.le_succ _))

/-- So it cannot be the whole, unless that is the variable. -/
theorem Occurs.ne_subst (h : t.Occurs v) (ht : t ≠ .var v) : θ v ≠ t.subst θ := by
  intro heq
  cases h with
  | var => exact ht rfl
  | compound hmem h =>
    have hle : (θ v).size ≤ _ := h.size_le
    have htotal := size_le_total (List.mem_map_of_mem (f := subst θ) hmem)
    rw [heq, subst_compound, size_compound] at hle
    omega

/-- There is no float in the tree. -/
inductive FloatFree : Tree → Prop
  | var (v : Var) : FloatFree (.var v)
  | const {c : Constant} (h : ∀ x, c ≠ .float x) : FloatFree (.const c)
  | compound {tag : Tag} {args : List Tree} (h : ∀ t ∈ args, FloatFree t) :
    FloatFree (.compound tag args)

end Tree

theorem Constant.unifies_self {c : Constant} (h : ∀ x, c ≠ .float x) : c.unifies c = true := by
  cases c with
  | float x => exact absurd rfl (h x)
  | _ => simp [Constant.unifies]

/-! ### Compounds that are built once -/

/-- What has been built. -/
structure Heap where
  /-- The compound of a stamp. -/
  content : Nat → Tag × List Term
  /-- How many arguments a tag has. -/
  arity : Tag → Nat

/-- The term has been built over the first `n` variables: compounds with one stamp are one structure, and
have as many arguments as their tag. -/
inductive Heap.Holds (h : Heap) (n : Nat) : Term → Prop
  | var {v : Var} (hv : v.id < n) : Holds h n (.var v)
  | const (c : Constant) : Holds h n (.const c)
  | compound {stamp : Nat} {tag : Tag} {args : List Term} (hstamp : h.content stamp = (tag, args))
    (harity : args.length = h.arity tag) (hargs : ∀ t ∈ args, Holds h n t) :
    Holds h n (.compound stamp tag args)

/-- The bindings of a store have been built over its variables. -/
def Heap.HoldsStore (h : Heap) (σ : Store) : Prop :=
  ∀ v t, σ.value? v = some t → h.Holds σ.size t

section Steps

variable {h : Heap} {σ σ' : Store} {θ : Var → Tree} {v : Var} {s t u : Term}
  {pairs pairs' rest : List (Term × Term)} {α : Type} {τ τ' : Trail α}

theorem Heap.HoldsStore.deref (hσ : h.HoldsStore σ) (ht : h.Holds σ.size t) :
    h.Holds σ.size (σ.deref t) := by
  have hwithin : ∀ (n : Nat) (t : Term), h.Holds σ.size t → h.Holds σ.size (σ.derefWithin n t) := by
    intro n
    induction n with
    | zero =>
      intro t ht
      cases t <;> simpa [Store.derefWithin] using ht
    | succ n ih =>
      intro t ht
      cases t with
      | var v =>
        cases hv : σ.value? v with
        | none => simpa [Store.derefWithin, hv] using ht
        | some t => simpa [Store.derefWithin, hv] using ih t (hσ v t hv)
      | _ => simpa [Store.derefWithin] using ht
  exact hwithin _ t ht

theorem Heap.HoldsStore.bind (hσ : h.HoldsStore σ) (ht : h.Holds σ.size t) (v : Var) :
    h.HoldsStore (σ.bind v t) := by
  intro w u hw
  rw [Store.value?_bind] at hw
  rw [Store.size_bind]
  split at hw
  · cases hw
    exact ht
  · exact hσ w u hw

/-! ### Unifiers -/

namespace Store

/-- The substitution makes the trees equal that the two terms of each pair denote. -/
def Unifies (σ : Store) (θ : Var → Tree) (pairs : List (Term × Term)) : Prop :=
  ∀ p ∈ pairs, (σ.resolve p.1).subst θ = (σ.resolve p.2).subst θ

/-- What has been bound between two stores is a most general unifier of the pairs. -/
structure MostGeneral (σ σ' : Store) (pairs : List (Term × Term)) : Prop where
  /-- No binding has been changed. -/
  grown : σ.Grown σ'
  /-- No circle has been made. -/
  acyclic : σ'.Acyclic
  /-- What has been bound is put in the place of variables. -/
  instances : ∀ t, (σ.resolve t).subst (fun v => σ'.resolve (.var v)) = σ'.resolve t
  /-- The two terms of each pair denote the same. -/
  identical : ∀ p ∈ pairs, σ'.resolve p.1 = σ'.resolve p.2
  /-- A unifier does after the bindings what it does before them. -/
  factors : ∀ θ, σ.Unifies θ pairs → ∀ t, (σ'.resolve t).subst θ = (σ.resolve t).subst θ

/-- Trees for which variables stand, read first and then put in their places. -/
theorem Grown.subst_resolve (hgrown : σ.Grown σ') (hσ : σ.Acyclic) (hσ' : σ'.Acyclic) (t : Term) :
    (σ.resolve t).subst (fun v => σ'.resolve (.var v)) = σ'.resolve t := by
  induction t using hσ.induction with
  | bound v t hv ih => rw [hσ.resolve_bound hv, ih, hσ'.resolve_bound (hgrown.value v t hv)]
  | unbound v hv => rw [resolve_unbound hv, Tree.subst_var]
  | const c => simp
  | compound stamp tag args ih =>
    rw [resolve_compound, resolve_compound, Tree.subst_compound, List.map_map]
    congr 1
    exact List.map_congr_left ih

/-- A unifier does not notice that a variable is bound to a term for which it puts the same. -/
theorem subst_resolve_bind (hσ : σ.Acyclic) (hσ' : (σ.bind v t).Acyclic) (hv : σ.value? v = none)
    (hθ : θ v = (σ.resolve t).subst θ) (s : Term) :
    ((σ.bind v t).resolve s).subst θ = (σ.resolve s).subst θ := by
  induction s using hσ'.induction with
  | bound w u hw ih =>
    rw [hσ'.resolve_bound hw, ih]
    rw [value?_bind] at hw
    split at hw
    · rename_i hvw
      obtain rfl := hvw.1
      cases hw
      rw [resolve_unbound hv, Tree.subst_var, hθ]
    · rw [hσ.resolve_bound hw]
  | unbound w hw =>
    rw [resolve_unbound hw]
    rw [value?_bind] at hw
    split at hw
    · cases hw
    · rw [resolve_unbound hw]
  | const c => simp
  | compound stamp tag args ih =>
    rw [resolve_compound, resolve_compound, Tree.subst_compound, Tree.subst_compound, List.map_map,
      List.map_map]
    congr 1
    exact List.map_congr_left ih

theorem floatFree_resolve_bind (hσ : σ.Acyclic) (hσ' : (σ.bind v t).Acyclic)
    (ht : (σ.resolve t).FloatFree) (s : Term) :
    (σ.resolve s).FloatFree → ((σ.bind v t).resolve s).FloatFree := by
  induction s using hσ'.induction with
  | bound w u hw ih =>
    intro hs
    rw [hσ'.resolve_bound hw]
    rw [value?_bind] at hw
    split at hw
    · cases hw
      exact ih ht
    · exact ih (hσ.resolve_bound hw ▸ hs)
  | unbound w hw =>
    intro _
    rw [resolve_unbound hw]
    exact .var w
  | const c => simp
  | compound stamp tag args ih =>
    rw [resolve_compound, resolve_compound]
    rintro (_ | _ | hs)
    refine .compound fun u hu => ?_
    obtain ⟨t, ht, rfl⟩ := List.mem_map.mp hu
    exact ih t ht (hs _ (List.mem_map_of_mem ht))

end Store

/-! ### One step -/

/-- One step of unification: the pairs that are left and what has been bound, unless the terms clash. -/
def unifyStep (s t : Term) (rest : List (Term × Term)) (σ : Store) (τ : Trail α) :
    Option (List (Term × Term) × Store × Trail α) :=
  match σ.deref s, σ.deref t with
  | .var v, .var w =>
    if v = w then some (rest, σ, τ)
    else some (rest, if w.id < v.id then τ.bind v (.var w) σ else τ.bind w (.var v) σ)
  | .var v, t => some (rest, τ.bind v t σ)
  | s, .var w => some (rest, τ.bind w s σ)
  | .const c, .const d => if c.unifies d then some (rest, σ, τ) else none
  | .compound i f ss, .compound j g ts =>
    if i = j then some (rest, σ, τ) else if f = g then some (ss.zip ts ++ rest, σ, τ) else none
  | .const _, .compound .. | .compound .., .const _ => none

theorem unifyPairs_cons (n : Nat) (s t : Term) (rest : List (Term × Term)) (σ : Store) (τ : Trail α) :
    unifyPairs (n + 1) ((s, t) :: rest) σ τ = (unifyStep s t rest σ τ).elim (some false, σ, τ)
      fun x => unifyPairs n x.1 x.2.1 x.2.2 := by
  rw [unifyPairs, unifyStep]
  generalize σ.deref s = s'
  generalize σ.deref t = t'
  cases s' with
  | var v =>
    cases t' with
    | var w =>
      simp only
      split
      · rfl
      · split <;> rfl
    | _ => rfl
  | const c =>
    cases t' with
    | const d =>
      simp only
      split <;> rfl
    | _ => rfl
  | compound i f ss =>
    cases t' with
    | compound j g ts =>
      simp only
      split
      · rfl
      · split <;> rfl
    | _ => rfl

/-- What a step does with two terms whose bindings have been read. -/
inductive Move (rest : List (Term × Term)) (σ : Store) (τ : Trail α) :
    Term → Term → Option (List (Term × Term) × Store × Trail α) → Prop
  | same (v : Var) : Move rest σ τ (.var v) (.var v) (some (rest, σ, τ))
  | left {v : Var} {t : Term} (ht : t ≠ .var v) : Move rest σ τ (.var v) t (some (rest, τ.bind v t σ))
  | right {v : Var} {s : Term} (hs : s ≠ .var v) : Move rest σ τ s (.var v) (some (rest, τ.bind v s σ))
  | constants {c d : Constant} (hcd : c.unifies d = true) :
    Move rest σ τ (.const c) (.const d) (some (rest, σ, τ))
  | shared (stamp : Nat) (f g : Tag) (ss ts : List Term) :
    Move rest σ τ (.compound stamp f ss) (.compound stamp g ts) (some (rest, σ, τ))
  | arguments (i j : Nat) (f : Tag) (ss ts : List Term) :
    Move rest σ τ (.compound i f ss) (.compound j f ts) (some (ss.zip ts ++ rest, σ, τ))
  | constantsClash {c d : Constant} (hcd : ¬ c.unifies d = true) :
    Move rest σ τ (.const c) (.const d) none
  | functorsClash (i j : Nat) {f g : Tag} (hfg : f ≠ g) (ss ts : List Term) :
    Move rest σ τ (.compound i f ss) (.compound j g ts) none
  | leftClash (c : Constant) (j : Nat) (g : Tag) (ts : List Term) :
    Move rest σ τ (.const c) (.compound j g ts) none
  | rightClash (i : Nat) (f : Tag) (ss : List Term) (d : Constant) :
    Move rest σ τ (.compound i f ss) (.const d) none

theorem move_unifyStep (s t : Term) (rest : List (Term × Term)) (σ : Store) (τ : Trail α) :
    Move rest σ τ (σ.deref s) (σ.deref t) (unifyStep s t rest σ τ) := by
  unfold unifyStep
  generalize σ.deref s = s'
  generalize σ.deref t = t'
  split
  · split
    · rename_i heq
      cases heq
      exact .same _
    · rename_i v w hne
      split
      · exact .left fun h => hne (by cases h; rfl)
      · exact .right fun h => hne (by cases h; rfl)
  · rename_i v ht
    exact .left (ht v)
  · rename_i w hs
    exact .right (hs w)
  · split
    · exact .constants ‹_›
    · exact .constantsClash ‹_›
  · split
    · rename_i heq
      cases heq
      exact .shared _ _ _ _ _
    · split
      · rename_i heq
        cases heq
        exact .arguments _ _ _ _ _
      · exact .functorsClash _ _ ‹_› _ _
  · exact .leftClash _ _ _ _
  · exact .rightClash _ _ _ _

/-- Unification does nothing to a store but bind variables. -/
theorem unifyPairs_of_bind {β : Type} {f : Store → β} (hf : ∀ v t σ, f (σ.bind v t) = f σ) :
    ∀ (n : Nat) (pairs : List (Term × Term)) (σ : Store) (τ : Trail α),
      f (unifyPairs n pairs σ τ).2.1 = f σ
  | 0, _, _, _ => rfl
  | _ + 1, [], _, _ => rfl
  | n + 1, (s, t) :: rest, σ, τ => by
    rw [unifyPairs_cons]
    have hmove := move_unifyStep s t rest σ τ
    generalize σ.deref s = a at hmove
    generalize σ.deref t = b at hmove
    generalize unifyStep s t rest σ τ = x at hmove
    cases hmove with
    | constantsClash | functorsClash | leftClash | rightClash => rfl
    | left | right => exact (unifyPairs_of_bind hf n _ _ _).trans (hf _ _ _)
    | _ => exact unifyPairs_of_bind hf n _ _ _

/-! ### What a step does -/

/-- What unification may be asked: the store has no circles, and the terms and bindings have been built
over its variables, the terms without floats. -/
structure Heap.Asks (h : Heap) (σ : Store) (pairs : List (Term × Term)) : Prop where
  /-- No binding leads back to its variable. -/
  acyclic : σ.Acyclic
  /-- The bindings have been built. -/
  store : h.HoldsStore σ
  /-- The terms have been built. -/
  terms : ∀ p ∈ pairs, h.Holds σ.size p.1 ∧ h.Holds σ.size p.2
  /-- There is no float in what they denote. -/
  floatFree : ∀ p ∈ pairs, (σ.resolve p.1).FloatFree ∧ (σ.resolve p.2).FloatFree

/-- How many nodes a substitution makes of the first terms of pairs. -/
def Store.nodesMade (σ : Store) (θ : Var → Tree) (pairs : List (Term × Term)) : Nat :=
  total (pairs.map fun p => ((σ.resolve p.1).subst θ).size)

/-- A step that a unifier takes part in: it leaves pairs that have the same unifiers, with fewer nodes. -/
structure Advances (h : Heap) (θ : Var → Tree) (σ : Store) (pairs : List (Term × Term)) (σ' : Store)
    (pairs' : List (Term × Term)) : Prop where
  /-- Unification may be asked what is left. -/
  asks : h.Asks σ' pairs'
  /-- Bindings are kept. -/
  grown : σ.Grown σ'
  /-- Unifiers are kept, and do not notice what has been bound. -/
  unifiers : ∀ θ, σ.Unifies θ pairs →
    σ'.Unifies θ pairs' ∧ ∀ t, (σ'.resolve t).subst θ = (σ.resolve t).subst θ
  /-- Fewer nodes are left. -/
  nodesMade : σ'.nodesMade θ pairs' < σ.nodesMade θ pairs
  /-- What makes equal what is left makes all equal. -/
  identical : ∀ ρ, σ'.Grown ρ → ρ.Acyclic → (∀ p ∈ pairs', ρ.resolve p.1 = ρ.resolve p.2) →
    ∀ p ∈ pairs, ρ.resolve p.1 = ρ.resolve p.2

/-- A step that only takes away the first pair. -/
theorem advances_rest (hask : h.Asks σ ((s, t) :: rest))
    (hst : ∀ ρ, σ.Grown ρ → ρ.Acyclic → ρ.resolve s = ρ.resolve t) :
    Advances h θ σ ((s, t) :: rest) σ rest where
  asks := {
    acyclic := hask.acyclic
    store := hask.store
    terms := fun p hp => hask.terms p (List.mem_cons_of_mem _ hp)
    floatFree := fun p hp => hask.floatFree p (List.mem_cons_of_mem _ hp) }
  grown := .refl σ
  unifiers := fun θ hθ => ⟨fun p hp => hθ p (List.mem_cons_of_mem _ hp), fun _ => rfl⟩
  nodesMade := by
    have := ((σ.resolve s).subst θ).size_pos
    simp only [Store.nodesMade, List.map_cons, total_cons]
    omega
  identical := fun ρ hρ hacyclic hrest => List.forall_mem_cons.mpr ⟨hst ρ hρ hacyclic, hrest⟩

/-- A step that binds a variable. -/
theorem advances_bind (hask : h.Asks σ ((s, t) :: rest)) (hv : σ.value? v = none)
    (hu : h.Holds σ.size u) (hfree : (σ.resolve u).FloatFree) (hne : σ.resolve u ≠ .var v)
    (hunify : ∀ θ, σ.Unifies θ ((s, t) :: rest) → θ v = (σ.resolve u).subst θ)
    (hst : ∀ ρ, σ.Grown ρ → ρ.Acyclic → ρ.resolve (.var v) = ρ.resolve u →
      ρ.resolve s = ρ.resolve t) (hsize : v.id < σ.size) (hθ : σ.Unifies θ ((s, t) :: rest)) :
    Advances h θ σ ((s, t) :: rest) (σ.bind v u) rest := by
  have hgrown := Store.Grown.bind hv u
  have hacyclic : (σ.bind v u).Acyclic :=
    hask.acyclic.bind hv fun hoccurs => hoccurs.ne_subst hne (hunify θ hθ)
  have hsubst (θ : Var → Tree) (hθ : σ.Unifies θ ((s, t) :: rest)) (t : Term) :=
    Store.subst_resolve_bind hask.acyclic hacyclic hv (hunify θ hθ) t
  refine ⟨⟨hacyclic, hask.store.bind hu v, fun p hp => ?_, fun p hp => ?_⟩, hgrown,
    fun θ hθ => ⟨fun p hp => ?_, hsubst θ hθ⟩, ?_, fun ρ hρ hρacyclic hrest => ?_⟩
  · rw [Store.size_bind]
    exact hask.terms p (List.mem_cons_of_mem _ hp)
  · obtain ⟨h₁, h₂⟩ := hask.floatFree p (List.mem_cons_of_mem _ hp)
    exact ⟨Store.floatFree_resolve_bind hask.acyclic hacyclic hfree _ h₁,
      Store.floatFree_resolve_bind hask.acyclic hacyclic hfree _ h₂⟩
  · rw [hsubst θ hθ, hsubst θ hθ]
    exact hθ p (List.mem_cons_of_mem _ hp)
  · have := ((σ.resolve s).subst θ).size_pos
    simp only [Store.nodesMade, List.map_cons, total_cons, hsubst θ hθ]
    omega
  · have hbound : ρ.value? v = some u := by
      refine hρ.value v u ?_
      rw [Store.value?_bind, if_pos ⟨rfl, hsize⟩]
    exact List.forall_mem_cons.mpr
      ⟨hst ρ (hgrown.trans hρ) hρacyclic (hρacyclic.resolve_bound hbound), hrest⟩

theorem map_eq_of_zip {f : Term → Tree} : ∀ {ss ts : List Term}, ss.length = ts.length →
    (∀ p ∈ ss.zip ts, f p.1 = f p.2) → ss.map f = ts.map f
  | [], [], _, _ => rfl
  | s :: ss, t :: ts, hlen, h => by
    rw [List.zip_cons_cons, List.forall_mem_cons] at h
    rw [List.map_cons, List.map_cons, h.1, map_eq_of_zip (Nat.succ.inj hlen) h.2]

theorem eq_of_map_eq {f : Term → Tree} : ∀ {ss ts : List Term}, ss.map f = ts.map f →
    ∀ p ∈ ss.zip ts, f p.1 = f p.2
  | [], _, _, p, hp => by cases hp
  | _ :: _, [], h, _, _ => by cases h
  | s :: ss, t :: ts, h, p, hp => by
    rw [List.map_cons, List.map_cons, List.cons.injEq] at h
    rw [List.zip_cons_cons, List.mem_cons] at hp
    obtain rfl | hp := hp
    · exact h.1
    · exact eq_of_map_eq h.2 p hp

/-- A step that puts pairs of arguments in the place of a pair of compounds. -/
theorem advances_arguments {i j : Nat} {f : Tag} {ss ts : List Term} (hask : h.Asks σ ((s, t) :: rest))
    (hs : ∀ ρ, σ.Grown ρ → ρ.Acyclic → ρ.resolve (.compound i f ss) = ρ.resolve s)
    (ht : ∀ ρ, σ.Grown ρ → ρ.Acyclic → ρ.resolve (.compound j f ts) = ρ.resolve t)
    (hss : h.Holds σ.size (.compound i f ss)) (hts : h.Holds σ.size (.compound j f ts)) :
    Advances h θ σ ((s, t) :: rest) σ (ss.zip ts ++ rest) := by
  have hσs := hs σ (.refl σ) hask.acyclic
  have hσt := ht σ (.refl σ) hask.acyclic
  obtain ⟨hsfree, htfree⟩ := hask.floatFree (s, t) List.mem_cons_self
  rw [← hσs, Store.resolve_compound] at hsfree
  rw [← hσt, Store.resolve_compound] at htfree
  cases hss with | compound _ hslen hsargs =>
  cases hts with | compound _ htlen htargs =>
  cases hsfree with | compound hsfree =>
  cases htfree with | compound htfree =>
  have hlen : ss.length = ts.length := hslen.trans htlen.symm
  have hzip {p : Term × Term} (hp : p ∈ ss.zip ts) : p.1 ∈ ss ∧ p.2 ∈ ts := List.of_mem_zip hp
  refine ⟨⟨hask.acyclic, hask.store, fun p hp => ?_, fun p hp => ?_⟩, .refl σ,
    fun θ hθ => ⟨fun p hp => ?_, fun _ => rfl⟩, ?_, fun ρ hρ hacyclic hall => ?_⟩
  · obtain hp | hp := List.mem_append.mp hp
    · exact ⟨hsargs _ (hzip hp).1, htargs _ (hzip hp).2⟩
    · exact hask.terms p (List.mem_cons_of_mem _ hp)
  · obtain hp | hp := List.mem_append.mp hp
    · exact ⟨hsfree _ (List.mem_map_of_mem (hzip hp).1), htfree _ (List.mem_map_of_mem (hzip hp).2)⟩
    · exact hask.floatFree p (List.mem_cons_of_mem _ hp)
  · obtain hp | hp := List.mem_append.mp hp
    · have heq := hθ (s, t) List.mem_cons_self
      rw [← hσs, ← hσt, Store.resolve_compound, Store.resolve_compound, Tree.subst_compound,
        Tree.subst_compound, Tree.compound.injEq, List.map_map, List.map_map] at heq
      exact eq_of_map_eq heq.2 p hp
    · exact hθ p (List.mem_cons_of_mem _ hp)
  · -- the arguments have all the nodes of the compound but one
    have hfirst : (ss.zip ts).map (fun p => ((σ.resolve p.1).subst θ).size) =
        ss.map fun u => ((σ.resolve u).subst θ).size := by
      conv_rhs => rw [← List.map_fst_zip hlen.le, List.map_map]
      rfl
    simp only [Store.nodesMade, List.map_append, total_append, List.map_cons, total_cons, hfirst, ← hσs,
      Store.resolve_compound, Tree.subst_compound, Tree.size_compound, List.map_map]
    exact Nat.add_lt_add_right (Nat.lt_succ_self _) _
  · rw [List.forall_mem_append] at hall
    refine List.forall_mem_cons.mpr ⟨?_, hall.2⟩
    rw [← hs ρ hρ hacyclic, ← ht ρ hρ hacyclic, Store.resolve_compound, Store.resolve_compound,
      map_eq_of_zip hlen hall.1]

/-- The step that unification takes advances every unifier. -/
theorem advances_unifyStep (hask : h.Asks σ ((s, t) :: rest)) (hθ : σ.Unifies θ ((s, t) :: rest))
    (τ : Trail α) : ∃ σ' τ' pairs', unifyStep s t rest σ τ = some (pairs', σ', τ') ∧
      Advances h θ σ ((s, t) :: rest) σ' pairs' := by
  have hmove := move_unifyStep s t rest σ τ
  have hs (ρ : Store) (hρ : σ.Grown ρ) (hacyclic : ρ.Acyclic) := hρ.resolve_deref hacyclic s
  have ht (ρ : Store) (hρ : σ.Grown ρ) (hacyclic : ρ.Acyclic) := hρ.resolve_deref hacyclic t
  have hσs := hs σ (.refl σ) hask.acyclic
  have hσt := ht σ (.refl σ) hask.acyclic
  have heq (θ : Var → Tree) (hθ : σ.Unifies θ ((s, t) :: rest)) := hθ (s, t) List.mem_cons_self
  have hheld := hask.terms (s, t) List.mem_cons_self
  have hfree := hask.floatFree (s, t) List.mem_cons_self
  have hsheld := hask.store.deref hheld.1
  have htheld := hask.store.deref hheld.2
  have hsroot (v : Var) (hv : σ.deref s = .var v) := hask.acyclic.rooted.value?_of_deref hv
  have htroot (v : Var) (hv : σ.deref t = .var v) := hask.acyclic.rooted.value?_of_deref hv
  simp only [← hσs, ← hσt] at heq hfree
  clear hσs hσt hheld
  generalize σ.deref s = s' at *
  generalize σ.deref t = t' at *
  generalize unifyStep s t rest σ τ = x at *
  -- a variable that is not the other term is not what the other term denotes
  have hne {v : Var} {u : Term} (hu : u ≠ .var v) (hroot : ∀ w, u = .var w → σ.value? w = none) :
      σ.resolve u ≠ .var v := by
    cases u with
    | var w =>
      rw [Store.resolve_unbound (hroot w rfl)]
      exact fun heq => hu (by cases heq; rfl)
    | const c => simp
    | compound stamp tag args => simp
  cases hmove with
  | same v =>
    exact ⟨_, _, _, rfl, advances_rest hask fun ρ hρ ha => by rw [← hs ρ hρ ha, ← ht ρ hρ ha]⟩
  | @left v u hu =>
    cases hsheld with | var hsize =>
    refine ⟨_, _, _, rfl, advances_bind hask (hsroot v rfl) htheld hfree.2 (hne hu htroot) (fun θ hθ => ?_)
      (fun ρ hρ ha hvu => by rw [← hs ρ hρ ha, ← ht ρ hρ ha, hvu]) hsize hθ⟩
    rw [← heq θ hθ, Store.resolve_unbound (hsroot v rfl), Tree.subst_var]
  | @right v u hu =>
    cases htheld with | var hsize =>
    refine ⟨_, _, _, rfl, advances_bind hask (htroot v rfl) hsheld hfree.1 (hne hu hsroot) (fun θ hθ => ?_)
      (fun ρ hρ ha hvu => by rw [← hs ρ hρ ha, ← ht ρ hρ ha, hvu]) hsize hθ⟩
    rw [heq θ hθ, Store.resolve_unbound (htroot v rfl), Tree.subst_var]
  | @constants c d hcd =>
    have hconst := heq θ hθ
    simp only [Store.resolve_const, Tree.subst_const, Tree.const.injEq] at hconst
    subst hconst
    exact ⟨_, _, _, rfl, advances_rest hask fun ρ hρ ha => by rw [← hs ρ hρ ha, ← ht ρ hρ ha]⟩
  | shared stamp f g ss ts =>
    cases hsheld with | compound hsstamp =>
    cases htheld with | compound htstamp =>
    obtain ⟨rfl, rfl⟩ := Prod.mk.inj (hsstamp.symm.trans htstamp)
    exact ⟨_, _, _, rfl, advances_rest hask fun ρ hρ ha => by rw [← hs ρ hρ ha, ← ht ρ hρ ha]⟩
  | arguments i j f ss ts => exact ⟨_, _, _, rfl, advances_arguments hask hs ht hsheld htheld⟩
  | @constantsClash c d hcd =>
    have hconst := heq θ hθ
    simp only [Store.resolve_const, Tree.subst_const, Tree.const.injEq] at hconst
    subst hconst
    have hc := hfree.1
    rw [Store.resolve_const] at hc
    cases hc with | const hc => exact absurd (Constant.unifies_self hc) hcd
  | functorsClash i j hfg ss ts =>
    have hcompound := heq θ hθ
    simp only [Store.resolve_compound, Tree.subst_compound, Tree.compound.injEq] at hcompound
    exact absurd hcompound.1 hfg
  | leftClash c j g ts => simpa using heq θ hθ
  | rightClash i f ss d => simpa using heq θ hθ

/-! ### All steps -/

/-- Where there is a unifier, unification succeeds, and what it binds is a most general one. -/
theorem exists_mostGeneral (hask : h.Asks σ pairs) (hθ : σ.Unifies θ pairs) (τ : Trail α) :
    ∃ σ' τ', (∀ n, σ.nodesMade θ pairs < n → unifyPairs n pairs σ τ = (some true, σ', τ')) ∧
      σ.MostGeneral σ' pairs := by
  generalize hm : σ.nodesMade θ pairs = m
  induction m using Nat.strong_induction_on generalizing σ τ pairs with | h m ih =>
  subst hm
  match pairs with
  | [] =>
    refine ⟨σ, τ, fun n hn => ?_, .refl σ, hask.acyclic, (Store.Grown.refl σ).subst_resolve hask.acyclic
      hask.acyclic, (by simp), fun _ _ _ => rfl⟩
    obtain ⟨n, rfl⟩ : ∃ k, n = k + 1 := ⟨n - 1, by omega⟩
    rfl
  | (s, t) :: rest =>
    obtain ⟨σ₁, τ₁, pairs₁, hstep, hadvance⟩ := advances_unifyStep hask hθ τ
    obtain ⟨hθ₁, -⟩ := hadvance.unifiers θ hθ
    obtain ⟨σ', τ', hrun, hmost⟩ := ih _ hadvance.nodesMade hadvance.asks hθ₁ τ₁ rfl
    have hgrown := hadvance.grown.trans hmost.grown
    refine ⟨σ', τ', fun n hn => ?_, hgrown, hmost.acyclic, hgrown.subst_resolve hask.acyclic hmost.acyclic,
      hadvance.identical σ' hmost.grown hmost.acyclic hmost.identical, fun θ hθ t => ?_⟩
    · obtain ⟨n, rfl⟩ : ∃ k, n = k + 1 := ⟨n - 1, by omega⟩
      rw [unifyPairs_cons, hstep]
      exact hrun n (by have := hadvance.nodesMade; omega)
    · obtain ⟨hθ₁, hsubst⟩ := hadvance.unifiers θ hθ
      rw [hmost.factors θ hθ₁, hsubst]

/-- An answer found in some steps is found in more. -/
theorem unifyPairs_of_le {b : Bool} {r : Store × Trail α} : ∀ {n m : Nat}, n ≤ m →
    ∀ {pairs : List (Term × Term)} {σ : Store} {τ : Trail α},
      unifyPairs n pairs σ τ = (some b, r) → unifyPairs m pairs σ τ = (some b, r)
  | 0, _, _, pairs, σ, τ, hrun => by cases hrun
  | n + 1, m, hle, pairs, σ, τ, hrun => by
    obtain ⟨m, rfl⟩ : ∃ k, m = k + 1 := ⟨m - 1, by omega⟩
    match pairs with
    | [] => exact hrun
    | (s, t) :: rest =>
      rw [unifyPairs_cons] at hrun ⊢
      cases hstep : unifyStep s t rest σ τ with
      | none => rwa [hstep] at hrun
      | some x =>
        rw [hstep] at hrun
        exact unifyPairs_of_le (Nat.le_of_succ_le_succ hle) hrun

/-- A step keeps all bindings, and the reading of variables still ends. -/
theorem grown_of_unifyStep (hσ : σ.Rooted) (hstep : unifyStep s t rest σ τ = some (pairs', σ', τ')) :
    σ.Grown σ' ∧ σ'.Rooted := by
  have hmove := move_unifyStep s t rest σ τ
  have hsroot (v : Var) (hv : σ.deref s = .var v) := hσ.value?_of_deref hv
  have htroot (v : Var) (hv : σ.deref t = .var v) := hσ.value?_of_deref hv
  rw [hstep] at hmove
  generalize σ.deref s = s' at *
  generalize σ.deref t = t' at *
  cases hmove with
  | @left v u hu =>
    exact ⟨.bind (hsroot v rfl) _, hσ.bind fun w hw => ⟨fun h => hu (h ▸ hw), htroot w hw⟩⟩
  | @right v u hu =>
    exact ⟨.bind (htroot v rfl) _, hσ.bind fun w hw => ⟨fun h => hu (h ▸ hw), hsroot w hw⟩⟩
  | _ => exact ⟨.refl σ, hσ⟩

/-- Whatever unification answers, all bindings are kept. -/
theorem grown_unifyPairs : ∀ (n : Nat) {pairs : List (Term × Term)} {σ : Store} (τ : Trail α), σ.Rooted →
    σ.Grown (unifyPairs n pairs σ τ).2.1
  | 0, _, σ, _, _ => .refl σ
  | _ + 1, [], σ, _, _ => .refl σ
  | n + 1, (s, t) :: rest, σ, τ, hσ => by
    rw [unifyPairs_cons]
    cases hstep : unifyStep s t rest σ τ with
    | none => exact .refl σ
    | some x =>
      obtain ⟨hgrown, hrooted⟩ := grown_of_unifyStep hσ hstep
      exact hgrown.trans (grown_unifyPairs n _ hrooted)

/-- Two terms without floats that have a unifier are unified, in all numbers of steps that are large
enough, and by a most general unifier that makes no circle. Where the answer is that they cannot be
unified, there is no unifier. Whatever the answer, bindings are kept. -/
theorem unifyInPlace_mostGeneral (hask : h.Asks σ [(s, t)]) (τ : Trail α) :
    ((∃ θ, σ.Unifies θ [(s, t)]) → ∃ σ' τ' m, (∀ n, m < n →
      unifyInPlace n s t σ τ = (some true, σ', τ')) ∧ σ.MostGeneral σ' [(s, t)]) ∧
    (∀ n, (unifyInPlace n s t σ τ).1 = some false → ∀ θ, ¬ σ.Unifies θ [(s, t)]) ∧
    ∀ n, σ.Grown (unifyInPlace n s t σ τ).2.1 := by
  refine ⟨fun hunifier => ?_, fun n hn θ hθ => ?_, fun n => grown_unifyPairs n τ hask.acyclic.rooted⟩
  · obtain ⟨θ, hθ⟩ := hunifier
    obtain ⟨σ', τ', hrun, hmost⟩ := exists_mostGeneral hask hθ τ
    exact ⟨σ', τ', _, hrun, hmost⟩
  · obtain ⟨σ', τ', hrun, -⟩ := exists_mostGeneral hask hθ τ
    -- with enough steps the answer would be both
    have hfalse := unifyPairs_of_le (m := n + σ.nodesMade θ [(s, t)] + 1) (by omega)
      (Prod.ext hn rfl : unifyPairs n [(s, t)] σ τ = (some false, (unifyPairs n [(s, t)] σ τ).2))
    rw [hrun _ (by omega)] at hfalse
    cases hfalse

end Steps

/-- Three variables of which the second is bound to a compound of the first. -/
def sampleBindings : Store :=
  ⟨#[none, some (.compound 0 ⟨0⟩ [.var ⟨0⟩]), none], 4⟩

/-- A pair of compounds, one with all three variables in it. -/
def samplePair : Term × Term :=
  (.compound 1 ⟨1⟩ [.var ⟨2⟩, .var ⟨1⟩], .compound 3 ⟨1⟩ [.compound 2 ⟨0⟩ [.const (.int 7)], .var ⟨2⟩])

/-- The compounds of the pair and the binding. -/
def sampleHeap : Heap where
  content stamp := [(⟨0⟩, [.var ⟨0⟩]), (⟨1⟩, [.var ⟨2⟩, .var ⟨1⟩]), (⟨0⟩, [.const (.int 7)]),
    (⟨1⟩, [.compound 2 ⟨0⟩ [.const (.int 7)], .var ⟨2⟩])].getD stamp (⟨0⟩, [])
  arity tag := tag.index + 1

theorem value?_sampleBindings {v : Var} {t : Term} (h : sampleBindings.value? v = some t) :
    v = ⟨1⟩ ∧ t = .compound 0 ⟨0⟩ [.var ⟨0⟩] := by
  obtain ⟨i⟩ := v
  have hi : i < 3 := Store.lt_size_of_value? (by rw [h]; exact Option.some_ne_none t)
  interval_cases i
  · cases h
  · cases h
    exact ⟨rfl, rfl⟩
  · cases h

theorem acyclic_sampleBindings : sampleBindings.Acyclic :=
  @Store.acyclic_of_rank _ Var.id fun v t hv w hw => by
    obtain ⟨rfl, rfl⟩ := value?_sampleBindings hv
    cases hw with | compound hmem hw =>
    obtain rfl := List.mem_singleton.mp hmem
    cases hw
    exact Nat.zero_lt_one

theorem resolve_samplePair : sampleBindings.resolve samplePair.1 =
      .compound ⟨1⟩ [.var ⟨2⟩, .compound ⟨0⟩ [.var ⟨0⟩]] ∧
    sampleBindings.resolve samplePair.2 = .compound ⟨1⟩ [.compound ⟨0⟩ [.const (.int 7)], .var ⟨2⟩] := by
  have hbound : sampleBindings.value? ⟨1⟩ = some (.compound 0 ⟨0⟩ [.var ⟨0⟩]) := rfl
  have hfirst : sampleBindings.value? ⟨0⟩ = none := rfl
  have hlast : sampleBindings.value? ⟨2⟩ = none := rfl
  simp [samplePair, acyclic_sampleBindings.resolve_bound hbound, Store.resolve_unbound hfirst,
    Store.resolve_unbound hlast]

theorem asks_sample : sampleHeap.Asks sampleBindings [samplePair] where
  acyclic := acyclic_sampleBindings
  store := fun v t hv => by
    obtain ⟨rfl, rfl⟩ := value?_sampleBindings hv
    exact .compound rfl rfl (List.forall_mem_singleton.mpr (.var (Nat.zero_lt_succ _)))
  terms := by
    refine List.forall_mem_singleton.mpr ⟨.compound rfl rfl ?_, .compound rfl rfl ?_⟩
    · exact List.forall_mem_cons.mpr ⟨.var (by decide), List.forall_mem_singleton.mpr (.var (by decide))⟩
    · refine List.forall_mem_cons.mpr ⟨.compound rfl rfl ?_, List.forall_mem_singleton.mpr
        (.var (by decide))⟩
      exact List.forall_mem_singleton.mpr (.const _)
  floatFree := by
    refine List.forall_mem_singleton.mpr ?_
    rw [resolve_samplePair.1, resolve_samplePair.2]
    refine ⟨.compound (List.forall_mem_cons.mpr ⟨.var _, List.forall_mem_singleton.mpr (.compound ?_)⟩),
      .compound (List.forall_mem_cons.mpr ⟨.compound ?_, List.forall_mem_singleton.mpr (.var _)⟩)⟩
    · exact List.forall_mem_singleton.mpr (.var _)
    · exact List.forall_mem_singleton.mpr (.const fun x hx => by cases hx)

/-- The compounds of the pair are unified: both become the same if the first variable is the constant, and
the others are what the binding says of the second one. -/
theorem unifyInPlace_mostGeneral_sample : ∃ σ' τ' m,
    (∀ n, m < n → unifyInPlace n samplePair.1 samplePair.2 sampleBindings (Trail.empty : Trail Empty) =
      (some true, σ', τ')) ∧ sampleBindings.MostGeneral σ' [samplePair] := by
  let seven : Tree := .const (.int 7)
  have hunifies : sampleBindings.Unifies (fun v => if v = ⟨0⟩ then seven else .compound ⟨0⟩ [seven])
      [samplePair] := by
    refine List.forall_mem_singleton.mpr ?_
    rw [resolve_samplePair.1, resolve_samplePair.2]
    simp [seven]
  exact (unifyInPlace_mostGeneral asks_sample Trail.empty).1 ⟨_, hunifies⟩

end Resolvent
