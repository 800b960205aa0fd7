import Mathlib.Data.Set.Card
import Mathlib.Logic.Relation
import Resolvent.Proofs.Moment
import Resolvent.Proofs.Reading

/-!
# Bindings without circles

In a store without circles no binding leads back to its own variable, however many bindings are read on
the way (`Store.Acyclic`). Then no path is longer than there are variables, so a term is read all the way
down: a bound variable denotes what its binding denotes (`Store.Acyclic.resolve_bound`), and what holds
of a term may be shown by going from variables to their bindings (`Store.Acyclic.induction`). Binding a
variable to a term makes no circle if the variable does not occur in what the term denotes
(`Store.Acyclic.bind`).

Much less is needed for the reading of a variable to end at an unbound one: that bindings of variables to
variables do not go round in a circle (`Store.Rooted`). Unification never makes such a circle.
-/

namespace Resolvent

open Relation (TransGen ReflTransGen)

/-! ### Relations without circles -/

section Relations

variable {r r' : Var → Var → Prop} {p : Var → Prop} {v : Var} {n : Nat}

/-- Variables that are not related to themselves by any chain can be numbered such that the numbers fall
along every chain, with numbers no greater than there are variables with a property, and positive for
these. -/
theorem exists_rank (hr : ∀ v, ¬ TransGen r v v) (hp : ∀ v w, r v w → p v)
    (hn : ∀ v, p v → v.id < n) : ∃ rank : Var → Nat,
      (∀ v, rank v ≤ n) ∧ (∀ v, p v → 0 < rank v) ∧ ∀ v w, r v w → rank w < rank v := by
  let below (v : Var) : Set Var := {u | ReflTransGen r v u ∧ p u}
  have hsub (v : Var) : below v ⊆ Var.mk '' (Finset.range n : Set Nat) := fun u hu =>
    ⟨u.id, Finset.mem_coe.mpr (Finset.mem_range.mpr (hn u hu.2)), rfl⟩
  have hfinite (v : Var) : (below v).Finite := ((Finset.finite_toSet _).image _).subset (hsub v)
  refine ⟨fun v => (below v).ncard, fun v => ?_, fun v hv => ?_, fun v w h => ?_⟩
  · calc (below v).ncard
        ≤ (Var.mk '' (Finset.range n : Set Nat)).ncard :=
          Set.ncard_le_ncard (hsub v) ((Finset.finite_toSet _).image _)
      _ ≤ (Finset.range n : Set Nat).ncard := Set.ncard_image_le (Finset.finite_toSet _)
      _ = n := by rw [Set.ncard_coe_finset, Finset.card_range]
  · exact (Set.ncard_pos (hfinite v)).mpr ⟨v, .refl, hv⟩
  · refine Set.ncard_lt_ncard ⟨fun u hu => ⟨.head h hu.1, hu.2⟩, fun hsubset => ?_⟩ (hfinite v)
    exact hr v (.head' h (hsubset ⟨.refl, hp v w h⟩).1)

/-- Chains that go only where the numbers fall do not return. -/
theorem not_transGen_of_rank {rank : Var → Nat} (h : ∀ v w, r v w → rank w < rank v) (v : Var) :
    ¬ TransGen r v v := by
  have hlt : ∀ {w}, TransGen r v w → rank w < rank v := fun hw => by
    induction hw with
    | single hw => exact h _ _ hw
    | tail _ hw ih => exact (h _ _ hw).trans ih
  exact fun hv => Nat.lt_irrefl _ (hlt hv)

/-- A relation that is extended at one variable only has new circles only through that variable. -/
theorem not_transGen_of_extended (hr : ∀ v, ¬ TransGen r v v) (hr' : ∀ u w, r' u w → u = v ∨ r u w)
    (hv : ∀ w, r' v w → ¬ ReflTransGen r w v) (x : Var) : ¬ TransGen r' x x := by
  -- a chain to the variable is an old one, up to where it first reaches the variable
  have hold : ∀ {w}, ReflTransGen r' w v → ReflTransGen r w v := fun h => by
    induction h using ReflTransGen.head_induction_on with
    | refl => exact .refl
    | head hfirst _ ih =>
      obtain rfl | hfirst := hr' _ _ hfirst
      · exact .refl
      · exact .head hfirst ih
  have hthrough : ∀ {y}, TransGen r' x y → TransGen r x y ∨ ReflTransGen r' x v ∧ TransGen r' v y :=
    fun h => by
      induction h with
      | single h =>
        obtain rfl | h' := hr' _ _ h
        · exact .inr ⟨.refl, .single h⟩
        · exact .inl (.single h')
      | tail hxy h ih =>
        obtain hxy' | ⟨hxv, hvy⟩ := ih
        · obtain rfl | h' := hr' _ _ h
          · exact .inr ⟨hxy.to_reflTransGen, .single h⟩
          · exact .inl (hxy'.tail h')
        · exact .inr ⟨hxv, hvy.tail h⟩
  intro h
  obtain h | ⟨hxv, hvx⟩ := hthrough h
  · exact hr x h
  · obtain ⟨w, hvw, hwv⟩ := TransGen.head'_iff.mp (hvx.trans_left hxv)
    exact hv w hvw (hold hwv)

end Relations

/-! ### Variables in terms -/

/-- What holds of variables and constants, and of compounds if it holds of their arguments, holds of all
terms. -/
@[elab_as_elim]
theorem Term.induction {motive : Term → Prop} (var : ∀ v, motive (.var v))
    (const : ∀ c, motive (.const c)) (compound : ∀ stamp tag args, (∀ t ∈ args, motive t) →
      motive (.compound stamp tag args)) : ∀ t, motive t
  | .var v => var v
  | .const c => const c
  | .compound stamp tag args => compound stamp tag args fun t _ => Term.induction var const compound t

/-- What holds of variables and constants, and of compounds if it holds of their arguments, holds of all
trees. -/
@[elab_as_elim]
theorem Tree.induction {motive : Tree → Prop} (var : ∀ v, motive (.var v))
    (const : ∀ c, motive (.const c)) (compound : ∀ tag args, (∀ t ∈ args, motive t) →
      motive (.compound tag args)) : ∀ t, motive t
  | .var v => var v
  | .const c => const c
  | .compound tag args => compound tag args fun t _ => Tree.induction var const compound t

/-- The variable stands in the term. -/
inductive Term.Occurs (v : Var) : Term → Prop
  | var : Occurs v (.var v)
  | compound {stamp : Nat} {tag : Tag} {args : List Term} {t : Term} (ht : t ∈ args)
    (h : Occurs v t) : Occurs v (.compound stamp tag args)

/-- The variable stands in the tree. -/
inductive Tree.Occurs (v : Var) : Tree → Prop
  | var : Occurs v (.var v)
  | compound {tag : Tag} {args : List Tree} {t : Tree} (ht : t ∈ args) (h : Occurs v t) :
    Occurs v (.compound tag args)

namespace Store

variable {σ σ' : Store} {v w : Var} {s t : Term} {n : Nat}

/-- The second variable stands in the binding of the first one. -/
def Mentions (σ : Store) (v w : Var) : Prop :=
  ∃ t, σ.value? v = some t ∧ t.Occurs w

/-- No binding leads back to its variable. -/
def Acyclic (σ : Store) : Prop :=
  ∀ v, ¬ TransGen σ.Mentions v v

/-- The first variable is bound to the second one. -/
def Leads (σ : Store) (v w : Var) : Prop :=
  σ.value? v = some (.var w)

/-- No binding to a variable leads back to its variable by bindings to variables. -/
def Rooted (σ : Store) : Prop :=
  ∀ v, ¬ TransGen σ.Leads v v

theorem acyclic_of_rank {rank : Var → Nat}
    (h : ∀ v t, σ.value? v = some t → ∀ w, t.Occurs w → rank w < rank v) : σ.Acyclic :=
  not_transGen_of_rank fun v w ⟨t, hv, hw⟩ => h v t hv w hw

theorem Acyclic.rooted (h : σ.Acyclic) : σ.Rooted :=
  fun v hv => h v (TransGen.mono (fun _ w hw => ⟨.var w, hw, .var⟩) v v hv)

theorem lt_size_of_value? (h : σ.value? v ≠ none) : v.id < σ.size :=
  Nat.lt_of_not_le fun hle => h (value?_of_size_le hle)

theorem Acyclic.exists_rank (h : σ.Acyclic) : ∃ rank : Var → Nat, (∀ v, rank v ≤ σ.size) ∧
    (∀ v, σ.value? v ≠ none → 0 < rank v) ∧ ∀ v w, σ.Mentions v w → rank w < rank v :=
  Resolvent.exists_rank h (fun v w ⟨t, hv, _⟩ => by rw [hv]; exact Option.some_ne_none t)
    fun _ => lt_size_of_value?

theorem Rooted.exists_rank (h : σ.Rooted) : ∃ rank : Var → Nat, (∀ v, rank v ≤ σ.size) ∧
    (∀ v, σ.value? v ≠ none → 0 < rank v) ∧ ∀ v w, σ.Leads v w → rank w < rank v :=
  Resolvent.exists_rank h (fun v w hv => by rw [hv]; exact Option.some_ne_none _)
    fun _ => lt_size_of_value?

/-- The reading of a term ends at an unbound variable if it ends at a variable. -/
theorem Rooted.value?_of_deref (h : σ.Rooted) (hd : σ.deref t = .var v) : σ.value? v = none := by
  obtain ⟨rank, hle, hpos, hlt⟩ := h.exists_rank
  have hwithin : ∀ (n : Nat) (t : Term), (∀ w, t = .var w → rank w ≤ n) →
      σ.derefWithin n t = .var v → σ.value? v = none := by
    intro n
    induction n with
    | zero =>
      intro t ht hd
      cases t with
      | var w =>
        obtain rfl : w = v := by simpa [derefWithin] using hd
        by_contra hv
        exact absurd (hpos w hv) (Nat.not_lt.mpr (ht w rfl))
      | _ => simp [derefWithin] at hd
    | succ n ih =>
      intro t ht hd
      cases t with
      | var w =>
        cases hw : σ.value? w with
        | none =>
          obtain rfl : w = v := by simpa [derefWithin, hw] using hd
          exact hw
        | some t =>
          refine ih t (fun u hu => ?_) (by simpa [derefWithin, hw] using hd)
          have := hlt w u (by rw [Leads, hw, hu])
          have := ht w rfl
          omega
      | _ => simp [derefWithin] at hd
  exact hwithin _ _ (fun w _ => hle w) hd

/-- An unbound variable may be bound to what is no variable, or to another unbound variable. -/
theorem Rooted.bind (h : σ.Rooted) (ht : ∀ w, t = .var w → w ≠ v ∧ σ.value? w = none) :
    (σ.bind v t).Rooted := by
  refine not_transGen_of_extended (v := v) h (fun u w huw => ?_) fun w hvw hwv => ?_
  · rw [Leads, value?_bind] at huw
    split at huw
    · rename_i huv
      exact .inl huv.1.symm
    · exact .inr huw
  · rw [Leads, value?_bind] at hvw
    split at hvw
    · obtain ⟨hne, hnone⟩ := ht w (Option.some.inj hvw)
      -- nothing leads on from an unbound variable
      obtain rfl | ⟨u, hwu, -⟩ := ReflTransGen.cases_head hwv
      · exact hne rfl
      · rw [Leads, hnone] at hwu
        cases hwu
    · rename_i hout
      have hsize : v.id < σ.size := lt_size_of_value? (by rw [hvw]; exact Option.some_ne_none _)
      exact hout ⟨rfl, hsize⟩

/-! ### Reading all the way down -/

theorem treesWithin_eq_map (σ : Store) (n : Nat) (ts : List Term) :
    σ.treesWithin n ts = ts.map (σ.treeWithin n) := by
  induction ts with
  | nil => rw [treesWithin, List.map_nil]
  | cons t ts ih => rw [treesWithin, ih, List.map_cons]

@[simp] theorem resolve_const (σ : Store) (c : Constant) : σ.resolve (.const c) = .const c := by
  rw [resolve_eq_treeWithin, treeWithin]

@[simp] theorem resolve_compound (σ : Store) (stamp : Nat) (tag : Tag) (args : List Term) :
    σ.resolve (.compound stamp tag args) = .compound tag (args.map σ.resolve) := by
  rw [resolve_eq_treeWithin, treeWithin, treesWithin_eq_map]
  congr 1
  exact List.map_congr_left fun t _ => (σ.resolve_eq_treeWithin t).symm

theorem treeWithin_unbound (hv : σ.value? v = none) (n : Nat) : σ.treeWithin n (.var v) = .var v := by
  cases n <;> simp [treeWithin, hv]

theorem resolve_unbound (hv : σ.value? v = none) : σ.resolve (.var v) = .var v := by
  rw [resolve_eq_treeWithin, treeWithin_unbound hv]

/-- Bindings that are not on any path do not matter. -/
theorem treeWithin_eq_of_rank {rank : Var → Nat} (hpos : ∀ v, σ.value? v ≠ none → 0 < rank v)
    (hlt : ∀ v w, σ.Mentions v w → rank w < rank v) : ∀ {n m : Nat} {t : Term}, n ≤ m →
      (∀ w, t.Occurs w → rank w ≤ n) → σ.treeWithin m t = σ.treeWithin n t := by
  intro n
  induction n using Nat.strong_induction_on with | h n ihn =>
  intro m t hm ht
  induction t using Term.induction with
  | var v =>
    cases hv : σ.value? v with
    | none => rw [treeWithin_unbound hv, treeWithin_unbound hv]
    | some t =>
      have := hpos v (by rw [hv]; exact Option.some_ne_none t)
      have := ht v .var
      obtain ⟨n, rfl⟩ : ∃ k, n = k + 1 := ⟨n - 1, by omega⟩
      obtain ⟨m, rfl⟩ : ∃ k, m = k + 1 := ⟨m - 1, by omega⟩
      simp only [treeWithin, hv]
      refine ihn n (Nat.lt_succ_self n) (by omega) fun w hw => ?_
      have := hlt v w ⟨t, hv, hw⟩
      omega
  | const c => rw [treeWithin, treeWithin]
  | compound stamp tag args ih =>
    rw [treeWithin, treeWithin, treesWithin_eq_map, treesWithin_eq_map]
    congr 1
    exact List.map_congr_left fun t hmem => ih t hmem fun w hw => ht w (.compound hmem hw)

namespace Acyclic

/-- A bound variable denotes what its binding denotes. -/
theorem resolve_bound (h : σ.Acyclic) (hv : σ.value? v = some t) :
    σ.resolve (.var v) = σ.resolve t := by
  obtain ⟨rank, hle, hpos, hlt⟩ := h.exists_rank
  have hsize := hle v
  have := hpos v (by rw [hv]; exact Option.some_ne_none t)
  rw [resolve_eq_treeWithin, resolve_eq_treeWithin]
  obtain ⟨n, hn⟩ : ∃ n, σ.size = n + 1 := ⟨σ.size - 1, by omega⟩
  rw [hn, treeWithin, hv]
  refine (treeWithin_eq_of_rank hpos hlt (Nat.le_succ n) fun w hw => ?_).symm
  have := hlt v w ⟨t, hv, hw⟩
  omega

/-- What holds of a variable if it holds of its binding, and of a compound if it holds of its arguments,
holds of all terms. -/
@[elab_as_elim]
theorem induction (h : σ.Acyclic) {motive : Term → Prop}
    (bound : ∀ v t, σ.value? v = some t → motive t → motive (.var v))
    (unbound : ∀ v, σ.value? v = none → motive (.var v)) (const : ∀ c, motive (.const c))
    (compound : ∀ stamp tag args, (∀ t ∈ args, motive t) → motive (.compound stamp tag args))
    (t : Term) : motive t := by
  obtain ⟨rank, hle, -, hlt⟩ := h.exists_rank
  have hall : ∀ (n : Nat) (t : Term), (∀ w, t.Occurs w → rank w < n) → motive t := by
    intro n
    induction n using Nat.strong_induction_on with | h n ihn =>
    intro t ht
    induction t using Term.induction with
    | var v =>
      cases hv : σ.value? v with
      | none => exact unbound v hv
      | some t => exact bound v t hv (ihn (rank v) (ht v .var) t fun w hw => hlt v w ⟨t, hv, hw⟩)
    | const c => exact const c
    | compound stamp tag args ih =>
      exact compound stamp tag args fun t hmem => ih t hmem fun w hw => ht w (.compound hmem hw)
  exact hall (σ.size + 1) t fun w _ => Nat.lt_succ_of_le (hle w)

/-- A variable that bindings lead to from a term stands in what the term denotes. -/
theorem occurs_resolve (h : σ.Acyclic) (hv : σ.value? v = none) :
    ∀ {w}, t.Occurs w → ReflTransGen σ.Mentions w v → (σ.resolve t).Occurs v := by
  induction t using h.induction with
  | bound u t hu ih =>
    rintro _ ⟨⟩ huv
    rw [h.resolve_bound hu]
    obtain rfl | ⟨w, ⟨t', hu', hw⟩, hwv⟩ := ReflTransGen.cases_head huv
    · rw [hu] at hv
      cases hv
    · rw [hu] at hu'
      cases hu'
      exact ih hw hwv
  | unbound u hu =>
    rintro _ ⟨⟩ huv
    rw [resolve_unbound hu]
    obtain rfl | ⟨w, ⟨t', hu', -⟩, -⟩ := ReflTransGen.cases_head huv
    · exact .var
    · rw [hu] at hu'
      cases hu'
  | const c => rintro _ ⟨⟩
  | compound stamp tag args ih =>
    rintro w (_ | ⟨hmem, hw⟩) hwv
    rw [resolve_compound]
    exact .compound (List.mem_map_of_mem hmem) (ih _ hmem hw hwv)

/-- Binding a variable makes no circle if the variable does not stand in what the term denotes. -/
theorem bind (h : σ.Acyclic) (hv : σ.value? v = none) (ht : ¬ (σ.resolve t).Occurs v) :
    (σ.bind v t).Acyclic := by
  refine not_transGen_of_extended (v := v) h ?_ ?_
  · rintro u w ⟨t', hu, hw⟩
    rw [value?_bind] at hu
    split at hu
    · rename_i huv
      exact .inl huv.1.symm
    · exact .inr ⟨t', hu, hw⟩
  · rintro w ⟨t', hvw, hw⟩ hwv
    rw [value?_bind] at hvw
    split at hvw
    · cases hvw
      exact ht (h.occurs_resolve hv hw hwv)
    · rw [hv] at hvw
      cases hvw

end Acyclic

/-! ### More bindings -/

/-- The variables are the same, and every binding is kept. -/
structure Grown (σ σ' : Store) : Prop where
  /-- No variable has been made. -/
  size : σ'.size = σ.size
  /-- No binding has been changed. -/
  value : ∀ v t, σ.value? v = some t → σ'.value? v = some t

namespace Grown

theorem refl (σ : Store) : σ.Grown σ :=
  ⟨rfl, fun _ _ h => h⟩

theorem trans {σ₁ σ₂ σ₃ : Store} (h : σ₁.Grown σ₂) (h' : σ₂.Grown σ₃) : σ₁.Grown σ₃ :=
  ⟨h'.size.trans h.size, fun v t hv => h'.value v t (h.value v t hv)⟩

theorem bind (hv : σ.value? v = none) (t : Term) : σ.Grown (σ.bind v t) := by
  refine ⟨size_bind v t σ, fun w u hw => ?_⟩
  rw [value?_bind, if_neg, hw]
  rintro ⟨rfl, -⟩
  rw [hv] at hw
  cases hw

/-- What a term denotes may be found by reading some of the bindings first. -/
theorem resolve_deref (h : σ.Grown σ') (hσ' : σ'.Acyclic) (t : Term) :
    σ'.resolve (σ.deref t) = σ'.resolve t := by
  have hwithin : ∀ (n : Nat) (t : Term), σ'.resolve (σ.derefWithin n t) = σ'.resolve t := by
    intro n
    induction n with
    | zero =>
      intro t
      cases t <;> simp [derefWithin]
    | succ n ih =>
      intro t
      cases t with
      | var v =>
        cases hv : σ.value? v with
        | none => simp [derefWithin, hv]
        | some t =>
          rw [hσ'.resolve_bound (h.value v t hv), ← ih t]
          simp [derefWithin, hv]
      | _ => simp [derefWithin]
  exact hwithin _ t

end Grown

theorem Acyclic.resolve_deref (h : σ.Acyclic) (t : Term) : σ.resolve (σ.deref t) = σ.resolve t :=
  (Grown.refl σ).resolve_deref h t

end Store

end Resolvent
