import Resolvent.Proofs.Building
import Resolvent.Proofs.Goals
import Resolvent.Proofs.Moment

/-!
# Copies

A copy of a term denotes the same tree with other variables, distinct ones for distinct ones
(`Store.variant_copy`). The new variables are made for the copy, so none of them is bound
(`Store.over_copy`); and as long as none is, the copy is read as it stands
(`Term.Over.resolve_eq`).

A ball is a copy of a term that is not a variable; it is `Sealed`, so it stays what it is until one of
its own variables is bound.
-/

namespace Resolvent

/-! ### Other variables -/

namespace Tree

mutual

/-- The tree with other variables. -/
def rename (f : Var → Var) : Tree → Tree
  | .var v => .var (f v)
  | .const c => .const c
  | .compound tag args => .compound tag (renameAll f args)

/-- The trees with other variables. -/
def renameAll (f : Var → Var) : List Tree → List Tree
  | [] => []
  | t :: ts => rename f t :: renameAll f ts

end

mutual

theorem rename_id : ∀ t : Tree, t.rename id = t
  | .var v => rfl
  | .const c => rfl
  | .compound tag args => by rw [rename, renameAll_id]

theorem renameAll_id : ∀ ts : List Tree, renameAll id ts = ts
  | [] => rfl
  | t :: ts => by rw [renameAll, rename_id, renameAll_id]

end

mutual

theorem rename_comp (f g : Var → Var) : ∀ t : Tree, (t.rename f).rename g = t.rename (g ∘ f)
  | .var v => rfl
  | .const c => rfl
  | .compound tag args => by rw [rename, rename, rename, renameAll_comp]

theorem renameAll_comp (f g : Var → Var) : ∀ ts : List Tree,
    renameAll g (renameAll f ts) = renameAll (g ∘ f) ts
  | [] => rfl
  | t :: ts => by rw [renameAll, renameAll, renameAll, rename_comp, renameAll_comp]

end

/-- The second tree is the first one with other variables, distinct ones for distinct ones. -/
def Variant (s t : Tree) : Prop :=
  ∃ f : Var → Var, Function.Injective f ∧ t = s.rename f

theorem Variant.refl (t : Tree) : t.Variant t :=
  ⟨id, Function.injective_id, t.rename_id.symm⟩

theorem Variant.trans {s t u : Tree} (h : s.Variant t) (h' : t.Variant u) : s.Variant u := by
  obtain ⟨f, hf, rfl⟩ := h
  obtain ⟨g, hg, rfl⟩ := h'
  exact ⟨g ∘ f, hg.comp hf, rename_comp f g s⟩

end Tree

/-! ### Terms over variables of a kind -/

/-- All variables in the term are of the kind. -/
inductive Term.Over (p : Var → Prop) : Term → Prop where
  | var {v : Var} (h : p v) : Over p (.var v)
  | const (c : Constant) : Over p (.const c)
  | compound {stamp : Nat} {tag : Tag} {args : List Term} (h : ∀ t ∈ args, Over p t) :
    Over p (.compound stamp tag args)

theorem Term.Over.imp {p q : Var → Prop} (hpq : ∀ v, p v → q v) {t : Term} (h : t.Over p) :
    t.Over q := by
  induction h with
  | var h => exact .var (hpq _ h)
  | const c => exact .const c
  | compound _ ih => exact .compound ih

mutual

/-- A term over unbound variables is read as it stands. -/
theorem Term.Over.treeWithin_eq {σ : Store} : ∀ {t : Term}, t.Over (σ.value? · = none) → ∀ n,
    σ.treeWithin n t = t.erase
  | .var v, _, 0 => by rw [Store.treeWithin, Term.erase]
  | .var v, .var h, n + 1 => by rw [Store.treeWithin, h, Term.erase]
  | .const c, _, n => by rw [Store.treeWithin, Term.erase]
  | .compound stamp tag args, .compound h, n => by
    rw [Store.treeWithin, Term.erase, Term.treesWithin_eq_of_over h]

theorem Term.treesWithin_eq_of_over {σ : Store} : ∀ {ts : List Term},
    (∀ t ∈ ts, t.Over (σ.value? · = none)) → ∀ n, σ.treesWithin n ts = Term.eraseAll ts
  | [], _, n => by rw [Store.treesWithin, Term.eraseAll]
  | t :: ts, h, n => by
    rw [List.forall_mem_cons] at h
    rw [Store.treesWithin, Term.eraseAll, h.1.treeWithin_eq, Term.treesWithin_eq_of_over h.2]

end

theorem Term.Over.resolve_eq {σ : Store} {t : Term} (h : t.Over (σ.value? · = none)) :
    σ.resolve t = t.erase := by
  rw [Store.resolve_eq_treeWithin, h.treeWithin_eq]

/-! ### What copying does -/

namespace Store

/-- The renaming gives distinct variables, made since there were `n`, for distinct ones. -/
structure Renaming.Fresh (n : Nat) (ρ : Renaming) (σ : Store) : Prop where
  /-- The variables have been made since. -/
  made : ∀ (i : Nat) w, ρ[i]? = some w → n ≤ w.id ∧ w.id < σ.size
  /-- They are distinct. -/
  inj : ∀ (i j : Nat) w, ρ[i]? = some w → ρ[j]? = some w → i = j

/-- The function gives what the renaming gives. -/
def Renaming.Agrees (ρ : Renaming) (f : Var → Var) : Prop :=
  ∀ (i : Nat) w, ρ[i]? = some w → f ⟨i⟩ = w

/-- The renaming gives the variable for another one. -/
def Renaming.Gives (ρ : Renaming) (w : Var) : Prop :=
  ∃ i : Nat, ρ[i]? = some w

theorem Renaming.fresh_empty (σ : Store) : Renaming.Fresh σ.size ∅ σ :=
  ⟨fun i w h => by simp at h, fun i j w h => by simp at h⟩

/-- One more variable. -/
theorem Renaming.Fresh.insert {n : Nat} {ρ : Renaming} {σ : Store} (h : ρ.Fresh n σ)
    (hn : n ≤ σ.size) (i : Nat) : Renaming.Fresh n (ρ.insert i σ.fresh.1) σ.fresh.2 := by
  have hfound (j : Nat) (w : Var) (hj : (ρ.insert i σ.fresh.1)[j]? = some w) :
      i = j ∧ w = ⟨σ.size⟩ ∨ ρ[j]? = some w := by
    rw [Std.TreeMap.getElem?_insert] at hj
    split at hj
    · rename_i heq
      exact .inl ⟨Std.LawfulEqCmp.eq_of_compare heq, (Option.some.inj hj).symm⟩
    · exact .inr hj
  refine ⟨fun j w hj => ?_, fun j k w hj hk => ?_⟩
  · rw [size_fresh]
    obtain ⟨-, rfl⟩ | hj := hfound j w hj
    · exact ⟨hn, Nat.lt_succ_self _⟩
    · have hw := h.made j w hj
      exact ⟨hw.1, Nat.lt_succ_of_lt hw.2⟩
  · -- the new variable is none of those made before
    obtain ⟨rfl, rfl⟩ | hj := hfound j w hj
    · obtain ⟨rfl, -⟩ | hk := hfound k _ hk
      · rfl
      · exact absurd (h.made k _ hk).2 (Nat.lt_irrefl _)
    · obtain ⟨rfl, rfl⟩ | hk := hfound k w hk
      · exact absurd (h.made j _ hj).2 (Nat.lt_irrefl _)
      · exact h.inj j k w hj hk

end Store

open Store (Renaming)

namespace Tree

/-- What copying leads to: the renaming knows more variables, and the copy is the tree with these
instead of its own. -/
structure Copies (n : Nat) (ρ : Renaming) (ρ' : Renaming) (σ' : Store) : Prop where
  /-- What was known is known. -/
  known : ∀ (i : Nat) w, ρ[i]? = some w → ρ'[i]? = some w
  /-- The new variables are new and distinct. -/
  fresh : ρ'.Fresh n σ'
  /-- There are not fewer variables. -/
  size : n ≤ σ'.size

theorem Copies.trans {n : Nat} {ρ₁ ρ₂ ρ₃ : Renaming} {σ₂ σ₃ : Store} (h : Copies n ρ₁ ρ₂ σ₂)
    (h' : Copies n ρ₂ ρ₃ σ₃) : Copies n ρ₁ ρ₃ σ₃ :=
  ⟨fun i w hi => h'.known i w (h.known i w hi), h'.fresh, h'.size⟩

theorem Copies.gives {n : Nat} {ρ ρ' : Renaming} {σ' : Store} (h : Copies n ρ ρ' σ') (v : Var)
    (hv : ρ.Gives v) : ρ'.Gives v :=
  hv.imp fun i hi => h.known i v hi

theorem Copies.agrees {n : Nat} {ρ ρ' : Renaming} {σ' : Store} (h : Copies n ρ ρ' σ')
    {f : Var → Var} (hf : ρ'.Agrees f) : ρ.Agrees f :=
  fun i w hi => hf i w (h.known i w hi)

mutual

theorem copies_copy {n : Nat} : ∀ (t : Tree) {ρ : Renaming} {σ : Store}, ρ.Fresh n σ →
    n ≤ σ.size → Copies n ρ (t.copy ρ σ).2.1 (t.copy ρ σ).2.2 ∧
      ∀ f, (t.copy ρ σ).2.1.Agrees f → (t.copy ρ σ).1.erase = t.rename f ∧
        (t.copy ρ σ).1.Over (t.copy ρ σ).2.1.Gives
  | .var v, ρ, σ, hρ, hn => by
    rw [copy]
    split
    · rename_i w hw
      exact ⟨⟨fun _ _ h => h, hρ, hn⟩, fun f hf =>
        ⟨congrArg Tree.var (hf v.id w hw).symm, .var ⟨v.id, hw⟩⟩⟩
    · rename_i hnone
      refine ⟨⟨fun i w hi => ?_, hρ.insert hn v.id, ?_⟩, fun f hf => ⟨?_, .var ⟨v.id, by simp⟩⟩⟩
      · rw [Std.TreeMap.getElem?_insert]
        split
        · rename_i heq
          obtain rfl := Std.LawfulEqCmp.eq_of_compare heq
          rw [hnone] at hi
          cases hi
        · exact hi
      · rw [Store.size_fresh]
        exact Nat.le_succ_of_le hn
      · exact congrArg Tree.var (hf v.id _ (by simp)).symm
  | .const c, ρ, σ, hρ, hn => ⟨⟨fun _ _ h => h, hρ, hn⟩, fun f _ => ⟨rfl, .const c⟩⟩
  | .compound tag args, ρ, σ, hρ, hn => by
    obtain ⟨hcopies, hargs⟩ := copies_copyAll args hρ hn
    refine ⟨⟨hcopies.known, ⟨hcopies.fresh.made, hcopies.fresh.inj⟩, hcopies.size⟩, fun f hf => ?_⟩
    obtain ⟨herase, hover⟩ := hargs f hf
    exact ⟨congrArg (Tree.compound tag) herase, .compound hover⟩

theorem copies_copyAll {n : Nat} : ∀ (ts : List Tree) {ρ : Renaming} {σ : Store}, ρ.Fresh n σ →
    n ≤ σ.size → Copies n ρ (copyAll ts ρ σ).2.1 (copyAll ts ρ σ).2.2 ∧
      ∀ f, (copyAll ts ρ σ).2.1.Agrees f → Term.eraseAll (copyAll ts ρ σ).1 = renameAll f ts ∧
        ∀ t ∈ (copyAll ts ρ σ).1, t.Over (copyAll ts ρ σ).2.1.Gives
  | [], ρ, σ, hρ, hn => ⟨⟨fun _ _ h => h, hρ, hn⟩, fun f _ =>
      ⟨rfl, fun _ ht => absurd ht List.not_mem_nil⟩⟩
  | t :: ts, ρ, σ, hρ, hn => by
    obtain ⟨hcopies, hhead⟩ := copies_copy t hρ hn
    obtain ⟨hcopies', htail⟩ := copies_copyAll ts hcopies.fresh hcopies.size
    refine ⟨hcopies.trans hcopies', fun f hf => ?_⟩
    obtain ⟨herase, hover⟩ := hhead f (hcopies'.agrees hf)
    obtain ⟨heraseAll, hoverAll⟩ := htail f hf
    rw [copyAll, Term.eraseAll, renameAll]
    exact ⟨congrArg₂ List.cons herase heraseAll,
      List.forall_mem_cons.mpr ⟨hover.imp hcopies'.gives, hoverAll⟩⟩

end

end Tree

namespace Store

/-- A renaming as a function that gives distinct variables for distinct ones. -/
theorem Renaming.Fresh.exists_agrees {n : Nat} {ρ : Renaming} {σ : Store} (h : ρ.Fresh n σ) :
    ∃ f, Function.Injective f ∧ ρ.Agrees f := by
  -- variables that are not known get numbers above those of the others
  refine ⟨fun v => ρ[v.id]?.getD ⟨σ.size + v.id⟩, fun v w hvw => ?_, fun i w hi => ?_⟩
  · obtain ⟨i⟩ := v
    obtain ⟨j⟩ := w
    dsimp only at hvw
    cases hi : ρ[i]? with
    | some v =>
      cases hj : ρ[j]? with
      | some w =>
        rw [hi, hj, Option.getD_some, Option.getD_some] at hvw
        rw [h.inj i j v hi (hvw ▸ hj)]
      | none =>
        rw [hi, hj, Option.getD_some, Option.getD_none] at hvw
        have := (h.made i v hi).2
        rw [hvw] at this
        exact absurd this (by simp)
    | none =>
      cases hj : ρ[j]? with
      | some w =>
        rw [hi, hj, Option.getD_some, Option.getD_none] at hvw
        have := (h.made j w hj).2
        rw [← hvw] at this
        exact absurd this (by simp)
      | none =>
        rw [hi, hj, Option.getD_none, Option.getD_none, Var.mk.injEq] at hvw
        rw [Nat.add_left_cancel hvw]
  · dsimp only
    rw [hi, Option.getD_some]

/-- A copy is the tree that the term denotes, with other variables. -/
theorem variant_copy (t : Term) (σ : Store) : (σ.resolve t).Variant (σ.copy t).1.erase := by
  obtain ⟨hcopies, hcopy⟩ := (σ.resolve t).copies_copy (Renaming.fresh_empty σ) (Nat.le_refl _)
  obtain ⟨f, hf, hagrees⟩ := hcopies.fresh.exists_agrees
  rw [copy_eq]
  exact ⟨f, hf, (hcopy f hagrees).1⟩

/-- The variables of a copy are new. -/
theorem over_copy (t : Term) (σ : Store) :
    (σ.copy t).1.Over fun v => σ.size ≤ v.id ∧ v.id < (σ.copy t).2.size := by
  obtain ⟨hcopies, hcopy⟩ := (σ.resolve t).copies_copy (Renaming.fresh_empty σ) (Nat.le_refl _)
  obtain ⟨f, -, hagrees⟩ := hcopies.fresh.exists_agrees
  rw [copy_eq]
  exact (hcopy f hagrees).2.imp fun v ⟨i, hi⟩ => hcopies.fresh.made i v hi

end Store

/-! ### Balls -/

namespace Exception

/-- The ball fits the symbols; it is not a variable, and no variable in it is bound. -/
structure Sealed (e : Exception) (u : Universe) : Prop where
  /-- It fits the symbols. -/
  fits : e.ball.Fits u.symbols
  /-- It is not a variable. -/
  nonvar : ∀ v, e.ball ≠ .var v
  /-- Its variables are unbound. -/
  free : e.ball.Over (u.store.value? · = none)

variable {u u' : Universe}

theorem Sealed.mono {e : Exception} (h : e.Sealed u) (hs : u.symbols.Extends u'.symbols)
    (hfree : ∀ v, u.store.value? v = none → u'.store.value? v = none) : e.Sealed u' :=
  ⟨h.fits.mono hs, h.nonvar, h.free.imp hfree⟩

/-- The ball denotes the tree that it looks like. -/
theorem Sealed.resolve_eq {e : Exception} (h : e.Sealed u) : u.store.resolve e.ball = e.ball.erase :=
  h.free.resolve_eq

/-- A copy of a term that is not a variable is not a variable. -/
theorem nonvar_copy {t : Term} {σ : Store} (ht : ∀ v, σ.deref t ≠ .var v) (v : Var) :
    (σ.copy t).1 ≠ .var v := by
  intro heq
  obtain ⟨m, hm, -⟩ := σ.resolve_of_deref t
  obtain ⟨f, -, hf⟩ := σ.variant_copy t
  rw [heq, hm] at hf
  cases hd : σ.deref t with
  | var w => exact ht w hd
  | const c => rw [hd, Store.treeWithin, Tree.rename, Term.erase] at hf; cases hf
  | compound => rw [hd, Store.treeWithin, Tree.rename, Term.erase] at hf; cases hf

theorem sealed_ofTerm (hu : u.Fits) {t : Term} (ht : t.Fits u.symbols)
    (hvar : ∀ v, u.store.deref t ≠ .var v) : (ofTerm t u).1.Sealed (ofTerm t u).2 := by
  refine ⟨fits_ofTerm hu ht, nonvar_copy hvar, (u.store.over_copy t).imp fun v hv => ?_⟩
  have hnone := Store.value?_of_size_le hv.1
  exact ((extending_ofTerm t u).store.value v).trans hnone

/-- A copy of a ball is a variant of it. -/
theorem Sealed.variant_ofTerm {e : Exception} (h : e.Sealed u) :
    e.ball.erase.Variant (ofTerm e.ball u).1.ball.erase :=
  h.resolve_eq ▸ u.store.variant_copy e.ball

theorem sealed_ofError (hu : u.Fits) {e : ErrorKind} (he : e.Fits u.symbols) :
    (ofError e u).1.Sealed (ofError e u).2 := by
  let u₁ := (formalOf e u).2
  let u₂ := (Universe.fresh u₁).2
  have h₁ : u.Extends u₁ := extending_formalOf e u
  have h₂ : u₁.Extends u₂ := Universe.extending_fresh u₁
  have hu₂ : u₂.Fits := (h₁.trans h₂).fits hu
  refine sealed_ofTerm ((Universe.extending_compound .error _ u₂).fits hu₂)
    (Universe.fits_compound hu₂.started.hasArity_error ?_) fun v hv => ?_
  · exact List.forall_mem_cons.mpr ⟨(fits_formalOf hu he).mono h₂.symbols,
      List.forall_mem_singleton.mpr (.var _)⟩
  · simp [Universe.compound, Store.deref, Store.derefWithin] at hv

theorem sealed_unknownProcedure (hu : u.Fits) (tag : Tag) :
    (unknownProcedure tag u).1.Sealed (unknownProcedure tag u).2 :=
  sealed_ofError (u := (indicatorTerm tag u).2) (e := .existence "procedure" (indicatorTerm tag u).1)
    ((extending_indicatorTerm tag u).fits hu) (fits_indicatorTerm hu tag)

end Exception

end Resolvent
