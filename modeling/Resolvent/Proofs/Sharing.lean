import Resolvent.Proofs.Copying
import Resolvent.Proofs.Unifiers

/-!
# Copies share their variables

`Store.Denotes` says what a term denotes without any bound on the bindings that are read. In a store
without circles every term denotes one tree, and the walk through it comes to an end before the bound
that cuts off circles (`Store.Acyclic.writeNodes_eq`).

Terms may be copied one after the other with one renaming (`Store.Series`), and bindings may be made and
undone between two copies. There is one function on variables, distinct ones for distinct ones, that gives
every copy of the series from what its term denoted when it was copied (`Store.Series.copies`). So the copy
of a clause shares variables between head and body as the clause does (`Clause.copies_toTerm`).

The copies are put together on a stack, from nodes in postorder. Wherever a functor stands among the
nodes, the stack holds its arguments (`Store.arity_le_of_nodes`), and at the end it holds one term.
-/

namespace Resolvent

/-! ### What terms denote -/

namespace Store

variable {σ σ' : Store} {v : Var} {t : Term} {u u' : Tree}

/-- The term denotes the tree: a bound variable denotes what its binding does, an unbound one itself. -/
inductive Denotes (σ : Store) : Term → Tree → Prop
  | bound {v : Var} {t : Term} {u : Tree} (hv : σ.value? v = some t) (h : Denotes σ t u) :
    Denotes σ (.var v) u
  | unbound {v : Var} (hv : σ.value? v = none) : Denotes σ (.var v) (.var v)
  | const (c : Constant) : Denotes σ (.const c) (.const c)
  | compound {stamp : Nat} {tag : Tag} {args : List Term} (f : Term → Tree)
    (h : ∀ t ∈ args, Denotes σ t (f t)) : Denotes σ (.compound stamp tag args) (.compound tag (args.map f))

/-- A term denotes one tree only. -/
theorem Denotes.unique (h : σ.Denotes t u) (h' : σ.Denotes t u') : u = u' := by
  induction h generalizing u' with
  | bound hv _ ih =>
    cases h' with
    | bound hv' h' =>
      cases hv.symm.trans hv'
      exact ih h'
    | unbound hv' => cases hv.symm.trans hv'
  | unbound hv =>
    cases h' with
    | bound hv' => cases hv.symm.trans hv'
    | unbound => rfl
  | const c =>
    cases h'
    rfl
  | compound f _ ih =>
    cases h' with
    | compound g h' => rw [List.map_congr_left fun t ht => ih t ht (h' t ht)]

namespace Acyclic

/-- Without circles every term denotes the tree that is read. -/
theorem denotes (h : σ.Acyclic) (t : Term) : σ.Denotes t (σ.resolve t) := by
  induction t using h.induction with
  | bound v t hv ih =>
    rw [h.resolve_bound hv]
    exact .bound hv ih
  | unbound v hv =>
    rw [resolve_unbound hv]
    exact .unbound hv
  | const c =>
    rw [resolve_const]
    exact .const c
  | compound stamp tag args ih =>
    rw [resolve_compound]
    exact .compound σ.resolve ih

/-- Without circles the walk through a term does not meet the bound on the bindings that are read. -/
theorem writeNodes_eq (h : σ.Acyclic) {n : Nat} (hn : σ.size ≤ n) (t : Term) :
    σ.writeNodes [.walk n t] [] = σ.writeNodes [.walk σ.size t] [] := by
  obtain ⟨rank, hle, hpos, hlt⟩ := h.exists_rank
  rw [writeNodes_walk, writeNodes_walk, treeWithin_eq_of_rank hpos hlt hn fun w _ => hle w]

/-- What a term denotes depends on the bindings only. -/
theorem resolve_eq_of_extends (h : σ.Acyclic) (h' : σ.Extends σ') (t : Term) :
    σ'.resolve t = σ.resolve t := by
  have hacyclic : σ'.Acyclic := fun v hv =>
    h v (Relation.TransGen.mono (fun v w ⟨t, ht, hw⟩ => ⟨t, h'.value v ▸ ht, hw⟩) v v hv)
  induction t using h.induction with
  | bound v t hv ih => rw [h.resolve_bound hv, hacyclic.resolve_bound ((h'.value v).trans hv), ih]
  | unbound v hv => rw [resolve_unbound hv, resolve_unbound ((h'.value v).trans hv)]
  | const c => rw [resolve_const, resolve_const]
  | compound stamp tag args ih => rw [resolve_compound, resolve_compound, List.map_congr_left ih]

end Acyclic

end Store

theorem Term.eraseAll_eq_map (ts : List Term) : Term.eraseAll ts = ts.map Term.erase := by
  induction ts with
  | nil => rfl
  | cons t ts ih => rw [eraseAll, ih, List.map_cons]

/-- A term over unbound variables denotes the tree that it looks like. -/
theorem Term.Over.denotes {σ : Store} {t : Term} (h : t.Over (σ.value? · = none)) :
    σ.Denotes t t.erase := by
  induction h with
  | var hv => exact .unbound hv
  | const c => exact .const c
  | compound _ ih =>
    rw [Term.erase, Term.eraseAll_eq_map]
    exact .compound Term.erase ih

/-- A term denotes what it looks like with what its variables denote. -/
theorem Store.resolve_eq_subst (σ : Store) (t : Term) :
    σ.resolve t = t.erase.subst fun v => σ.resolve (.var v) := by
  induction t using Term.induction with
  | var v => rfl
  | const c => rw [resolve_const]; rfl
  | compound stamp tag args ih =>
    rw [resolve_compound, Term.erase, Term.eraseAll_eq_map, Tree.subst_compound, List.map_map,
      List.map_congr_left ih]
    rfl

/-! ### Terms copied one after the other -/

namespace Store

/-- A term that has been copied. -/
structure Copied where
  /-- The store in which it was copied. -/
  store : Store
  /-- The term. -/
  original : Term
  /-- Its copy. -/
  copy : Term

/-- Terms are copied one after the other with one renaming, the latest copy first. Between two copies
variables may be made, bound and unbound. -/
inductive Series (σ₀ : Store) : List Copied → Renaming → Store → Prop
  | start : Series σ₀ [] ∅ σ₀
  | copy {l : List Copied} {ρ : Renaming} {σ : Store} (h : Series σ₀ l ρ σ) (t : Term) :
    Series σ₀ (⟨σ, t, (σ.copyWith t ρ).1⟩ :: l) (σ.copyWith t ρ).2.1 (σ.copyWith t ρ).2.2
  | change {l : List Copied} {ρ : Renaming} {σ σ' : Store} (h : Series σ₀ l ρ σ)
    (hσ : σ.size ≤ σ'.size) : Series σ₀ l ρ σ'

variable {σ₀ σ σ' : Store} {l : List Copied} {ρ : Renaming} {t : Term}

/-- A renaming keeps what it gives. -/
theorem known_copyWith {i : Nat} {w : Var} (hi : ρ[i]? = some w) (t : Term) (σ : Store) :
    (σ.copyWith t ρ).2.1[i]? = some w := by
  have hknown : ∀ (t : Tree) (ρ : Renaming) (σ : Store), ρ[i]? = some w →
      (t.copy ρ σ).2.1[i]? = some w := by
    intro t
    induction t using Tree.induction with
    | var v =>
      intro ρ σ hi
      rw [Tree.copy]
      split
      · exact hi
      · rename_i hnone
        dsimp only
        rw [Std.TreeMap.getElem?_insert, if_neg, hi]
        intro heq
        rw [Std.LawfulEqCmp.eq_of_compare heq, hi] at hnone
        cases hnone
    | const c => exact fun _ _ hi => hi
    | compound tag args ih =>
      have hall : ∀ ts : List Tree, (∀ t ∈ ts, t ∈ args) → ∀ (ρ : Renaming) (σ : Store),
          ρ[i]? = some w → (Tree.copyAll ts ρ σ).2.1[i]? = some w := by
        intro ts
        induction ts with
        | nil => exact fun _ _ _ hi => hi
        | cons t ts ihs =>
          intro hts ρ σ hi
          rw [List.forall_mem_cons] at hts
          exact ihs hts.2 _ _ (ih t hts.1 ρ σ hi)
      exact fun ρ σ hi => hall args (fun _ ht => ht) ρ σ hi
  rw [copyWith_eq]
  exact hknown _ ρ σ hi

theorem Renaming.Fresh.mono {n : Nat} (h : ρ.Fresh n σ) (hσ : σ.size ≤ σ'.size) : ρ.Fresh n σ' :=
  ⟨fun i w hi => ⟨(h.made i w hi).1, (h.made i w hi).2.trans_le hσ⟩, h.inj⟩

namespace Series

/-- The renaming gives distinct variables, made for the copies. -/
theorem fresh (h : σ₀.Series l ρ σ) : σ₀.size ≤ σ.size ∧ ρ.Fresh σ₀.size σ := by
  induction h with
  | start => exact ⟨Nat.le_refl _, Renaming.fresh_empty _⟩
  | @copy l ρ σ h t ih =>
    obtain ⟨hcopies, -⟩ := (σ.resolve t).copies_copy ih.2 ih.1
    rw [copyWith_eq]
    exact ⟨hcopies.size, hcopies.fresh⟩
  | change h hσ ih => exact ⟨ih.1.trans hσ, ih.2.mono hσ⟩

/-- Every copy is what its term denoted, with the variables that the renaming gives. -/
theorem copies (h : σ₀.Series l ρ σ) {f : Var → Var} (hf : ρ.Agrees f) :
    ∀ c ∈ l, c.copy.erase = (c.store.resolve c.original).rename f ∧ c.copy.Over ρ.Gives := by
  induction h with
  | start => exact fun c hc => absurd hc List.not_mem_nil
  | @copy l ρ σ h t ih =>
    obtain ⟨hsize, hfresh⟩ := h.fresh
    obtain ⟨hcopies, hcopy⟩ := (σ.resolve t).copies_copy hfresh hsize
    rw [copyWith_eq] at hf ⊢
    refine List.forall_mem_cons.mpr ⟨hcopy f hf, fun c hc => ?_⟩
    -- what the renaming knew before the latest copy it still knows
    obtain ⟨herase, hover⟩ := ih (hcopies.agrees hf) c hc
    exact ⟨herase, hover.imp hcopies.gives⟩
  | change h hσ ih => exact ih hf

/-- The variables of the copies have been made for them. -/
theorem made (h : σ₀.Series l ρ σ) : ∀ c ∈ l,
    c.copy.Over fun v => σ₀.size ≤ v.id ∧ v.id < σ.size := by
  obtain ⟨-, hfresh⟩ := h.fresh
  obtain ⟨f, -, hf⟩ := hfresh.exists_agrees
  exact fun c hc => (h.copies hf c hc).2.imp fun v ⟨i, hi⟩ => hfresh.made i v hi

end Series

end Store

/-- Head and body of a clause as a term share variables as they do in the clause. -/
theorem Clause.copies_toTerm (c : Clause) {u : Universe} (h : u.store.Acyclic) :
    ∃ f, Function.Injective f ∧ ∃ stamp head body,
      (c.toTerm u).1 = .compound stamp (neck u).1 [head, body] ∧
      head.erase = (u.store.resolve c.head).rename f ∧ body.erase = (u.store.resolve c.body).rename f := by
  let σ := u.store
  have hstart : σ.Series [] ∅ σ := .start
  have hseries := (hstart.copy c.head).copy c.body
  obtain ⟨f, hf, hagrees⟩ := hseries.fresh.2.exists_agrees
  have hcopies := hseries.copies hagrees
  rw [List.forall_mem_cons, List.forall_mem_singleton] at hcopies
  obtain ⟨⟨hbody, -⟩, hhead, -⟩ := hcopies
  refine ⟨f, hf, _, _, _, rfl, hhead, ?_⟩
  rw [← h.resolve_eq_of_extends (.copyWith c.head ∅ σ)]
  exact hbody

/-! ### The stack of copies -/

/-- Whoever stands in two lists put together stands in the first one or in the second one. -/
private theorem append_eq_append_cons {α : Type} {a : α} {l l' before after : List α}
    (h : l ++ l' = before ++ a :: after) : (∃ rest, l = before ++ a :: rest) ∨
      ∃ rest, before = l ++ rest ∧ l' = rest ++ a :: after := by
  obtain ⟨rest, hbefore, hl'⟩ | ⟨rest, hl, hafter⟩ := List.append_eq_append_iff.mp h
  · exact .inr ⟨rest, hbefore, hl'⟩
  · cases rest with
    | nil => exact .inr ⟨[], by simpa using hl.symm, hafter.symm⟩
    | cons b rest =>
      cases hafter
      exact .inl ⟨rest, hl⟩

namespace Store

variable {tag : Tag} {arity : Nat}

mutual

/-- Where a functor stands among the nodes of a tree, the copies of its arguments are on the stack. -/
theorem arity_le_of_nodes : ∀ (t : Tree) {before after : List Node} (stack : List Term) (ρ : Renaming)
    (σ : Store), t.nodes = before ++ .functor tag arity :: after →
      arity ≤ (copyNodes before stack ρ σ).1.length
  | .var v, before, after, stack, ρ, σ, h => by
    cases before <;> simp [Tree.nodes] at h
  | .const c, before, after, stack, ρ, σ, h => by
    cases before <;> simp [Tree.nodes] at h
  | .compound tag' args, before, after, stack, ρ, σ, h => by
    rw [Tree.nodes] at h
    obtain ⟨rest, hargs⟩ | ⟨rest, rfl, hlast⟩ := append_eq_append_cons h
    · exact arity_le_of_nodesAll args stack ρ σ hargs
    · -- the functor is that of the tree itself
      obtain rfl : rest = [] := by cases rest <;> simp at hlast; rfl
      obtain ⟨⟨-, harity⟩, -⟩ : (tag' = tag ∧ args.length = arity) ∧ after = [] := by simpa using hlast
      rw [copyNodes_nodesAll, ← harity]
      simp [copyNodes, Tree.length_copyAll]

theorem arity_le_of_nodesAll : ∀ (ts : List Tree) {before after : List Node} (stack : List Term)
    (ρ : Renaming) (σ : Store), Tree.nodesAll ts = before ++ .functor tag arity :: after →
      arity ≤ (copyNodes before stack ρ σ).1.length
  | [], before, after, stack, ρ, σ, h => by
    cases before <;> simp [Tree.nodesAll] at h
  | t :: ts, before, after, stack, ρ, σ, h => by
    rw [Tree.nodesAll] at h
    obtain ⟨rest, ht⟩ | ⟨rest, rfl, hts⟩ := append_eq_append_cons h
    · exact arity_le_of_nodes t stack ρ σ ht
    · rw [copyNodes_nodes]
      exact arity_le_of_nodesAll ts _ _ _ hts

end

/-- When all nodes have been read, the copy is the only term on the stack. -/
theorem copyNodes_postorder (t : Term) (ρ : Renaming) (σ : Store) :
    (copyNodes (σ.postorder t) [] ρ σ).1 = [(σ.copyWith t ρ).1] := by
  have h := copyNodes_nodes (σ.resolve t) [] [] ρ σ
  rw [List.append_nil] at h
  rw [copyWith_eq, postorder_eq, ← resolve_eq_treeWithin, h]
  rfl

/-! ### Copies -/

/-- A term in a store without circles is copied to a variant that nothing which happens to other variables
can change; terms that are copied one after the other share their variables. -/
theorem Acyclic.copies_apart {σ : Store} (h : σ.Acyclic) (t : Term) :
    -- the walk ends, and the copy is what the term denotes with other variables, distinct ones for
    -- distinct ones
    (∃ u f, σ.Denotes t u ∧ (∀ u', σ.Denotes t u' → u' = u) ∧
      (∀ n, σ.size ≤ n → σ.writeNodes [.walk n t] [] = σ.writeNodes [.walk σ.size t] []) ∧
      Function.Injective f ∧ (σ.copy t).1.erase = u.rename f ∧
      -- its variables are new, and unbound
      (σ.copy t).1.Over (fun v => σ.size ≤ v.id ∧ v.id < (σ.copy t).2.size ∧
        (σ.copy t).2.value? v = none) ∧
      -- whatever happens to other variables, it denotes the same; else an instance of it
      (∀ σ' : Store, (σ.copy t).1.Over (σ'.value? · = none) → σ'.Denotes (σ.copy t).1 (u.rename f)) ∧
      ∀ σ' : Store, σ'.resolve (σ.copy t).1 = (u.rename f).subst fun v => σ'.resolve (.var v)) ∧
    -- one function does for a whole series of copies with one renaming
    (∀ l ρ σ', σ.Series l ρ σ' → (∀ c ∈ l, c.store.Acyclic) → ∃ f, Function.Injective f ∧
      ρ.Agrees f ∧ ∀ c ∈ l, (∃ u, c.store.Denotes c.original u ∧ c.copy.erase = u.rename f) ∧
        c.copy.Over fun v => σ.size ≤ v.id ∧ v.id < σ'.size) ∧
    -- a renaming keeps what it gives
    (∀ (ρ : Renaming) (i : Nat) w, ρ[i]? = some w → (σ.copyWith t ρ).2.1[i]? = some w) ∧
    -- the stack holds the arguments of every functor, and one term at the end
    (∀ before tag arity after, σ.postorder t = before ++ .functor tag arity :: after →
      ∀ ρ, arity ≤ (copyNodes before [] ρ σ).1.length) ∧
    ∀ ρ, (copyNodes (σ.postorder t) [] ρ σ).1 = [(σ.copyWith t ρ).1] := by
  refine ⟨?_, fun l ρ σ' hl hacyclic => ?_, fun ρ i w hi => known_copyWith hi t σ,
    fun before tag arity after hnodes ρ => ?_, fun ρ => copyNodes_postorder t ρ σ⟩
  · obtain ⟨f, hf, hcopy⟩ := σ.variant_copy t
    have hover : (σ.copy t).1.Over fun v => σ.size ≤ v.id ∧ v.id < (σ.copy t).2.size ∧
        (σ.copy t).2.value? v = none := (σ.over_copy t).imp fun v hv =>
      ⟨hv.1, hv.2, ((Extends.copy t σ).value v).trans (value?_of_size_le hv.1)⟩
    refine ⟨σ.resolve t, f, h.denotes t, fun u' hu' => hu'.unique (h.denotes t),
      fun n hn => h.writeNodes_eq hn t, hf, hcopy, hover, fun σ' hσ' => hcopy ▸ hσ'.denotes,
      fun σ' => ?_⟩
    rw [resolve_eq_subst, hcopy]
  · obtain ⟨f, hf, hagrees⟩ := hl.fresh.2.exists_agrees
    exact ⟨f, hf, hagrees, fun c hc =>
      ⟨⟨_, (hacyclic c hc).denotes _, (hl.copies hagrees c hc).1⟩, hl.made c hc⟩⟩
  · rw [postorder_eq] at hnodes
    exact arity_le_of_nodes _ [] ρ σ hnodes

/-- The copy of a term in which one variable is bound has two new variables. -/
theorem copies_apart_sample : sampleBindings.Acyclic ∧ ∃ f : Var → Var, Function.Injective f ∧
    (sampleBindings.copy samplePair.1).1.erase =
      .compound ⟨1⟩ [.var (f ⟨2⟩), .compound ⟨0⟩ [.var (f ⟨0⟩)]] ∧
    (sampleBindings.copy samplePair.1).1.Over fun v => 3 ≤ v.id := by
  obtain ⟨u, f, hu, -, -, hf, hcopy, hover, -⟩ := (acyclic_sampleBindings.copies_apart samplePair.1).1
  obtain rfl := hu.unique (acyclic_sampleBindings.denotes _)
  rw [resolve_samplePair.1] at hcopy
  exact ⟨acyclic_sampleBindings, f, hf, hcopy, hover.imp fun v hv => hv.1⟩

end Store

end Resolvent
