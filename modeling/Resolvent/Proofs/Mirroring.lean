import Resolvent.Proofs.Standing
import Resolvent.Proofs.Surroundings
import Resolvent.Proofs.Undoing

/-!
# Stores that mirror each other

Two searches may do the same with different variables and with compounds that are built at different
times. A `Mirror` tells what of the one stands for what of the other: variables of the second store for
terms of the first one, and compounds by their stamps. `Mirror.Shows` carries this over to terms, and
`Mirror.Reflects` says of two stores that what is mirrored is mirrored all the way down, the unbound
variables of the two standing for each other one to one.

Unification keeps this up (`Mirror.Reflects.run`): it answers the same in both stores. A compound of the
first store may be mirrored by several of the second one if it has no variables; then two of these are
compared where the first search sees one structure, and nothing comes of it
(`Mirror.Reflects.skips_ground`).

What mirrors a term denotes the same tree with other variables, to any depth (`Mirror.Reflects.prune`).
-/

namespace Resolvent

/-! ### Reading variables -/

namespace Store

variable {σ σ' : Store} {v w : Var} {s t : Term}

/-- What holds of a variable if it holds of its binding holds of all terms. -/
theorem Rooted.induction (h : σ.Rooted) {motive : Term → Prop}
    (bound : ∀ v t, σ.value? v = some t → motive t → motive (.var v))
    (unbound : ∀ v, σ.value? v = none → motive (.var v))
    (nonvar : ∀ t, (∀ v, t ≠ .var v) → motive t) (t : Term) : motive t := by
  obtain ⟨rank, -, -, hlt⟩ := h.exists_rank
  have hvar : ∀ (n : Nat) (v : Var), rank v < n → motive (.var v) := by
    intro n
    induction n with
    | zero => exact fun v hv => absurd hv (Nat.not_lt_zero _)
    | succ n ih =>
      intro v hv
      cases hvalue : σ.value? v with
      | none => exact unbound v hvalue
      | some t =>
        refine bound v t hvalue ?_
        cases t with
        | var w => exact ih w (Nat.lt_of_lt_of_le (hlt v w hvalue) (Nat.le_of_lt_succ hv))
        | const c => exact nonvar _ (by simp)
        | compound stamp tag args => exact nonvar _ (by simp)
  cases t with
  | var v => exact hvar (rank v + 1) v (Nat.lt_succ_self _)
  | const c => exact nonvar _ (by simp)
  | compound stamp tag args => exact nonvar _ (by simp)

theorem deref_unbound (hv : σ.value? v = none) : σ.deref (.var v) = .var v := by
  rw [deref]
  cases σ.size <;> simp [derefWithin, hv]

/-- The reading of a variable goes on with that of its binding. -/
theorem Rooted.deref_bound (h : σ.Rooted) (hv : σ.value? v = some t) :
    σ.deref (.var v) = σ.deref t := by
  obtain ⟨rank, hle, hpos, hlt⟩ := h.exists_rank
  have hwithin : ∀ (n m : Nat) (t : Term), (∀ w, t = .var w → rank w ≤ n) → n ≤ m →
      σ.derefWithin m t = σ.derefWithin n t := by
    intro n
    induction n with
    | zero =>
      intro m t ht _
      cases t with
      | var w =>
        have hw : σ.value? w = none := by
          by_contra hw
          exact absurd (hpos w hw) (Nat.not_lt.mpr (ht w rfl))
        cases m <;> simp [derefWithin, hw]
      | _ => cases m <;> simp [derefWithin]
    | succ n ih =>
      intro m t ht hm
      obtain ⟨m, rfl⟩ : ∃ k, m = k + 1 := ⟨m - 1, by omega⟩
      cases t with
      | var w =>
        cases hw : σ.value? w with
        | none => simp [derefWithin, hw]
        | some t =>
          simp only [derefWithin, hw]
          refine ih m t (fun u hu => ?_) (by omega)
          have := hlt w u (by rw [Leads, hw, hu])
          have := ht w rfl
          omega
      | _ => simp [derefWithin]
  have hsize := hle v
  have hrank := hpos v (by rw [hv]; exact Option.some_ne_none t)
  obtain ⟨n, hn⟩ : ∃ n, σ.size = n + 1 := ⟨σ.size - 1, by omega⟩
  rw [deref, deref, hn, derefWithin, hv]
  refine (hwithin n (n + 1) t (fun w hw => ?_) (Nat.le_succ n)).symm
  have := hlt v w (by rw [Leads, hv, hw])
  omega

/-- Reading depends on the bindings only. -/
theorem Rooted.deref_eq (h : σ.Rooted) (hv : ∀ v, σ'.value? v = σ.value? v) (t : Term) :
    σ'.deref t = σ.deref t := by
  have hrooted : σ'.Rooted := fun v hvv => h v (Relation.TransGen.mono
    (fun u w huw => by rwa [Leads, ← hv u]) v v hvv)
  induction t using h.induction with
  | bound v t ht ih => rw [h.deref_bound ht, hrooted.deref_bound ((hv v).trans ht), ih]
  | unbound v hnone => rw [deref_unbound hnone, deref_unbound ((hv v).trans hnone)]
  | nonvar t ht => rw [deref_of_nonvar σ ht, deref_of_nonvar σ' ht]

/-- Between two stores only what is read at unbound variables changes. -/
structure Turns (σ σ' : Store) (f : Var → Term) : Prop where
  /-- Reading still ends. -/
  rooted : σ'.Rooted
  /-- A reading that ended at a variable ends at what the function gives for it. -/
  var : ∀ s v, σ.deref s = .var v → σ'.deref s = f v
  /-- The others end where they ended. -/
  nonvar : ∀ s, (∀ v, σ.deref s ≠ .var v) → σ'.deref s = σ.deref s

theorem Rooted.turns_refl (h : σ.Rooted) : σ.Turns σ .var :=
  ⟨h, fun _ _ hs => hs, fun _ _ => rfl⟩

/-- A variable gets a binding to what is no variable, or to another unbound one. -/
theorem Rooted.turns_bind (h : σ.Rooted) (hv : σ.Unbound v)
    (ht : ∀ w, t = .var w → w ≠ v ∧ σ.value? w = none) :
    σ.Turns (σ.bind v t) fun w => if w = v then t else .var w := by
  have hrooted := h.bind ht
  have hvalue : (σ.bind v t).value? v = some t := by rw [value?_bind, if_pos ⟨rfl, hv.lt⟩]
  have hother {w : Var} (hw : w ≠ v) : (σ.bind v t).value? w = σ.value? w := by
    rw [value?_bind, if_neg fun h => hw h.1.symm]
  have hboth (s : Term) : (∀ w, σ.deref s = .var w →
      (σ.bind v t).deref s = if w = v then t else .var w) ∧
      ((∀ w, σ.deref s ≠ .var w) → (σ.bind v t).deref s = σ.deref s) := by
    induction s using h.induction with
    | bound w s hs ih =>
      have hne : w ≠ v := by
        rintro rfl
        rw [hv.value] at hs
        cases hs
      rwa [h.deref_bound hs, hrooted.deref_bound ((hother hne).trans hs)]
    | unbound w hw =>
      rw [deref_unbound hw]
      refine ⟨fun u hu => ?_, fun hne => absurd rfl (hne w)⟩
      obtain rfl := Term.var.inj hu
      split
      · rename_i heq
        subst heq
        rw [hrooted.deref_bound hvalue]
        cases t with
        | var u => rw [deref_unbound ((hother (ht u rfl).1).trans (ht u rfl).2)]
        | _ => exact deref_of_nonvar _ (by simp)
      · exact deref_unbound ((hother ‹_›).trans hw)
    | nonvar s hs =>
      rw [deref_of_nonvar σ hs, deref_of_nonvar _ hs]
      exact ⟨fun w heq => absurd heq (hs w), fun _ => rfl⟩
  exact ⟨hrooted, fun s => (hboth s).1, fun s => (hboth s).2⟩

theorem Unbound.bind (h : σ.Unbound v) (hvw : v ≠ w) (t : Term) : (σ.bind w t).Unbound v :=
  ⟨(size_bind w t σ).symm ▸ h.lt, by rw [value?_bind, if_neg fun heq => hvw heq.1.symm, h.value]⟩

end Store

/-! ### Mirrors -/

/-- What of one store stands for what of another one. -/
structure Mirror where
  /-- The variable of the second store stands for the term over the first one. -/
  reads : Term → Var → Prop
  /-- Compounds of the second stamp stand for those of the first one. -/
  stamps : Nat → Nat → Prop
  /-- The compounds over the first store. -/
  content : Nat → Tag × List Term

namespace Mirror

variable {M M' : Mirror} {P : Var → Prop} {E : Var → Var → Prop} {n : Nat} {σ σ' : Store}

/-- The second term mirrors the first one. Every constant in it unifies with itself. -/
inductive Shows (M : Mirror) : Term → Term → Prop
  | reads {s : Term} {w : Var} (h : M.reads s w) : Shows M s (.var w)
  | const {c : Constant} (hc : c.unifies c = true) : Shows M (.const c) (.const c)
  | compound {i j : Nat} {tag : Tag} {ss ts : List Term} (hstamps : M.stamps i j)
    (hcontent : M.content i = (tag, ss)) (hargs : List.Forall₂ (Shows M) ss ts) :
    Shows M (.compound i tag ss) (.compound j tag ts)

/-- The second term, whose binding has been read, mirrors the first one, unbound variables being related
to each other. -/
inductive Faces (M : Mirror) (E : Var → Var → Prop) : Term → Term → Prop
  | var {v w : Var} (h : E v w) : Faces M E (.var v) (.var w)
  | const {c : Constant} (hc : c.unifies c = true) : Faces M E (.const c) (.const c)
  | compound {i j : Nat} {tag : Tag} {ss ts : List Term} (hstamps : M.stamps i j)
    (hcontent : M.content i = (tag, ss)) (hargs : List.Forall₂ M.Shows ss ts) :
    Faces M E (.compound i tag ss) (.compound j tag ts)

/-- A compound mirrors one compound only, and is the only one to do so if that has variables. -/
structure Sound (M : Mirror) : Prop where
  /-- It mirrors one compound only. -/
  unique : ∀ i i' j, M.stamps i j → M.stamps i' j → i = i'
  /-- Several may mirror a compound without variables. -/
  shared : ∀ i j j', M.stamps i j → M.stamps i j' → j = j' ∨ ∀ t ∈ (M.content i).2, t.Ground

/-- One mirror shows what another one shows. -/
structure Le (M M' : Mirror) : Prop where
  /-- Variables stand for what they stood for. -/
  reads : ∀ s w, M.reads s w → M'.reads s w
  /-- Compounds mirror what they mirrored. -/
  stamps : ∀ i j, M.stamps i j → M'.stamps i j ∧ M'.content i = M.content i

theorem Le.refl (M : Mirror) : M.Le M :=
  ⟨fun _ _ h => h, fun _ _ h => ⟨h, rfl⟩⟩

theorem Le.trans {M'' : Mirror} (h : M.Le M') (h' : M'.Le M'') : M.Le M'' :=
  ⟨fun s w hs => h'.reads s w (h.reads s w hs), fun i j hi => by
    obtain ⟨hi', hc⟩ := h.stamps i j hi
    obtain ⟨hi'', hc'⟩ := h'.stamps i j hi'
    exact ⟨hi'', hc'.trans hc⟩⟩

theorem forall₂_imp_of_mem {R R' : Term → Term → Prop} : ∀ {ss ts : List Term},
    (∀ s ∈ ss, ∀ t, R s t → R' s t) → List.Forall₂ R ss ts → List.Forall₂ R' ss ts
  | [], _, _, .nil => .nil
  | _ :: _, _, h, .cons hs hss =>
    .cons (h _ List.mem_cons_self _ hs) (forall₂_imp_of_mem (fun s hs => h s (List.mem_cons_of_mem _ hs)) hss)

theorem Le.shows (h : M.Le M') {s t : Term} : M.Shows s t → M'.Shows s t := by
  induction s using Term.induction generalizing t with
  | compound i tag ss ih =>
    rintro (hs | _ | ⟨hstamps, hcontent, hargs⟩)
    · exact .reads (h.reads _ _ hs)
    · obtain ⟨hstamps', hcontent'⟩ := h.stamps _ _ hstamps
      exact .compound hstamps' (hcontent'.trans hcontent) (forall₂_imp_of_mem (fun s hs t => ih s hs) hargs)
  | _ =>
    rintro (hs | hc)
    · exact .reads (h.reads _ _ hs)
    all_goals exact .const hc

theorem Le.faces (h : M.Le M') {E' : Var → Var → Prop} {s t : Term}
    (hE : ∀ v w, s = .var v → E v w → E' v w) :
    M.Faces E s t → M'.Faces E' s t
  | .var hvw => .var (hE _ _ rfl hvw)
  | .const hc => .const hc
  | .compound hstamps hcontent hargs =>
    .compound (h.stamps _ _ hstamps).1 ((h.stamps _ _ hstamps).2.trans hcontent)
      (hargs.imp fun _ _ => h.shows)

/-- One more variable stands for a term. -/
def read (M : Mirror) (s : Term) (w : Var) : Mirror :=
  { M with reads := fun t u => M.reads t u ∨ t = s ∧ u = w }

theorem le_read (M : Mirror) (s : Term) (w : Var) : M.Le (M.read s w) :=
  ⟨fun _ _ h => .inl h, fun _ _ h => ⟨h, rfl⟩⟩

/-- The terms of the second pair mirror those of the first one. -/
def ShowsPair (M : Mirror) (p q : Term × Term) : Prop :=
  M.Shows p.1 q.1 ∧ M.Shows p.2 q.2

theorem showsPair_zip : ∀ {ss ss' ts ts' : List Term}, List.Forall₂ M.Shows ss ss' →
    List.Forall₂ M.Shows ts ts' → List.Forall₂ M.ShowsPair (ss.zip ts) (ss'.zip ts')
  | _, _, _, _, .nil, _ => by simp
  | _, _, _, _, .cons _ _, .nil => by simp
  | _, _, _, _, .cons hs hss, .cons ht hts => .cons ⟨hs, ht⟩ (showsPair_zip hss hts)

/-- Unbound variables of two stores are related one to one, of the first `n` variables each with itself
only; and the pending ones of the second store are unbound and not related. -/
structure Pairing (n : Nat) (P : Var → Prop) (E : Var → Var → Prop) (σ σ' : Store) : Prop where
  /-- The related variables are unbound. -/
  unbound : ∀ v w, E v w → σ.Unbound v ∧ σ'.Unbound w
  /-- A variable has one counterpart. -/
  functional : ∀ v w w', E v w → E v w' → w = w'
  /-- A variable is the counterpart of one. -/
  injective : ∀ v v' w, E v w → E v' w → v = v'
  /-- The first variables are their own counterparts. -/
  old : ∀ v w, E v w → v.id < n ∨ w.id < n → v = w
  /-- Pending variables are unbound and not related. -/
  pending : ∀ w, P w → σ'.Unbound w ∧ ∀ v, ¬ E v w

namespace Pairing

/-- Some of the pairs and of the pending variables, if these variables are still unbound. -/
theorem restrict (h : Pairing n P E σ σ') {P' : Var → Prop} {E' : Var → Var → Prop} {σ₁ σ₁' : Store}
    (hE : ∀ v w, E' v w → E v w ∧ σ₁.Unbound v ∧ σ₁'.Unbound w)
    (hP : ∀ w, P' w → P w ∧ σ₁'.Unbound w) : Pairing n P' E' σ₁ σ₁' :=
  ⟨fun v w hvw => (hE v w hvw).2, fun v w w' hvw hvw' => h.functional v w w' (hE v w hvw).1 (hE v w' hvw').1,
    fun v v' w hvw hvw' => h.injective v v' w (hE v w hvw).1 (hE v' w hvw').1,
    fun v w hvw => h.old v w (hE v w hvw).1,
    fun w hw => ⟨(hP w hw).2, fun v hvw => (h.pending w (hP w hw).1).2 v (hE v w hvw).1⟩⟩

/-- One more pair. -/
theorem add (h : Pairing n P E σ σ') {a b : Var} (ha : σ.Unbound a) (hb : σ'.Unbound b)
    (ha' : ∀ w, ¬ E a w) (hb' : ∀ v, ¬ E v b) (hold : a.id < n ∨ b.id < n → a = b) (hP : ¬ P b) :
    Pairing n P (fun v w => E v w ∨ v = a ∧ w = b) σ σ' := by
  refine ⟨?_, ?_, ?_, ?_, fun w hw => ⟨(h.pending w hw).1, ?_⟩⟩
  · rintro v w (hvw | ⟨rfl, rfl⟩)
    · exact h.unbound v w hvw
    · exact ⟨ha, hb⟩
  · rintro v w w' (hvw | ⟨rfl, rfl⟩) (hvw' | ⟨heq, rfl⟩)
    · exact h.functional v w w' hvw hvw'
    · exact absurd (heq ▸ hvw) (ha' w)
    · exact absurd hvw' (ha' w')
    · rfl
  · rintro v v' w (hvw | ⟨rfl, rfl⟩) (hvw' | ⟨rfl, heq⟩)
    · exact h.injective v v' w hvw hvw'
    · exact absurd (heq ▸ hvw) (hb' v)
    · exact absurd hvw' (hb' v')
    · rfl
  · rintro v w (hvw | ⟨rfl, rfl⟩)
    · exact h.old v w hvw
    · exact hold
  · rintro v (hvw | ⟨rfl, rfl⟩)
    · exact (h.pending w hw).2 v hvw
    · exact hP hw

/-- Of two variables of which the older one is among the first, the counterparts stand in the same
order. -/
theorem order (h : Pairing n P E σ σ') {v v' w w' : Var} (hvw : E v w) (hvw' : E v' w')
    (hlt : v'.id < v.id) (hold : v'.id < n ∨ w.id < n) : w'.id < w.id := by
  have hv' : v'.id < n := by
    obtain hv' | hw := hold
    · exact hv'
    · rw [← h.old v w hvw (.inr hw)] at hw
      omega
  rw [← h.old v' w' hvw' (.inl hv')]
  by_contra hw
  have := h.old v w hvw (.inr (by omega))
  subst this
  exact hw hlt

theorem not_pending (h : Pairing n P E σ σ') {v w : Var} (hvw : E v w) : ¬ P w :=
  fun hw => (h.pending w hw).2 v hvw

/-- Pending variables stay unbound. -/
theorem pending_bind (h : Pairing n P E σ σ') {v w : Var} (hvw : E v w) (t : Term) (u : Var) (hu : P u) :
    P u ∧ (σ'.bind w t).Unbound u :=
  ⟨hu, (h.pending u hu).1.bind (fun heq : u = w => h.not_pending hvw (heq ▸ hu)) t⟩

/-- Related variables get bindings. -/
theorem bind (h : Pairing n P E σ σ') {v w : Var} (hvw : E v w) (s t : Term) :
    Pairing n P (fun v' w' => E v' w' ∧ v' ≠ v) (σ.bind v s) (σ'.bind w t) :=
  h.restrict (fun v' w' ⟨hvw', hne⟩ => ⟨hvw', (h.unbound v' w' hvw').1.bind hne s,
    (h.unbound v' w' hvw').2.bind (fun heq => hne (h.injective v' v w' hvw' (heq ▸ hvw))) t⟩)
    (h.pending_bind hvw t)

end Pairing

/-- The stores mirror each other: unbound variables are related, and what mirrors a term mirrors what is
read there. -/
structure Reflects (M : Mirror) (n : Nat) (P : Var → Prop) (E : Var → Var → Prop) (σ σ' : Store) :
    Prop where
  /-- Unbound variables are related. -/
  pairing : Pairing n P E σ σ'
  /-- In the first store reading ends. -/
  rooted : σ.Rooted
  /-- In the second store reading ends. -/
  rooted' : σ'.Rooted
  /-- What is read there is mirrored. -/
  reads : ∀ s w, M.reads s w → M.Faces E (σ.deref s) (σ'.deref (.var w))

namespace Reflects

theorem faces (h : M.Reflects n P E σ σ') {s t : Term} : M.Shows s t → M.Faces E (σ.deref s) (σ'.deref t)
  | .reads hs => h.reads _ _ hs
  | .const hc => by
    rw [Store.deref_of_nonvar σ (by simp), Store.deref_of_nonvar σ' (by simp)]
    exact .const hc
  | .compound hstamps hcontent hargs => by
    rw [Store.deref_of_nonvar σ (by simp), Store.deref_of_nonvar σ' (by simp)]
    exact .compound hstamps hcontent hargs

/-- The stores still mirror each other if what related variables turn into does. -/
theorem turn (h : M.Reflects n P E σ σ') {P' : Var → Prop} {E' : Var → Var → Prop} {σ₁ σ₁' : Store}
    {f g : Var → Term} (hσ : σ.Turns σ₁ f) (hσ' : σ'.Turns σ₁' g) (hpairing : Pairing n P' E' σ₁ σ₁')
    (hE : ∀ v w, E v w → M.Faces E' (f v) (g w)) : M.Reflects n P' E' σ₁ σ₁' := by
  refine ⟨hpairing, hσ.rooted, hσ'.rooted, fun s w hs => ?_⟩
  have hf := h.reads s w hs
  generalize hd : σ.deref s = a at hf
  generalize hd' : σ'.deref (.var w) = b at hf
  cases hf with
  | var hvw =>
    rw [hσ.var s _ hd, hσ'.var _ _ hd']
    exact hE _ _ hvw
  | const hc =>
    rw [hσ.nonvar s (by simp [hd]), hσ'.nonvar _ (by simp [hd']), hd, hd']
    exact .const hc
  | compound hstamps hcontent hargs =>
    rw [hσ.nonvar s (by simp [hd]), hσ'.nonvar _ (by simp [hd']), hd, hd']
    exact .compound hstamps hcontent hargs

/-- More may be shown, if what stands for a term mirrors what is read there. -/
theorem read (h : M.Reflects n P E σ σ') {s : Term} {w : Var}
    (hf : M.Faces E (σ.deref s) (σ'.deref (.var w))) : (M.read s w).Reflects n P E σ σ' := by
  refine ⟨h.pairing, h.rooted, h.rooted', ?_⟩
  rintro s' w' (hs | ⟨rfl, rfl⟩)
  · exact (M.le_read s w).faces (fun _ _ _ hE => hE) (h.reads s' w' hs)
  · exact (M.le_read s' w').faces (fun _ _ _ hE => hE) hf

/-- Related variables are bound to what mirrors each other. -/
theorem bind (h : M.Reflects n P E σ σ') {v w : Var} {s t : Term} (hvw : E v w) (hst : M.Faces E s t)
    (hs : s ≠ .var v) :
    M.Reflects n P (fun v' w' => E v' w' ∧ v' ≠ v) (σ.bind v s) (σ'.bind w t) := by
  obtain ⟨hv, hw⟩ := h.pairing.unbound v w hvw
  have hst' : M.Faces (fun v' w' => E v' w' ∧ v' ≠ v) s t :=
    (Le.refl M).faces (fun u _ hu hE => ⟨hE, fun heq => hs (heq ▸ hu)⟩) hst
  have hvar : (∀ u, s = .var u → u ≠ v ∧ σ.value? u = none) ∧
      ∀ u, t = .var u → u ≠ w ∧ σ'.value? u = none := by
    cases hst with
    | @var p q hpq =>
      obtain ⟨hp, hq⟩ := h.pairing.unbound p q hpq
      have hne : p ≠ v := fun heq => hs (heq ▸ rfl)
      refine ⟨fun u hu => ?_, fun u hu => ?_⟩ <;> cases hu
      · exact ⟨hne, hp.value⟩
      · exact ⟨fun heq => hne (h.pairing.injective p v q hpq (heq ▸ hvw)), hq.value⟩
    | _ => simp
  refine h.turn (h.rooted.turns_bind hv hvar.1) (h.rooted'.turns_bind hw hvar.2) (h.pairing.bind hvw s t)
    fun p q hpq => ?_
  by_cases hp : p = v
  · subst hp
    rw [if_pos rfl, if_pos (h.pairing.functional p q w hpq hvw)]
    exact hst'
  · have hq : q ≠ w := fun hq => hp (h.pairing.injective p v q hpq (hq ▸ hvw))
    rw [if_neg hp, if_neg hq]
    exact .var ⟨hpq, hp⟩

/-- A variable is bound to another one, and the counterpart of that to its counterpart; so those left
unbound are related. -/
theorem cross (h : M.Reflects n P E σ σ') {v v' w w' : Var} (hvw : E v w) (hvw' : E v' w') (hne : v ≠ v')
    (hold : v'.id < n ∨ w.id < n → v' = w) :
    M.Reflects n P (fun p q => (E p q ∧ p ≠ v ∧ p ≠ v') ∨ p = v' ∧ q = w) (σ.bind v (.var v'))
      (σ'.bind w' (.var w)) := by
  obtain ⟨hv, hw⟩ := h.pairing.unbound v w hvw
  obtain ⟨hv', hw'⟩ := h.pairing.unbound v' w' hvw'
  have hne' : w ≠ w' := fun heq => hne (h.pairing.injective v v' w hvw (heq ▸ hvw'))
  have hothers {p q : Var} (hpq : E p q) : (p ≠ v → q ≠ w) ∧ (p ≠ v' → q ≠ w') :=
    ⟨fun hp heq => hp (h.pairing.injective p v q hpq (heq ▸ hvw)),
      fun hp heq => hp (h.pairing.injective p v' q hpq (heq ▸ hvw'))⟩
  have hturns : σ.Turns (σ.bind v (.var v')) _ := h.rooted.turns_bind hv fun u hu => by
    cases hu
    exact ⟨hne.symm, hv'.value⟩
  have hturns' : σ'.Turns (σ'.bind w' (.var w)) _ := h.rooted'.turns_bind hw' fun u hu => by
    cases hu
    exact ⟨hne', hw.value⟩
  have hrest : Pairing n P (fun p q => E p q ∧ p ≠ v ∧ p ≠ v') (σ.bind v (.var v')) (σ'.bind w' (.var w)) :=
    h.pairing.restrict (fun p q ⟨hpq, hp, hp'⟩ => ⟨hpq, (h.pairing.unbound p q hpq).1.bind hp _,
      (h.pairing.unbound p q hpq).2.bind ((hothers hpq).2 hp') _⟩) (h.pairing.pending_bind hvw' _)
  refine h.turn hturns hturns' (hrest.add (hv'.bind hne.symm _) (hw.bind hne' _) (fun q hq => hq.2.2 rfl)
    (fun p hp => (hothers hp.1).1 hp.2.1 rfl) hold (h.pairing.not_pending hvw)) fun p q hpq => ?_
  by_cases hp : p = v
  · subst hp
    obtain rfl := h.pairing.functional p q w hpq hvw
    rw [if_pos rfl, if_neg hne']
    exact .var (.inr ⟨rfl, rfl⟩)
  by_cases hp' : p = v'
  · subst hp'
    obtain rfl := h.pairing.functional p q w' hpq hvw'
    rw [if_neg hp, if_pos rfl]
    exact .var (.inr ⟨rfl, rfl⟩)
  · rw [if_neg hp, if_neg ((hothers hpq).2 hp')]
    exact .var (.inl ⟨hpq, hp, hp'⟩)

/-! ### Unification -/

section Unification

variable {α β : Type} {s s' t t' : Term} {ss : List Term}

/-- Of two variables and of their counterparts, the younger one is bound to the older one. -/
theorem orient (h : M.Reflects n P E σ σ') {v v' w w' : Var} (hvw : E v w) (hvw' : E v' w') (hne : v ≠ v')
    (τ : Trail α) (τ' : Trail β) : ∃ E', M.Reflects n P E'
      (if v'.id < v.id then τ.bind v (.var v') σ else τ.bind v' (.var v) σ).1
      (if w'.id < w.id then τ'.bind w (.var w') σ' else τ'.bind w' (.var w) σ').1 := by
  by_cases hlt : v'.id < v.id <;> by_cases hlt' : w'.id < w.id
  · rw [if_pos hlt, if_pos hlt']
    exact ⟨_, h.bind hvw (.var hvw') fun hv => hne (Term.var.inj hv).symm⟩
  · rw [if_pos hlt, if_neg hlt']
    exact ⟨_, h.cross hvw hvw' hne fun hold => absurd (h.pairing.order hvw hvw' hlt hold) hlt'⟩
  · rw [if_neg hlt, if_pos hlt']
    refine ⟨_, h.cross hvw' hvw hne.symm fun hold => ?_⟩
    have hvv' : v.id < v'.id := Nat.lt_of_le_of_ne (Nat.le_of_not_lt hlt) fun hid => hne (by
      cases v; cases v'; exact congrArg Var.mk hid)
    exact absurd (h.pairing.order hvw' hvw hvv' hold) (Nat.not_lt.mpr (Nat.le_of_lt hlt'))
  · rw [if_neg hlt, if_neg hlt']
    exact ⟨_, h.bind hvw' (.var hvw) fun hv => hne (Term.var.inj hv)⟩

/-- A step in both stores: the terms clash in both, or what is left mirrors each other, or the second
search has two compounds where the first one sees one without variables. -/
theorem step (hM : M.Sound) (h : M.Reflects n P E σ σ') (hs : M.Shows s s') (ht : M.Shows t t')
    (rest rest' : List (Term × Term)) (τ : Trail α) (τ' : Trail β) :
    (unifyStep s t rest σ τ = none ∧ unifyStep s' t' rest' σ' τ' = none) ∨
    (∃ pairs pairs' E' σ₁ σ₁' τ₁ τ₁', unifyStep s t rest σ τ = some (pairs ++ rest, σ₁, τ₁) ∧
      unifyStep s' t' rest' σ' τ' = some (pairs' ++ rest', σ₁', τ₁') ∧
      List.Forall₂ M.ShowsPair pairs pairs' ∧ M.Reflects n P E' σ₁ σ₁') ∨
    ∃ ss ts ts', unifyStep s t rest σ τ = some (rest, σ, τ) ∧
      unifyStep s' t' rest' σ' τ' = some (ts.zip ts' ++ rest', σ', τ') ∧ (∀ s ∈ ss, s.Ground) ∧
      List.Forall₂ M.Shows ss ts ∧ List.Forall₂ M.Shows ss ts' := by
  have hfs := h.faces hs
  have hft := h.faces ht
  unfold unifyStep
  generalize σ.deref s = a at *
  generalize σ.deref t = b at *
  generalize σ'.deref s' = a' at *
  generalize σ'.deref t' = b' at *
  cases hfs with
  | @var v w hvw =>
    have hleft {b b' : Term} (hft : M.Faces E b b') (hb : ∀ u, b ≠ .var u) :=
      h.bind hvw hft (hb v)
    cases hft with
    | @var v' w' hvw' =>
      dsimp only
      by_cases heq : v = v'
      · subst heq
        obtain rfl := h.pairing.functional v w w' hvw hvw'
        rw [if_pos rfl, if_pos rfl]
        exact .inr (.inl ⟨[], [], E, σ, σ', τ, τ', rfl, rfl, .nil, h⟩)
      · have hne : w ≠ w' := fun hw => heq (h.pairing.injective v v' w hvw (hw ▸ hvw'))
        rw [if_neg heq, if_neg hne]
        obtain ⟨E', horient⟩ := h.orient hvw hvw' heq τ τ'
        exact .inr (.inl ⟨[], [], E', _, _, _, _, rfl, rfl, .nil, horient⟩)
    | const hc => exact .inr (.inl ⟨[], [], _, _, _, _, _, rfl, rfl, .nil, hleft (.const hc) (by simp)⟩)
    | compound hstamps hcontent hargs =>
      exact .inr (.inl ⟨[], [], _, _, _, _, _, rfl, rfl, .nil,
        hleft (.compound hstamps hcontent hargs) (by simp)⟩)
  | @const c hc =>
    cases hft with
    | var hvw =>
      exact .inr (.inl ⟨[], [], _, _, _, _, _, rfl, rfl, .nil, h.bind hvw (.const hc) (by simp)⟩)
    | @const d =>
      dsimp only
      split
      · exact .inr (.inl ⟨[], [], E, σ, σ', τ, τ', rfl, rfl, .nil, h⟩)
      · exact .inl ⟨rfl, rfl⟩
    | compound => exact .inl ⟨rfl, rfl⟩
  | @compound i j f ss ts hstamps hcontent hargs =>
    cases hft with
    | var hvw =>
      exact .inr (.inl ⟨[], [], _, _, _, _, _, rfl, rfl, .nil,
        h.bind hvw (.compound hstamps hcontent hargs) (by simp)⟩)
    | const => exact .inl ⟨rfl, rfl⟩
    | @compound i' j' f' ss' ts' hstamps' hcontent' hargs' =>
      dsimp only
      by_cases hj : j = j'
      · subst hj
        obtain rfl := hM.unique i i' j hstamps hstamps'
        rw [if_pos rfl, if_pos rfl]
        exact .inr (.inl ⟨[], [], E, σ, σ', τ, τ', rfl, rfl, .nil, h⟩)
      rw [if_neg hj]
      by_cases hi : i = i'
      · subst hi
        obtain ⟨rfl, rfl⟩ := Prod.mk.inj (hcontent.symm.trans hcontent')
        have hground := (hM.shared i j j' hstamps hstamps').resolve_left hj
        rw [hcontent] at hground
        rw [if_pos rfl, if_pos rfl]
        exact .inr (.inr ⟨ss, ts, ts', rfl, rfl, hground, hargs, hargs'⟩)
      rw [if_neg hi]
      split
      · exact .inr (.inl ⟨_, _, E, σ, σ', τ, τ', rfl, rfl, showsPair_zip hargs hargs', h⟩)
      · exact .inl ⟨rfl, rfl⟩

/-- Two compounds that mirror the same one, which has no variables, unify without anything being bound. -/
theorem skips_all (hskips : ∀ s ∈ ss, ∀ t t', M.Shows s t → M.Shows s t' → ∃ k, ∀ m rest (τ : Trail β),
      unifyPairs (k + m) ((t, t') :: rest) σ' τ = unifyPairs m rest σ' τ) :
    ∀ {ts ts' : List Term}, List.Forall₂ M.Shows ss ts → List.Forall₂ M.Shows ss ts' →
      ∃ k, ∀ m rest (τ : Trail β), unifyPairs (k + m) (ts.zip ts' ++ rest) σ' τ = unifyPairs m rest σ' τ := by
  induction ss with
  | nil =>
    rintro _ _ ⟨⟩ ⟨⟩
    exact ⟨0, fun m rest τ => by simp⟩
  | cons s ss ih =>
    rintro _ _ (_ | ⟨ht, hts⟩) (_ | ⟨ht', hts'⟩)
    rw [List.forall_mem_cons] at hskips
    obtain ⟨k, hk⟩ := hskips.1 _ _ ht ht'
    obtain ⟨l, hl⟩ := ih hskips.2 hts hts'
    refine ⟨k + l, fun m rest τ => ?_⟩
    rw [List.zip_cons_cons, List.cons_append, Nat.add_assoc, hk, hl]

theorem skips_ground (h : M.Reflects n P E σ σ') (hs : s.Ground) : ∀ {t t' : Term}, M.Shows s t →
    M.Shows s t' → ∃ k, ∀ m rest (τ : Trail β),
      unifyPairs (k + m) ((t, t') :: rest) σ' τ = unifyPairs m rest σ' τ := by
  induction hs with
  | const c =>
    intro t t' ht ht'
    have hft := h.faces ht
    have hft' := h.faces ht'
    rw [Store.deref_of_nonvar σ (by simp)] at hft hft'
    refine ⟨1, fun m rest τ => ?_⟩
    rw [Nat.add_comm, unifyPairs_cons, unifyStep]
    generalize σ'.deref t = a at *
    generalize σ'.deref t' = a' at *
    cases hft with | const hc =>
    cases hft' with | const =>
    dsimp only
    rw [if_pos hc, Option.elim_some]
  | compound stamp tag hargs ih =>
    intro t t' ht ht'
    have hft := h.faces ht
    have hft' := h.faces ht'
    rw [Store.deref_of_nonvar σ (by simp)] at hft hft'
    generalize hd : σ'.deref t = a at hft
    generalize hd' : σ'.deref t' = a' at hft'
    cases hft with | @compound _ j _ _ ts _ _ hts =>
    cases hft' with | @compound _ j' _ _ ts' _ _ hts' =>
    obtain ⟨k, hk⟩ := skips_all (fun s hs _ _ => ih s hs) hts hts'
    by_cases hj : j = j'
    · refine ⟨1, fun m rest τ => ?_⟩
      rw [Nat.add_comm, unifyPairs_cons, unifyStep, hd, hd']
      dsimp only
      rw [if_pos hj, Option.elim_some]
    · refine ⟨k + 1, fun m rest τ => ?_⟩
      rw [Nat.add_right_comm, unifyPairs_cons, unifyStep, hd, hd']
      dsimp only
      rw [if_neg hj, if_pos rfl, Option.elim_some, hk]

/-- What unification has left to do in the second store after it has succeeded in the first one. -/
theorem run (hM : M.Sound) (k : Nat) {pairs pairs' : List (Term × Term)} (rest : List (Term × Term))
    (τ : Trail α) (τ' : Trail β) (h : M.Reflects n P E σ σ')
    (hpairs : List.Forall₂ M.ShowsPair pairs pairs') :
    ((unifyPairs k pairs σ τ).1 = some true → ∃ E' σ₁' τ₁' l,
      M.Reflects n P E' (unifyPairs k pairs σ τ).2.1 σ₁' ∧
      ∀ m, unifyPairs (l + m) (pairs' ++ rest) σ' τ' = unifyPairs m rest σ₁' τ₁') ∧
    ((unifyPairs k pairs σ τ).1 = some false →
      ∃ l, (unifyPairs l (pairs' ++ rest) σ' τ').1 = some false) ∧
    ((unifyPairs k pairs σ τ).1 = none → (unifyPairs k (pairs' ++ rest) σ' τ').1 = none) := by
  induction k generalizing pairs pairs' E σ σ' τ τ' with
  | zero => simp [unifyPairs]
  | succ k ih =>
    cases hpairs with
    | nil => exact ⟨fun _ => ⟨E, σ', τ', 0, h, fun m => by simp⟩, by simp [unifyPairs], by simp [unifyPairs]⟩
    | @cons p p' pairs pairs' hst hpairs =>
      obtain ⟨s, t⟩ := p
      obtain ⟨s', t'⟩ := p'
      rw [unifyPairs_cons]
      obtain ⟨hnone, hnone'⟩ | ⟨more, more', E', σ₁, σ₁', τ₁, τ₁', hsome, hsome', hmore, h'⟩ |
        ⟨ss, ts, ts', hsome, hsome', hground, hts, hts'⟩ :=
          h.step hM hst.1 hst.2 pairs (pairs' ++ rest) τ τ'
      · rw [hnone, Option.elim_none]
        refine ⟨by simp, fun _ => ⟨1, ?_⟩, by simp⟩
        rw [List.cons_append, unifyPairs_cons, hnone', Option.elim_none]
      · rw [hsome, Option.elim_some]
        have hrest (m : Nat) : unifyPairs (m + 1) ((s', t') :: pairs' ++ rest) σ' τ' =
            unifyPairs m ((more' ++ pairs') ++ rest) σ₁' τ₁' := by
          rw [List.cons_append, unifyPairs_cons, hsome', Option.elim_some, List.append_assoc]
        obtain ⟨htrue, hfalse, hspent⟩ := ih τ₁ τ₁' h' (List.rel_append hmore hpairs)
        refine ⟨fun hanswer => ?_, fun hanswer => ?_, fun hanswer => ?_⟩
        · obtain ⟨E'', σ₂', τ₂', l, hreflects, hl⟩ := htrue hanswer
          refine ⟨E'', σ₂', τ₂', l + 1, hreflects, fun m => ?_⟩
          rw [Nat.add_right_comm, hrest, hl]
        · obtain ⟨l, hl⟩ := hfalse hanswer
          exact ⟨l + 1, by rw [hrest, hl]⟩
        · rw [hrest, hspent hanswer]
      · rw [hsome, Option.elim_some]
        obtain ⟨j, hj⟩ := skips_all (β := β) (fun s hs _ _ => h.skips_ground (hground s hs)) hts hts'
        have hrest (m : Nat) : unifyPairs (j + m + 1) ((s', t') :: pairs' ++ rest) σ' τ' =
            unifyPairs m (pairs' ++ rest) σ' τ' := by
          rw [List.cons_append, unifyPairs_cons, hsome', Option.elim_some, hj]
        obtain ⟨htrue, hfalse, hspent⟩ := ih τ τ' h hpairs
        refine ⟨fun hanswer => ?_, fun hanswer => ?_, fun hanswer => ?_⟩
        · obtain ⟨E'', σ₂', τ₂', l, hreflects, hl⟩ := htrue hanswer
          refine ⟨E'', σ₂', τ₂', j + l + 1, hreflects, fun m => ?_⟩
          rw [Nat.add_right_comm, Nat.add_assoc j, hrest, hl]
        · obtain ⟨l, hl⟩ := hfalse hanswer
          exact ⟨j + l + 1, by rw [hrest, hl]⟩
        · -- an answer in so many steps would still be there after those that the compounds take
          cases hx : unifyPairs (k + 1) ((s', t') :: pairs' ++ rest) σ' τ' with | mk answer r =>
          cases answer with
          | none => rfl
          | some b =>
            have hlonger := unifyPairs_of_le (m := j + k + 1) (by omega) hx
            rw [hrest] at hlonger
            rw [hlonger] at hspent
            exact absurd (hspent hanswer) (by simp)

end Unification

/-! ### Pending variables -/

/-- A pending variable that is bound to what mirrors a term stands for that term from then on. -/
theorem read_bind (h : M.Reflects n P E σ σ') {s t : Term} {w : Var} (hw : P w)
    (ht : ∀ u, t = .var u → u ≠ w ∧ σ'.value? u = none) (hst : M.Faces E (σ.deref s) t) :
    (M.read s w).Reflects n (fun u => P u ∧ u ≠ w) E σ (σ'.bind w t) := by
  obtain ⟨hunbound, hnone⟩ := h.pairing.pending w hw
  have hturns := h.rooted'.turns_bind hunbound ht
  have hne {v u : Var} (hvu : E v u) : u ≠ w := fun heq => hnone v (heq ▸ hvu)
  have hpairing : Pairing n (fun u => P u ∧ u ≠ w) E σ (σ'.bind w t) :=
    h.pairing.restrict (fun v u hvu => ⟨hvu, (h.pairing.unbound v u hvu).1,
      (h.pairing.unbound v u hvu).2.bind (hne hvu) t⟩)
      fun u hu => ⟨hu.1, (h.pairing.pending u hu.1).1.bind hu.2 t⟩
  refine (h.turn h.rooted.turns_refl hturns hpairing fun v u hvu => ?_).read ?_
  · rw [if_neg (hne hvu)]
    exact .var hvu
  · rw [hturns.var _ _ (Store.deref_unbound hunbound.value), if_pos rfl]
    exact hst

/-- So does one that the counterpart of the term, a younger variable, is bound to. -/
theorem read_replace (h : M.Reflects n P E σ σ') {s : Term} {v u w : Var} (hw : P w) (hn : n ≤ w.id)
    (hs : σ.deref s = .var v) (hvu : E v u) (hlt : w.id < u.id) :
    (M.read s w).Reflects n (fun x => P x ∧ x ≠ w) (fun p q => (E p q ∧ p ≠ v) ∨ p = v ∧ q = w) σ
      (σ'.bind u (.var w)) := by
  obtain ⟨hunbound, hnone⟩ := h.pairing.pending w hw
  obtain ⟨hv, hu⟩ := h.pairing.unbound v u hvu
  have hne : w ≠ u := fun heq => hnone v (heq ▸ hvu)
  have hturns : σ'.Turns (σ'.bind u (.var w)) _ := h.rooted'.turns_bind hu fun x hx => by
    cases hx
    exact ⟨hne, hunbound.value⟩
  have hothers {p q : Var} (hpq : E p q) (hp : p ≠ v) : q ≠ u :=
    fun heq => hp (h.pairing.injective p v q hpq (heq ▸ hvu))
  have hrest : Pairing n (fun x => P x ∧ x ≠ w) (fun p q => E p q ∧ p ≠ v) σ (σ'.bind u (.var w)) :=
    h.pairing.restrict (fun p q ⟨hpq, hp⟩ => ⟨hpq, (h.pairing.unbound p q hpq).1,
      (h.pairing.unbound p q hpq).2.bind (hothers hpq hp) _⟩)
      fun x hx => h.pairing.pending_bind hvu _ x hx.1
  -- neither of the two is among the first variables
  have hpairing := hrest.add (a := v) (b := w) hv (hunbound.bind hne _) (fun q hq => hq.2 rfl)
    (fun p hp => hnone p hp.1) (fun hold => by
      obtain hold | hold := hold
      · have := h.pairing.old v u hvu (.inl hold)
        subst this
        omega
      · omega) fun hP => hP.2 rfl
  refine (h.turn h.rooted.turns_refl hturns hpairing fun p q hpq => ?_).read ?_
  · by_cases hp : p = v
    · subst hp
      obtain rfl := h.pairing.functional p q u hpq hvu
      rw [if_pos rfl]
      exact .var (.inr ⟨rfl, rfl⟩)
    · rw [if_neg (hothers hpq hp)]
      exact .var (.inl ⟨hpq, hp⟩)
  · rw [hturns.var _ _ (Store.deref_unbound hunbound.value), if_neg hne, hs]
    exact .var (.inr ⟨rfl, rfl⟩)

/-- A pending variable that is unified with what mirrors a term stands for that term from then on. -/
theorem meet (h : M.Reflects n P E σ σ') {β : Type} (rest : List (Term × Term)) (τ' : Trail β) {s t : Term}
    {w : Var} (hst : M.Shows s t) (hw : P w) (hn : n ≤ w.id) :
    ∃ E' σ₁' τ₁', unifyStep t (.var w) rest σ' τ' = some (rest, σ₁', τ₁') ∧
      (M.read s w).Reflects n (fun u => P u ∧ u ≠ w) E' σ σ₁' := by
  obtain ⟨hunbound, hnone⟩ := h.pairing.pending w hw
  have hf := h.faces hst
  unfold unifyStep
  rw [Store.deref_unbound hunbound.value]
  generalize σ'.deref t = a at *
  generalize hs : σ.deref s = b at hf
  cases hf with
  | @var v u hvu =>
    have hne : u ≠ w := fun heq => hnone v (heq ▸ hvu)
    dsimp only
    rw [if_neg hne]
    by_cases hlt : w.id < u.id
    · rw [if_pos hlt]
      exact ⟨_, _, _, rfl, h.read_replace hw hn hs hvu hlt⟩
    · rw [if_neg hlt]
      refine ⟨_, _, _, rfl, h.read_bind hw (fun x hx => ?_) (hs ▸ .var hvu)⟩
      cases hx
      exact ⟨hne, (h.pairing.unbound v u hvu).2.value⟩
  | const hc => exact ⟨_, _, _, rfl, h.read_bind hw (by simp) (by rw [hs]; exact .const hc)⟩
  | compound hstamps hcontent hargs =>
    exact ⟨_, _, _, rfl, h.read_bind hw (by simp) (by rw [hs]; exact .compound hstamps hcontent hargs)⟩

end Reflects

end Mirror

/-! ### What is denoted -/

/-- The tree that a term denotes, cut off `n` levels down. -/
def Store.prune (σ : Store) : Nat → Term → Tree
  | 0, _ => .const (.atom .nil)
  | n + 1, t =>
    match σ.deref t with
    | .var v => .var v
    | .const c => .const c
    | .compound _ tag args => .compound tag (args.map (σ.prune n))

theorem Store.prune_deref (σ : Store) (n : Nat) {s t : Term} (h : σ.deref s = σ.deref t) :
    σ.prune n s = σ.prune n t := by
  cases n <;> simp [prune, h]

/-- A tree without circles is what is left of it when it is cut off far enough down. -/
theorem Store.Acyclic.exists_prune {σ : Store} (h : σ.Acyclic) (t : Term) :
    ∃ d, ∀ n ≥ d, σ.prune n t = σ.resolve t := by
  induction t using h.induction with
  | bound v t hv ih =>
    obtain ⟨d, hd⟩ := ih
    refine ⟨d, fun n hn => ?_⟩
    rw [σ.prune_deref n (h.rooted.deref_bound hv), hd n hn, h.resolve_bound hv]
  | unbound v hv =>
    refine ⟨1, fun n hn => ?_⟩
    obtain ⟨n, rfl⟩ : ∃ k, n = k + 1 := ⟨n - 1, by omega⟩
    rw [prune, deref_unbound hv, resolve_unbound hv]
  | const c =>
    refine ⟨1, fun n hn => ?_⟩
    obtain ⟨n, rfl⟩ : ∃ k, n = k + 1 := ⟨n - 1, by omega⟩
    rw [prune, deref_of_nonvar σ (by simp), resolve_const]
  | compound stamp tag args ih =>
    have hall : ∃ d, ∀ n ≥ d, args.map (σ.prune n) = args.map σ.resolve := by
      induction args with
      | nil => exact ⟨0, fun _ _ => rfl⟩
      | cons t ts iht =>
        rw [List.forall_mem_cons] at ih
        obtain ⟨d, hd⟩ := ih.1
        obtain ⟨e, he⟩ := iht ih.2
        refine ⟨max d e, fun n hn => ?_⟩
        rw [List.map_cons, List.map_cons, hd n (by omega), he n (by omega)]
    obtain ⟨d, hd⟩ := hall
    refine ⟨d + 1, fun n hn => ?_⟩
    obtain ⟨n, rfl⟩ : ∃ k, n = k + 1 := ⟨n - 1, by omega⟩
    rw [prune, deref_of_nonvar σ (by simp), resolve_compound]
    dsimp only
    rw [hd n (by omega)]

theorem Tree.renameAll_eq_map (f : Var → Var) (ts : List Tree) : renameAll f ts = ts.map (rename f) := by
  induction ts with
  | nil => rfl
  | cons t ts ih => rw [renameAll, ih, List.map_cons]

namespace Mirror

variable {M : Mirror} {P : Var → Prop} {E : Var → Var → Prop} {n : Nat} {σ σ' : Store}

/-- Related variables are renamed into each other by a function that gives distinct variables for distinct
ones. -/
theorem Pairing.exists_rename (h : Pairing n P E σ σ') :
    ∃ f : Var → Var, Function.Injective f ∧ ∀ v w, E v w → f v = w := by
  classical
  -- variables without a counterpart get numbers above those of the others
  refine ⟨fun v => if hv : ∃ w, E v w then hv.choose else ⟨σ'.size + v.id⟩, fun v v' heq => ?_,
    fun v w hvw => ?_⟩
  · have hlt {v : Var} (hv : ∃ w, E v w) : hv.choose.id < σ'.size :=
      (h.unbound _ _ hv.choose_spec).2.lt
    dsimp only at heq
    split at heq <;> rename_i hv <;> split at heq <;> rename_i hv'
    · exact h.injective _ _ _ hv.choose_spec (heq ▸ hv'.choose_spec)
    · have := hlt hv
      rw [heq] at this
      exact absurd this (by simp)
    · have := hlt hv'
      rw [← heq] at this
      exact absurd this (by simp)
    · obtain ⟨i⟩ := v
      obtain ⟨j⟩ := v'
      simpa using heq
  · have hv : ∃ w, E v w := ⟨w, hvw⟩
    dsimp only
    rw [dif_pos hv]
    exact h.functional _ _ _ hv.choose_spec hvw

namespace Reflects

/-- What mirrors a term denotes the same tree with other variables, to any depth. -/
theorem prune (h : M.Reflects n P E σ σ') {f : Var → Var} (hf : ∀ v w, E v w → f v = w) :
    ∀ (d : Nat) {s t : Term}, M.Shows s t → σ'.prune d t = (σ.prune d s).rename f
  | 0, _, _, _ => rfl
  | d + 1, s, t, hst => by
    have hfaces := h.faces hst
    rw [Store.prune, Store.prune]
    generalize σ.deref s = a at hfaces
    generalize σ'.deref t = b at hfaces
    cases hfaces with
    | var hvw => exact congrArg Tree.var (hf _ _ hvw).symm
    | const => rfl
    | compound hstamps hcontent hargs =>
      dsimp only
      rw [Tree.rename, Tree.renameAll_eq_map, List.map_map]
      congr 1
      clear hcontent
      induction hargs with
      | nil => rfl
      | cons hst _ ih => rw [List.map_cons, List.map_cons, ih, Function.comp, prune h hf d hst]

/-- So it does all the way down if no binding of the two stores leads back to its variable. -/
theorem resolve (h : M.Reflects n P E σ σ') {f : Var → Var} (hf : ∀ v w, E v w → f v = w)
    (hσ : σ.Acyclic) (hσ' : σ'.Acyclic) {s t : Term} (hst : M.Shows s t) :
    σ'.resolve t = (σ.resolve s).rename f := by
  obtain ⟨d, hd⟩ := hσ.exists_prune s
  obtain ⟨e, he⟩ := hσ'.exists_prune t
  rw [← he (max d e) (Nat.le_max_right _ _), h.prune hf _ hst, hd (max d e) (Nat.le_max_left _ _)]

end Reflects

end Mirror

end Resolvent
