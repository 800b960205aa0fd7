import Resolvent.Proofs.Emission
import Resolvent.Proofs.Mirroring
import Resolvent.Proofs.Straightline

/-!
# Matching heads

The code of a clause's head matches a call just as unification of the call with a copy of the head does
whose variables have been renamed (`Chunk.matches_unifyHead`). The code makes only the variables that
it needs before it can store an argument, it unifies one argument after the other, and what has no
variables it does not build but takes from the constants. So the two searches have different variables
and compounds, and a `Mirror` tells which of them stand for each other: a variable of the copy stands for
what the code keeps in the slot of the clause's variable.

An activation has a limit on its operands, so the head code may find no room for one. It has room if there
is room for an operand per byte of it.
-/

namespace Resolvent

/-! ### Terms that have been made -/

/-- The term is over variables and compounds that have been made, compounds with one stamp being one
structure. Every constant in it unifies with itself, so there is no NaN. -/
inductive Store.Made (σ : Store) (content : Nat → Tag × List Term) : Term → Prop
  | var {v : Var} (hv : v.id < σ.size) : Made σ content (.var v)
  | const {c : Constant} (hc : c.unifies c = true) : Made σ content (.const c)
  | compound {stamp : Nat} {tag : Tag} {args : List Term} (hstamp : stamp < σ.stamps)
    (hcontent : content stamp = (tag, args)) (hargs : ∀ t ∈ args, Made σ content t) :
    Made σ content (.compound stamp tag args)

/-- All bindings have been made. -/
def Store.MadeAll (σ : Store) (content : Nat → Tag × List Term) : Prop :=
  ∀ v t, σ.value? v = some t → σ.Made content t

theorem Store.Rooted.made_deref {σ : Store} {content : Nat → Tag × List Term} (h : σ.Rooted)
    (hσ : σ.MadeAll content) {t : Term} : σ.Made content t → σ.Made content (σ.deref t) := by
  induction t using h.induction with
  | bound v t hv ih => exact fun _ => h.deref_bound hv ▸ ih (hσ v t hv)
  | unbound v hv => rw [deref_unbound hv]; exact id
  | nonvar t ht => rw [deref_of_nonvar σ ht]; exact id

namespace Mirror

variable {M M' : Mirror} {P : Var → Prop} {E : Var → Var → Prop} {n a b : Nat} {σ σ' : Store}

/-- A term that has been made mirrors itself, if its variables and compounds stand for themselves. -/
theorem Shows.of_made {content : Nat → Tag × List Term}
    (hreads : ∀ v : Var, v.id < σ.size → M.reads (.var v) v)
    (hstamps : ∀ i < σ.stamps, M.stamps i i ∧ M.content i = content i) {t : Term}
    (ht : σ.Made content t) : M.Shows t t := by
  induction ht with
  | var hv => exact .reads (hreads _ hv)
  | const hc => exact .const hc
  | compound hstamp hcontent _ ih =>
    obtain ⟨hs, hc⟩ := hstamps _ hstamp
    exact .compound hs (hc.trans hcontent) (List.forall₂_same.mpr ih)

/-! ### Compounds that are built later -/

/-- The mirror is sound, and knows stamps below two bounds only. -/
structure Stamped (M : Mirror) (a b : Nat) : Prop extends M.Sound where
  /-- The stamps lie below the bounds. -/
  lt : ∀ i j, M.stamps i j → i < a ∧ j < b

/-- One more compound stands for a compound. -/
def stamp (M : Mirror) (i j : Nat) (c : Tag × List Term) : Mirror :=
  { M with
    stamps := fun i' j' => M.stamps i' j' ∨ i' = i ∧ j' = j
    content := Function.update M.content i c }

/-- A new compound may stand for another new one, or for one without variables. -/
theorem Stamped.stamp (h : M.Stamped a b) {i : Nat} {c : Tag × List Term} {a' : Nat}
    (hi : i = a ∧ a' = a + 1 ∨ i < a ∧ a' = a ∧ M.content i = c ∧ ∀ t ∈ c.2, t.Ground) :
    M.Le (M.stamp i b c) ∧ (M.stamp i b c).Stamped a' (b + 1) := by
  have hcontent (i' j' : Nat) (hij : M.stamps i' j') : (M.stamp i b c).content i' = M.content i' := by
    show Function.update M.content i c i' = M.content i'
    by_cases heq : i' = i
    · subst heq
      obtain ⟨rfl, -⟩ | ⟨-, -, hc, -⟩ := hi
      · exact absurd (h.lt _ _ hij).1 (Nat.lt_irrefl _)
      · rw [Function.update_self, hc]
    · rw [Function.update_of_ne heq]
  refine ⟨⟨fun _ _ h => h, fun i' j' hij => ⟨.inl hij, hcontent i' j' hij⟩⟩, ⟨?_, ?_⟩, ?_⟩
  · rintro i₁ i₂ j (h₁ | ⟨rfl, rfl⟩) (h₂ | ⟨rfl, hj⟩)
    · exact h.unique i₁ i₂ j h₁ h₂
    · exact absurd (hj ▸ (h.lt _ _ h₁).2) (Nat.lt_irrefl _)
    · exact absurd (h.lt _ _ h₂).2 (Nat.lt_irrefl _)
    · rfl
  · have hself {j : Nat} (hij : M.stamps i j) : ∀ t ∈ ((M.stamp i b c).content i).2, t.Ground := by
      obtain ⟨rfl, -⟩ | ⟨-, -, hc, hground⟩ := hi
      · exact absurd (h.lt _ _ hij).1 (Nat.lt_irrefl _)
      · rwa [hcontent i j hij, hc]
    rintro i' j₁ j₂ (h₁ | ⟨rfl, rfl⟩) (h₂ | ⟨heq, rfl⟩)
    · rw [hcontent i' j₁ h₁]
      exact h.shared i' j₁ j₂ h₁ h₂
    · exact .inr (heq ▸ hself (heq ▸ h₁))
    · exact .inr (hself h₂)
    · exact .inl rfl
  · rintro i' j' (hij | ⟨rfl, rfl⟩)
    · have hlt := h.lt i' j' hij
      obtain ⟨-, rfl⟩ | ⟨-, rfl, -⟩ := hi <;> omega
    · obtain ⟨rfl, rfl⟩ | ⟨hlt, rfl, -⟩ := hi <;> omega

/-- Building compounds leaves stores that mirror each other. -/
theorem Reflects.le (h : M.Reflects n P E σ σ') (hle : M.Le M') (hreads : M'.reads = M.reads) (k : Nat) :
    M'.Reflects n P E { σ with stamps := k } σ' := by
  have hrooted : ({ σ with stamps := k } : Store).Rooted := h.rooted
  refine ⟨⟨fun v w hvw => ⟨⟨(h.pairing.unbound v w hvw).1.lt, (h.pairing.unbound v w hvw).1.value⟩,
    (h.pairing.unbound v w hvw).2⟩, h.pairing.functional, h.pairing.injective, h.pairing.old,
    h.pairing.pending⟩, hrooted, h.rooted', fun s w hs => ?_⟩
  have hderef : ({ σ with stamps := k } : Store).deref s = σ.deref s :=
    @Store.Rooted.deref_eq σ { σ with stamps := k } h.rooted (fun _ => rfl) s
  rw [hderef]
  exact hle.faces (fun _ _ _ hE => hE) (h.reads s w (hreads ▸ hs))

theorem Stamped.read (h : M.Stamped a b) (s : Term) (w : Var) : (M.read s w).Stamped a b :=
  ⟨⟨h.unique, h.shared⟩, h.lt⟩

/-- Copying the tree makes a term that mirrors another one in a mirror that shows more compounds. -/
structure Copied (M : Mirror) (a : Nat) (t : Term) (T : Tree) (ρ : Store.Renaming) (σ : Store) (M' : Mirror)
    (u : Term) (k : Nat) : Prop where
  /-- What was shown is shown. -/
  le : M.Le M'
  /-- No other variables stand for terms. -/
  reads : M'.reads = M.reads
  /-- The stamps of the compounds. -/
  stamped : M'.Stamped a k
  /-- The copy. -/
  copy : T.copy ρ σ = (u, ρ, { σ with stamps := k })
  /-- It mirrors the term. -/
  shows : M'.Shows t u

/-- So it is with trees that are copied one after the other. -/
structure CopiedAll (M : Mirror) (a : Nat) (ts : List Term) (Ts : List Tree) (ρ : Store.Renaming) (σ : Store)
    (M' : Mirror) (us : List Term) (k : Nat) : Prop where
  /-- What was shown is shown. -/
  le : M.Le M'
  /-- No other variables stand for terms. -/
  reads : M'.reads = M.reads
  /-- The stamps of the compounds. -/
  stamped : M'.Stamped a k
  /-- The copies. -/
  copy : Tree.copyAll Ts ρ σ = (us, ρ, { σ with stamps := k })
  /-- They mirror the terms. -/
  shows : List.Forall₂ M'.Shows ts us

variable {ρ : Store.Renaming}

theorem CopiedAll.nil (h : M.Stamped a σ.stamps) : M.CopiedAll a [] [] ρ σ M [] σ.stamps :=
  ⟨.refl M, rfl, h, rfl, .nil⟩

theorem Copied.cons {M₁ M₂ : Mirror} {t u : Term} {T : Tree} {ts us : List Term} {Ts : List Tree}
    {a₁ k₁ k₂ : Nat} (h : M.Copied a₁ t T ρ σ M₁ u k₁)
    (hs : M₁.CopiedAll a ts Ts ρ { σ with stamps := k₁ } M₂ us k₂) :
    M.CopiedAll a (t :: ts) (T :: Ts) ρ σ M₂ (u :: us) k₂ where
  le := h.le.trans hs.le
  reads := hs.reads.trans h.reads
  stamped := hs.stamped
  copy := by rw [Tree.copyAll, h.copy]; dsimp only; rw [hs.copy]
  shows := .cons (hs.le.shows h.shows) hs.shows

/-- The functor behind its arguments. -/
theorem CopiedAll.compound {ts us : List Term} {Ts : List Tree} {k i a' : Nat} {tag : Tag}
    (h : M.CopiedAll a ts Ts ρ σ M' us k)
    (hi : i = a ∧ a' = a + 1 ∨ i < a ∧ a' = a ∧ M'.content i = (tag, ts) ∧ ∀ t ∈ ts, t.Ground) :
    M.Copied a' (.compound i tag ts) (.compound tag Ts) ρ σ (M'.stamp i k (tag, ts)) (.compound k tag us)
      (k + 1) := by
  obtain ⟨hle, hstamped⟩ := h.stamped.stamp (c := (tag, ts)) hi
  refine ⟨h.le.trans hle, h.reads, hstamped, ?_, .compound (.inr ⟨rfl, rfl⟩) (Function.update_self ..)
    (h.shows.imp fun _ _ => hle.shows)⟩
  rw [Tree.copy, h.copy]
  rfl

/-- The arguments of a compound that mirrors itself do so, and the compound is the one of its stamp. -/
theorem Shows.compound_self {i : Nat} {tag : Tag} {ts : List Term}
    (h : M.Shows (.compound i tag ts) (.compound i tag ts)) :
    M.stamps i i ∧ M.content i = (tag, ts) ∧ ∀ t ∈ ts, M.Shows t t := by
  cases h with
  | compound hstamps hcontent hargs => exact ⟨hstamps, hcontent, List.forall₂_same.mp hargs⟩

mutual

/-- Where a term without variables is copied, the copy mirrors it. -/
theorem exists_copied_ground : ∀ {t : Term}, t.Ground → ∀ {M : Mirror} {σ : Store}, M.Stamped a σ.stamps →
    M.Shows t t → ∃ M' u k, M.Copied a t t.erase ρ σ M' u k
  | .const c, _, M, σ, h, ht => ⟨M, .const c, σ.stamps, .refl M, rfl, h, rfl, ht⟩
  | .compound i tag ts, .compound _ _ hground, M, σ, h, ht => by
    obtain ⟨hstamps, hcontent, hargs⟩ := ht.compound_self
    obtain ⟨M', us, k, hcopied⟩ := exists_copiedAll_ground hground h hargs
    obtain ⟨hstamps', hcontent'⟩ := hcopied.le.stamps i i hstamps
    exact ⟨_, _, _, hcopied.compound (.inr ⟨(h.lt i i hstamps).1, rfl, hcontent'.trans hcontent, hground⟩)⟩

theorem exists_copiedAll_ground : ∀ {ts : List Term}, (∀ t ∈ ts, t.Ground) → ∀ {M : Mirror} {σ : Store},
    M.Stamped a σ.stamps → (∀ t ∈ ts, M.Shows t t) →
      ∃ M' us k, M.CopiedAll a ts (Term.eraseAll ts) ρ σ M' us k
  | [], _, M, σ, h, _ => ⟨M, [], σ.stamps, .nil h⟩
  | t :: ts, hground, M, σ, h, hts => by
    rw [List.forall_mem_cons] at hground hts
    obtain ⟨M₁, u, k, hu⟩ := exists_copied_ground hground.1 h hts.1
    obtain ⟨M₂, us, k', hus⟩ := exists_copiedAll_ground (σ := { σ with stamps := k }) hground.2 hu.stamped
      fun t ht => hu.le.shows (hts.2 t ht)
    exact ⟨M₂, _, k', hu.cons hus⟩

end

variable {c : Chunk} {slots : Program.Slots} {env : Array Slot}

/-- The renaming gives a variable for every variable of the tree, which stands for what is in its slot. -/
def Renames (M : Mirror) (slots : Program.Slots) (env : Array Slot) (ρ : Store.Renaming) (T : Tree) : Prop :=
  ∀ v, .var v ∈ T.nodes → ∃ w, ρ[v.id]? = some w ∧ ∀ t, slots.Holds env v t → M.reads t w

mutual

/-- The copy of a tree mirrors what the code of the tree pushes. -/
theorem exists_copied : ∀ {T : Tree} {t : Term} {k k' : Nat}, c.Pushes slots env T k t k' →
    ∀ {M : Mirror} {σ : Store}, M.Stamped k σ.stamps →
      (∀ t ∈ c.constants, t.erase.nodes ⊆ T.nodes → M.Shows t t) → M.Renames slots env ρ T →
        ∃ M' u j, M.Copied k' t T ρ σ M' u j
  | _, t, k, _, .var (v := v) hn ht, M, σ, h, _, hT => by
    obtain ⟨w, hw, hreads⟩ := hT v (by simp [Tree.nodes])
    refine ⟨M, .var w, σ.stamps, .refl M, rfl, h, ?_, .reads (hreads t ⟨_, hn, ht⟩)⟩
    rw [Tree.copy, hw]
  | _, t, k, _, .constant ht hc, M, σ, h, hconstants, _ =>
    exists_copied_ground ht h (hconstants t hc (List.Subset.refl _))
  | _, _, k, _, .compound hargs, M, σ, h, hconstants, hT => by
    have hsub {T : Tree} {Ts : List Tree} {tag : Tag} (hmem : T ∈ Ts) :
        T.nodes ⊆ (Tree.compound tag Ts).nodes :=
      fun x hx => by
        rw [Tree.nodes, List.mem_append]
        exact .inl (Tree.mem_nodesAll.mpr ⟨T, hmem, hx⟩)
    obtain ⟨M', us, j, hus⟩ := exists_copiedAll hargs h
      (fun T hmem t ht hnodes => hconstants t ht (List.Subset.trans hnodes (hsub hmem)))
      fun T hmem v hv => hT v (hsub hmem hv)
    exact ⟨_, _, _, hus.compound (.inl ⟨rfl, rfl⟩)⟩

theorem exists_copiedAll : ∀ {Ts : List Tree} {ts : List Term} {k k' : Nat},
    c.PushesAll slots env Ts k ts k' → ∀ {M : Mirror} {σ : Store}, M.Stamped k σ.stamps →
      (∀ T ∈ Ts, ∀ t ∈ c.constants, t.erase.nodes ⊆ T.nodes → M.Shows t t) →
        (∀ T ∈ Ts, M.Renames slots env ρ T) → ∃ M' us j, M.CopiedAll k' ts Ts ρ σ M' us j
  | _, _, _, _, .nil, M, σ, h, _, _ => ⟨M, [], σ.stamps, .nil h⟩
  | _, _, _, _, .cons ht hts, M, σ, h, hconstants, hT => by
    rw [List.forall_mem_cons] at hT hconstants
    obtain ⟨M₁, u, j, hu⟩ := exists_copied ht h hconstants.1 hT.1
    obtain ⟨M₂, us, j', hus⟩ := exists_copiedAll (σ := { σ with stamps := j }) hts hu.stamped
      (fun T hmem t ht hnodes => hu.le.shows (hconstants.2 T hmem t ht hnodes)) fun T hmem v hv => by
        rw [hu.reads]
        exact hT.2 T hmem v hv
    exact ⟨M₂, _, j', hu.cons hus⟩

end

/-! ### The beginning -/

/-- What stands for what when a clause's variables have been made: the first `n` variables and the first
`k` compounds for themselves, and the renamed variables for what is in the slots. -/
def ofCall (slots : Program.Slots) (env : Array Slot) (ρ : Store.Renaming) (n k : Nat)
    (content : Nat → Tag × List Term) (made : List Var) : Mirror where
  reads t w := t = .var w ∧ w.id < n ∨ ∃ v ∈ made, slots.Holds env v t ∧ ρ[v.id]? = some w
  stamps i j := i = j ∧ i < k
  content := content

theorem stamped_ofCall (k : Nat) (content : Nat → Tag × List Term) (made : List Var) :
    (ofCall slots env ρ n k content made).Stamped k k where
  unique := by rintro i i' j ⟨rfl, -⟩ ⟨rfl, -⟩; rfl
  shared := by rintro i j j' ⟨rfl, -⟩ ⟨rfl, -⟩; exact .inl rfl
  lt := by rintro i j ⟨rfl, hi⟩; exact ⟨hi, hi⟩

theorem shows_ofCall {content : Nat → Tag × List Term} {made : List Var} {t : Term}
    (ht : σ.Made content t) : (ofCall slots env ρ σ.size σ.stamps content made).Shows t t :=
  Shows.of_made (M := ofCall slots env ρ σ.size σ.stamps content made) (fun _ hv => .inl ⟨rfl, hv⟩)
    (fun _ hi => ⟨⟨rfl, hi⟩, rfl⟩) ht

/-- The stores after variables have been made for a clause mirror each other. The variables that have not
been made there are pending. -/
theorem reflects_ofCall {content : Nat → Tag × List Term} {made : List Var} {σ₁ σ₂ : Store}
    (hσ : σ.Rooted) (hall : σ.MadeAll content) (h₁ : σ.Extends σ₁) (h₂ : σ.Extends σ₂)
    (hmade : slots.Fresh env σ.size σ₁ made) (hρ : ρ.Fresh σ.size σ₂) :
    ∃ E, (ofCall slots env ρ σ.size σ.stamps content made).Reflects σ.size
      (fun w => ∃ v ∉ made, ρ[v.id]? = some w) E σ₁ σ₂ := by
  have hnone {σ' : Store} (h : σ.Extends σ') {v : Var} (hv : σ.size ≤ v.id) : σ'.value? v = none :=
    (h.value v).trans (Store.value?_of_size_le hv)
  have hid {v v' : Var} (h : v.id = v'.id) : v = v' := by cases v; cases v'; exact congrArg Var.mk h
  let E (v w : Var) : Prop := (v = w ∧ v.id < σ.size ∧ σ.value? v = none) ∨
    ∃ x ∈ made, slots.Holds env x (.var v) ∧ ρ[x.id]? = some w
  -- the variables made for the clause are not among the first ones
  have hnew {x v : Var} (hx : x ∈ made) (hv : slots.Holds env x (.var v)) :
      σ.size ≤ v.id ∧ v.id < σ₁.size := by
    obtain ⟨w, hw, hlt⟩ := hmade.holds x hx
    cases hw.unique hv
    exact hlt
  have hpairing : Pairing σ.size (fun w => ∃ v ∉ made, ρ[v.id]? = some w) E σ₁ σ₂ := by
    refine ⟨?_, ?_, ?_, ?_, ?_⟩
    · rintro v w (⟨rfl, hlt, hv⟩ | ⟨x, hx, hv, hw⟩)
      · exact ⟨⟨Nat.lt_of_lt_of_le hlt h₁.size, (h₁.value v).trans hv⟩,
          ⟨Nat.lt_of_lt_of_le hlt h₂.size, (h₂.value v).trans hv⟩⟩
      · exact ⟨⟨(hnew hx hv).2, hnone h₁ (hnew hx hv).1⟩,
          ⟨(hρ.made _ _ hw).2, hnone h₂ (hρ.made _ _ hw).1⟩⟩
    · rintro v w w' (⟨rfl, hlt, -⟩ | ⟨x, hx, hv, hw⟩) (⟨rfl, hlt', -⟩ | ⟨x', hx', hv', hw'⟩)
      · rfl
      · exact absurd (hnew hx' hv').1 (Nat.not_le.mpr hlt)
      · exact absurd (hnew hx hv).1 (Nat.not_le.mpr hlt')
      · rw [hmade.injective x hx x' hx' v hv hv', hw'] at hw
        exact (Option.some.inj hw).symm
    · rintro v v' w (⟨rfl, hlt, -⟩ | ⟨x, hx, hv, hw⟩) (⟨rfl, hlt', -⟩ | ⟨x', hx', hv', hw'⟩)
      · rfl
      · exact absurd (hρ.made _ _ hw').1 (Nat.not_le.mpr hlt)
      · exact absurd (hρ.made _ _ hw).1 (Nat.not_le.mpr hlt')
      · obtain rfl := hid (hρ.inj _ _ _ hw hw')
        exact Term.var.inj (hv.unique hv')
    · rintro v w (⟨rfl, -⟩ | ⟨x, hx, hv, hw⟩) hlt
      · rfl
      · have := (hnew hx hv).1
        have := (hρ.made _ _ hw).1
        omega
    · rintro w ⟨x, hx, hw⟩
      refine ⟨⟨(hρ.made _ _ hw).2, hnone h₂ (hρ.made _ _ hw).1⟩, ?_⟩
      rintro v (⟨rfl, hlt, -⟩ | ⟨x', hx', -, hw'⟩)
      · exact absurd (hρ.made _ _ hw).1 (Nat.not_le.mpr hlt)
      · exact hx (hid (hρ.inj _ _ _ hw hw') ▸ hx')
  have hrooted {σ' : Store} (h : σ.Extends σ') : σ'.Rooted := fun v hv => hσ v (Relation.TransGen.mono
    (fun u w huw => by rwa [Store.Leads, ← h.value u]) v v hv)
  refine ⟨E, hpairing, hrooted h₁, hrooted h₂, ?_⟩
  rintro t w (⟨rfl, hlt⟩ | ⟨x, hx, ht, hw⟩)
  · rw [hσ.deref_eq h₁.value, hσ.deref_eq h₂.value]
    have hmade := hσ.made_deref hall (.var hlt)
    have hroot := fun v (hv : σ.deref (.var w) = .var v) => hσ.value?_of_deref hv
    generalize σ.deref (.var w) = s at hmade hroot
    cases hmade with
    | var hv => exact .var (.inl ⟨rfl, hv, hroot _ rfl⟩)
    | const hc => exact .const hc
    | compound hstamp hcontent hargs =>
      exact .compound ⟨rfl, hstamp⟩ hcontent (List.forall₂_same.mpr fun t ht => shows_ofCall (hargs t ht))
  · obtain ⟨v, hv, hlt⟩ := hmade.holds x hx
    cases ht.unique hv
    rw [Store.deref_unbound (hnone h₁ hlt.1), Store.deref_unbound (hnone h₂ (hρ.made _ _ hw).1)]
    exact .var (.inr ⟨x, hx, hv, hw⟩)

end Mirror

/-! ### Renaming clauses -/

namespace Rule

/-- New variables for the variables of a clause. -/
def newVariables (r : Rule) (σ : Store) : Store.Renaming × Store :=
  r.vars.foldl (fun x v => (x.1.insert v.id x.2.fresh.1, x.2.fresh.2)) (∅, σ)

/-- A copy of the head of a clause of a predicate, with new variables for those of the clause. -/
def renamedHead (tag : Tag) (r : Rule) (σ : Store) : Term × Store.Renaming × Store :=
  let (ρ, σ) := r.newVariables σ
  let (stack, ρ, σ) := Store.copyNodes (Tree.compound tag r.args).postorder [] ρ σ
  (stack.headD (.atom .nil), ρ, σ)

theorem renamedHead_eq (tag : Tag) (r : Rule) (σ : Store) : r.renamedHead tag σ =
    (Tree.compound tag r.args).copy (r.newVariables σ).1 (r.newVariables σ).2 := by
  have h := Store.copyNodes_nodes (Tree.compound tag r.args) [] [] (r.newVariables σ).1 (r.newVariables σ).2
  rw [List.append_nil] at h
  rw [renamedHead, Tree.postorder_eq]
  dsimp only
  rw [h]
  rfl

/-- The new variables are distinct, and nothing else changes. -/
theorem newVariables_spec (r : Rule) (σ : Store) : σ.Extends (r.newVariables σ).2 ∧
    (r.newVariables σ).2.stamps = σ.stamps ∧ (r.newVariables σ).1.Fresh σ.size (r.newVariables σ).2 ∧
    ∀ v ∈ r.vars, ∃ w, (r.newVariables σ).1[v.id]? = some w := by
  let f (x : Store.Renaming × Store) (v : Var) : Store.Renaming × Store :=
    (x.1.insert v.id x.2.fresh.1, x.2.fresh.2)
  have hfold : ∀ (vs : List Var) (x : Store.Renaming × Store), σ.Extends x.2 → x.2.stamps = σ.stamps →
      x.1.Fresh σ.size x.2 → σ.Extends (vs.foldl f x).2 ∧ (vs.foldl f x).2.stamps = σ.stamps ∧
        (vs.foldl f x).1.Fresh σ.size (vs.foldl f x).2 ∧
        ∀ v, v ∈ vs ∨ (∃ w, x.1[v.id]? = some w) → ∃ w, (vs.foldl f x).1[v.id]? = some w := by
    intro vs
    induction vs with
    | nil =>
      exact fun x hext hstamps hfresh =>
        ⟨hext, hstamps, hfresh, fun v hv => hv.resolve_left List.not_mem_nil⟩
    | cons u vs ih =>
      intro x hext hstamps hfresh
      obtain ⟨hext', hstamps', hfresh', hknown⟩ := ih (f x u) (hext.trans (.fresh x.2)) hstamps
        (hfresh.insert hext.size u.id)
      refine ⟨hext', hstamps', hfresh', fun v hv => hknown v ?_⟩
      by_cases hvu : v ∈ vs
      · exact .inl hvu
      refine .inr ?_
      show ∃ w, (x.1.insert u.id x.2.fresh.1)[v.id]? = some w
      rw [Std.TreeMap.getElem?_insert]
      split
      · exact ⟨_, rfl⟩
      · rename_i hne
        refine hv.resolve_left fun hmem => ?_
        obtain rfl := (List.mem_cons.mp hmem).resolve_right hvu
        exact hne Std.ReflCmp.compare_self
  obtain ⟨hext, hstamps, hfresh, hknown⟩ := hfold r.vars (∅, σ) (.refl σ) rfl (Store.Renaming.fresh_empty σ)
  exact ⟨hext, hstamps, hfresh, fun v hv => hknown v (.inl hv)⟩

end Rule

namespace Tree

mutual

/-- Where all variables are known, a copy makes none. -/
theorem copy_known {ρ : Store.Renaming} : ∀ (t : Tree) (σ : Store),
    (∀ v, .var v ∈ t.nodes → ∃ w, ρ[v.id]? = some w) → ∃ u k, t.copy ρ σ = (u, ρ, { σ with stamps := k })
  | .var v, σ, h => by
    obtain ⟨w, hw⟩ := h v (by simp [nodes])
    exact ⟨.var w, σ.stamps, by rw [copy, hw]⟩
  | .const c, σ, _ => ⟨.const c, σ.stamps, rfl⟩
  | .compound tag ts, σ, h => by
    obtain ⟨us, k, hcopy⟩ := copyAll_known ts σ fun v hv => h v (by
      rw [nodes, List.mem_append]
      exact .inl hv)
    exact ⟨.compound k tag us, k + 1, by rw [copy, hcopy]; rfl⟩

theorem copyAll_known {ρ : Store.Renaming} : ∀ (ts : List Tree) (σ : Store),
    (∀ v, .var v ∈ nodesAll ts → ∃ w, ρ[v.id]? = some w) →
      ∃ us k, copyAll ts ρ σ = (us, ρ, { σ with stamps := k })
  | [], σ, _ => ⟨[], σ.stamps, rfl⟩
  | t :: ts, σ, h => by
    obtain ⟨u, k, hu⟩ := copy_known t σ fun v hv => h v (by
      rw [mem_nodesAll]
      exact ⟨t, List.mem_cons_self, hv⟩)
    obtain ⟨us, k', hus⟩ := copyAll_known ts { σ with stamps := k } fun v hv => h v (by
      rw [mem_nodesAll] at hv ⊢
      exact hv.imp fun _ hv => ⟨List.mem_cons_of_mem _ hv.1, hv.2⟩)
    exact ⟨u :: us, k', by rw [copyAll, hu]; dsimp only; rw [hus]⟩

end

end Tree

/-! ### Matching -/

/-- Unification builds no compounds. -/
theorem stamps_unifyPairs {α : Type} (n : Nat) (pairs : List (Term × Term)) (σ : Store) (τ : Trail α) :
    (unifyPairs n pairs σ τ).2.1.stamps = σ.stamps :=
  unifyPairs_of_bind (fun _ _ _ => rfl) n pairs σ τ

namespace Activation

/-- How an activation comes out of code that unifies, beside unification of pairs: there is no room for an
operand, if `full` holds; or so much fuel suffices for neither; or both fail, or both succeed with what has
the property. -/
inductive Matched {β : Type} (full : Prop) (fuel : Nat) (pairs : List (Term × Term)) (σ : Store) (τ : Trail β)
    (R : Machine → Store → Prop) : EStateM.Result Interrupt Machine Course → Prop
  | overflow (m : Machine) (h : full) : Matched full fuel pairs σ τ R (.error (.fault .stackOverflow) m)
  | spent (m : Machine) (h : (unifyPairs fuel pairs σ τ).1 = none) :
    Matched full fuel pairs σ τ R (.error (.stop .spent) m)
  | backward (m : Machine) {n : Nat} (h : (unifyPairs n pairs σ τ).1 = some false) :
    Matched full fuel pairs σ τ R (.ok .backward m)
  | forward {m : Machine} {n : Nat} (h : (unifyPairs n pairs σ τ).1 = some true)
    (hR : R m (unifyPairs n pairs σ τ).2.1) : Matched full fuel pairs σ τ R (.ok .forward m)

variable {β : Type} {full : Prop} {fuel : Nat} {pairs pairs' : List (Term × Term)} {σ σ' : Store}
  {τ τ' : Trail β}
  {R : Machine → Store → Prop} {r : EStateM.Result Interrupt Machine Course}

/-- Some of the unification is done. -/
theorem Matched.of_rest {l : Nat} (hl : ∀ n, unifyPairs (l + n) pairs σ τ = unifyPairs n pairs' σ' τ')
    (h : Matched full fuel pairs' σ' τ' R r) : Matched full fuel pairs σ τ R r := by
  cases h with
  | overflow m h => exact .overflow m h
  | spent m h =>
    refine .spent m ?_
    cases hx : unifyPairs fuel pairs σ τ with | mk answer x =>
    cases answer with
    | none => rfl
    | some b =>
      have hlonger := unifyPairs_of_le (Nat.le_add_left fuel l) hx
      rw [hl] at hlonger
      rw [hlonger] at h
      cases h
  | @backward m n h => exact .backward m (n := l + n) (by rw [hl]; exact h)
  | @forward m n h hR => exact .forward (n := l + n) (by rw [hl]; exact h) (by rw [hl]; exact hR)

end Activation

/-- What stands for what between two head arguments. -/
structure Mirror.Between (M : Mirror) (c : Chunk) (slots : Program.Slots) (env : Array Slot)
    (ρ : Store.Renaming) (n : Nat) (V : Var → Prop) (ts : List Tree) (ds : List (Option Var))
    (as : List Term) : Prop where
  /-- The first variables stand for themselves. -/
  old : ∀ v : Var, v.id < n → M.reads (.var v) v
  /-- The renamed variables stand for what is in the slots of those that are not stored later. -/
  known : ∀ v, V v → some v ∉ ds → ∃ t w, slots.Holds env v t ∧ ρ[v.id]? = some w ∧ M.reads t w
  /-- The arguments that are left mirror themselves. -/
  args : ∀ t ∈ as, M.Shows t t
  /-- So do the constants of the head arguments that are left. -/
  constants : ∀ T ∈ ts, ∀ t ∈ c.constants, t.erase.nodes ⊆ T.nodes → M.Shows t t

namespace Mirror.Between

variable {M M' : Mirror} {c : Chunk} {slots : Program.Slots} {env : Array Slot} {ρ : Store.Renaming} {n : Nat}
  {V : Var → Prop} {T : Tree} {ts : List Tree} {d : Option Var} {ds : List (Option Var)} {a : Term}
  {as : List Term}

/-- An argument has been unified. -/
theorem tail (h : M.Between c slots env ρ n V (T :: ts) (none :: ds) (a :: as)) (hle : M.Le M') :
    M'.Between c slots env ρ n V ts ds as where
  old v hv := hle.reads _ _ (h.old v hv)
  known v hV hv := by
    obtain ⟨t, w, ht, hw, hreads⟩ := h.known v hV (by simpa using hv)
    exact ⟨t, w, ht, hw, hle.reads _ _ hreads⟩
  args t ht := hle.shows (h.args t (List.mem_cons_of_mem _ ht))
  constants T hT t ht hnodes := hle.shows (h.constants T (List.mem_cons_of_mem _ hT) t ht hnodes)

/-- An argument has been stored. -/
theorem stored {v w : Var} {i : UInt16} (h : M.Between c slots env ρ n V (T :: ts) (some v :: ds) (a :: as))
    (hs : slots.Distinct env.size) (hi : slots[v.id]? = some i) (hw : ρ[v.id]? = some w) :
    (M.read a w).Between c slots (env.setIfInBounds i.toNat (.term a)) ρ n V ts ds as where
  old v hv := .inl (h.old v hv)
  known u hV hu := by
    by_cases heq : u = v
    · subst heq
      exact ⟨a, w, hs.holds hi a, hw, .inr ⟨rfl, rfl⟩⟩
    · obtain ⟨t, w', ht, hw', hreads⟩ := h.known u hV (by simp [heq, hu])
      exact ⟨t, w', (hs.holds_iff hi heq).mpr ht, hw', .inl hreads⟩
  args t ht := (M.le_read a w).shows (h.args t (List.mem_cons_of_mem _ ht))
  constants T hT t ht hnodes :=
    (M.le_read a w).shows (h.constants T (List.mem_cons_of_mem _ hT) t ht hnodes)

/-- The renamed variables of a head argument stand for what its code builds from. -/
theorem renames (h : M.Between c slots env ρ n V (T :: ts) ds (a :: as))
    (hT : ∀ v, .var v ∈ T.nodes → V v ∧ some v ∉ ds) :
    M.Renames slots env ρ T ∧ Activation.Filled slots env T := by
  refine ⟨fun v hv => ?_, fun v hv => ?_⟩
  · obtain ⟨t, w, ht, hw, hreads⟩ := h.known v (hT v hv).1 (hT v hv).2
    exact ⟨w, hw, fun u hu => hu.unique ht ▸ hreads⟩
  · obtain ⟨t, -, ht, -⟩ := h.known v (hT v hv).1 (hT v hv).2
    exact ⟨t, ht⟩

end Mirror.Between

namespace Activation

/-- The head has been matched: the stores mirror each other, the first `n` variables stand for themselves,
and the renamed ones for what is in the slots. -/
def Met (slots : Program.Slots) (ρ : Store.Renaming) (n : Nat) (V : Var → Prop) (m : Machine) (σ' : Store) :
    Prop :=
  ∃ (M : Mirror) (P : Var → Prop) (E : Var → Var → Prop),
    M.Reflects n P E m.workspace.database.terms.store σ' ∧ (∀ v : Var, v.id < n → M.reads (.var v) v) ∧
    ∀ v, V v → ∃ t w, slots.Holds m.activation.slots v t ∧ ρ[v.id]? = some w ∧ M.reads t w

variable {ctx : Context} {limit : Nat} {code : Code} {args : Array Term} {s : Symbols} {slots : Program.Slots}
  {stop n : Nat} {ρ : Store.Renaming} {V : Var → Prop} {ops : List Term}

/-- An activation is between two head arguments, and unification with copies of them is as far. -/
structure Midway (limit : Nat) (code : Code) (args : Array Term) (s : Symbols) (slots : Program.Slots)
    (ops : List Term) (ρ : Store.Renaming) (n : Nat) (V : Var → Prop) (ts : List Tree) (ds : List (Option Var))
    (as : List Term) (i : Nat) (env : Array Slot) (σ σc σ' : Store) (M : Mirror) (P : Var → Prop)
    (E : Var → Var → Prop)
    (pc : Nat) (m : Machine) : Prop where
  /-- Where it is. -/
  spot : Spot limit code args s σ env ops pc m
  /-- These arguments are left. -/
  drop : args.toList.drop i = as
  /-- There are as many as head arguments. -/
  length : as.length = ts.length
  /-- Variables do not share slots. -/
  distinct : slots.Distinct env.size
  /-- The compounds of the head arguments have as many arguments as their tags. -/
  sized : ∀ t ∈ ts, t.Sized s
  /-- Their variables are variables of the clause. -/
  vars : ∀ t ∈ ts, ∀ v, .var v ∈ t.nodes → V v
  /-- What stands for what. -/
  between : M.Between code.chunk slots env ρ n V ts ds as
  /-- The renamed variables of those stored later are pending. -/
  pending : ∀ v w, some v ∈ ds → ρ[v.id]? = some w → P w
  /-- The stores mirror each other. -/
  reflects : M.Reflects n P E σ σ'
  /-- No compounds are known that have not been built. -/
  stamped : M.Stamped σ.stamps σc.stamps

namespace Midway

variable {β : Type} {last σ σc σ' : Store} {t : Tree} {ts : List Tree} {v : Var} {ds : List (Option Var)}
  {a : Term} {as : List Term} {i pc pc₁ pc₂ pc₃ : Nat} {env : Array Slot} {τ : Trail β} {M : Mirror}
  {P : Var → Prop} {E : Var → Var → Prop} {m : Machine} {k j : UInt16} {R : Machine → Store → Prop}
  {full : Prop}

theorem getElem? (h : Midway limit code args s slots ops ρ n V ts ds (a :: as) i env σ σc σ' M P E pc m) :
    args[i]? = some a := by
  rw [← Array.getElem?_toList, ← Nat.add_zero i, ← List.getElem?_drop, h.drop, List.getElem?_cons_zero]

theorem drop_succ (h : Midway limit code args s slots ops ρ n V ts ds (a :: as) i env σ σc σ' M P E pc m) :
    args.toList.drop (i + 1) = as := by
  rw [← List.drop_drop, h.drop, List.drop_one, List.tail_cons]

/-- An argument is stored. Unification binds the renamed variable to it, or the other way around. -/
theorem stores (hfull : limit - ops.length < stop - pc → full) (hρ : ρ.Fresh n last) {w : Var}
    (hw : ρ[v.id]? = some w) (hd : some v ∉ ds)
    (h : Midway limit code args s slots ops ρ n V (.var v :: ts) (some v :: ds) (a :: as) i env σ σc σ' M P E
      pc m)
    (hk : k.toNat = i) (hj : slots[v.id]? = some j) (h₁ : code.chunk.Stands none pc (.pushArgument k) pc₁)
    (h₂ : code.chunk.Stands none pc₁ (.storeEnvironment j) pc₂) (hle : pc₂ ≤ stop)
    (hrest : ∀ env' σ₁' (τ₁ : Trail β) M' P' E' m',
      Midway limit code args s slots ops ρ n V ts ds as (i + 1) env' σ σc σ₁' M' P' E' pc₂ m' →
      Comes ctx stop (Matched full ctx.fuel (as.zip (Tree.copyAll ts ρ σc).1) σ₁' τ₁ R) m') :
    Comes ctx stop (Matched full ctx.fuel ((a :: as).zip (Tree.copyAll (.var v :: ts) ρ σc).1) σ' τ R) m := by
  have hlt := h₁.lt
  have hlt' := h₂.lt
  -- no other argument stores the variable
  have hother (v' w' : Var) (hv' : some v' ∈ ds) (hw' : ρ[v'.id]? = some w') : w' ≠ w := by
    rintro rfl
    have hid := hρ.inj _ _ _ hw hw'
    have hvv' : v = v' := by cases v; cases v'; exact congrArg Var.mk hid
    exact hd (hvv' ▸ hv')
  obtain ⟨E', σ₁', τ₁, hstep, hreflects⟩ := h.reflects.meet (as.zip (Tree.copyAll ts ρ σc).1) τ
    (h.between.args a List.mem_cons_self) (h.pending v w List.mem_cons_self hw) (hρ.made _ _ hw).1
  refine h.spot.comes_forward (n := ops.length) (R := Spot limit code args s σ env (ops ++ [a]) pc₁)
    (fun hroom m' => .overflow m' (hfull (by omega))) h₁ (by omega) (fun j m' hj hm' => ?_) fun m₁ hm₁ => ?_
  · cases hj with | pushArgument => exact hm'.yields_pushArgument (hk ▸ h.getElem?)
  refine hm₁.comes_forward (n := ops.length)
    (R := Spot limit code args s σ (env.setIfInBounds j.toNat (.term a)) ops pc₂)
    (fun hroom m' => .overflow m' (hfull (by omega))) h₂ hle (fun j m' hj hm' => ?_) fun m₂ hm₂ => ?_
  · cases hj with
    | storeEnvironment =>
      exact (hm'.yields_storeEnvironment (h.distinct.lt _ _ hj)).imp (fun _ _ h => h) fun _ _ h => h.elim
  refine (hrest _ σ₁' τ₁ _ _ E' m₂ ⟨hm₂, h.drop_succ, Nat.succ.inj h.length, ?_,
    fun t ht => h.sized t (List.mem_cons_of_mem _ ht), fun t ht => h.vars t (List.mem_cons_of_mem _ ht),
    h.between.stored h.distinct hj hw, fun v' w' hv' hw' =>
      ⟨h.pending v' w' (List.mem_cons_of_mem _ hv') hw', hother v' w' hv' hw'⟩,
    hreflects, h.stamped.read a w⟩).imp fun r hr => hr.of_rest (l := 1) fun n => ?_
  · rw [Array.size_setIfInBounds]
    exact h.distinct
  · rw [Tree.copyAll, Tree.copy, hw, List.zip_cons_cons, Nat.add_comm, unifyPairs_cons, hstep,
      Option.elim_some]

/-- An argument is unified with what is built for it. Unification comes to its copy. -/
theorem unifies (hfull : limit - ops.length < stop - pc → full) (hd : ∀ v, .var v ∈ t.nodes → some v ∉ ds)
    (h : Midway limit code args s slots ops ρ n V (t :: ts) (none :: ds) (a :: as) i env σ σc σ' M P E pc m)
    (hk : k.toNat = i) (h₁ : code.chunk.Stands none pc (.pushArgument k) pc₁)
    (ht : code.chunk.Builds slots none t pc₁ pc₂) (h₂ : code.chunk.Stands none pc₂ .unify pc₃)
    (hle : pc₃ ≤ stop)
    (hrest : ∀ σ₁ σc₁ σ₁' (τ₁ : Trail β) M' E' m',
      Midway limit code args s slots ops ρ n V ts ds as (i + 1) env σ₁ σc₁ σ₁' M' P E' pc₃ m' →
      Comes ctx stop (Matched full ctx.fuel (as.zip (Tree.copyAll ts ρ σc₁).1) σ₁' τ₁ R) m') :
    Comes ctx stop (Matched full ctx.fuel ((a :: as).zip (Tree.copyAll (t :: ts) ρ σc).1) σ' τ R) m := by
  have hlt := h₁.lt
  have hlt' := ht.lt
  have hlt'' := h₂.lt
  obtain ⟨hrenames, hfilled⟩ := h.between.renames fun v hv =>
    ⟨h.vars t List.mem_cons_self v hv, by simpa using hd v hv⟩
  refine h.spot.comes_forward (n := ops.length) (R := Spot limit code args s σ env (ops ++ [a]) pc₁)
    (fun hroom m' => .overflow m' (hfull (by omega))) h₁ (by omega) (fun j m' hj hm' => ?_) fun m₁ hm₁ => ?_
  · cases hj with | pushArgument => exact hm'.yields_pushArgument (hk ▸ h.getElem?)
  have hfull₁ (hroom : limit - (ops ++ [a]).length < stop - pc₁) : full := hfull (by
    rw [List.length_append, List.length_singleton] at hroom
    omega)
  refine hm₁.builds (fun hroom m' => .overflow m' (hfull₁ hroom)) ht (by omega) hfilled
    (h.sized t List.mem_cons_self) fun u k' m₂ hu hm₂ => ?_
  obtain ⟨M', u', j, hcopied⟩ :=
    Mirror.exists_copied hu h.stamped (h.between.constants t List.mem_cons_self) hrenames
  have hpair : List.Forall₂ M'.ShowsPair [(a, u)] [(a, u')] :=
    .cons ⟨hcopied.le.shows (h.between.args a List.mem_cons_self), hcopied.shows⟩ .nil
  -- the copies of the other arguments are unified behind that of this one
  have hrun (τ' : Trail Empty) := Mirror.Reflects.run hcopied.stamped.toSound ctx.fuel
    (as.zip (Tree.copyAll ts ρ { σc with stamps := j }).1) τ' τ
    (h.reflects.le hcopied.le hcopied.reads k') hpair
  have hcopies : (a :: as).zip (Tree.copyAll (t :: ts) ρ σc).1 =
      [(a, u')] ++ as.zip (Tree.copyAll ts ρ { σc with stamps := j }).1 := by
    rw [Tree.copyAll, hcopied.copy]
    rfl
  rw [hcopies]
  refine hm₂.comes h₂ hle fun l m₃ hl hm₃ => ?_
  cases hl with | unify =>
  refine hm₃.yields_unify.imp (fun c m₄ hm₄ => ?_) fun i m₄ hi => ?_
  · obtain ⟨τ', b, hanswer, rfl, hm₄⟩ := hm₄
    obtain ⟨htrue, hfalse, -⟩ := hrun τ'
    cases b with
    | false =>
      obtain ⟨l, hl⟩ := hfalse hanswer
      exact ⟨nofun, fun _ => .backward m₄ hl⟩
    | true =>
      obtain ⟨E', σ₁', τ₁, l, hreflects, hl⟩ := htrue hanswer
      refine ⟨fun _ => (hrest _ { σc with stamps := j } σ₁' τ₁ M' E' m₄ ⟨hm₄, h.drop_succ,
        Nat.succ.inj h.length, h.distinct, fun t ht => h.sized t (List.mem_cons_of_mem _ ht),
        fun t ht => h.vars t (List.mem_cons_of_mem _ ht), h.between.tail hcopied.le,
        fun v w hv => h.pending v w (List.mem_cons_of_mem _ hv), hreflects, ?_⟩).imp
        fun r hr => hr.of_rest hl,
        fun hne => absurd rfl hne⟩
      rw [unifyInPlace, stamps_unifyPairs]
      exact hcopied.stamped
  · obtain ⟨rfl, τ', hnone⟩ := hi
    exact .spent m₄ ((hrun τ').2.2 hnone)

/-- The code of head arguments does what unification of the arguments with copies of these does. -/
theorem heads (hfull : limit - ops.length < stop - pc → full) (hρ : ρ.Fresh n last)
    (hV : ∀ v, V v → ∃ w, ρ[v.id]? = some w) {seen : Std.TreeMap Nat Unit}
    (h : Midway limit code args s slots ops ρ n V ts (Rule.directArguments ts seen) as i env σ σc σ' M P E pc m)
    (hstands : code.chunk.StandsHead slots i (ts.zip (Rule.directArguments ts seen)) pc stop) :
    Comes ctx stop (Matched full ctx.fuel (as.zip (Tree.copyAll ts ρ σc).1) σ' τ (Met slots ρ n V)) m := by
  induction ts generalizing seen as i pc env σ σc σ' τ M P E m with
  | nil =>
    obtain rfl := List.length_eq_zero_iff.mp h.length
    rw [List.zip_nil_left, Chunk.StandsHead] at hstands
    refine comes_here (h.spot.next.trans hstands.symm) (.forward (n := 1) rfl ?_)
    obtain rfl := h.spot.store
    obtain rfl := h.spot.slots
    exact ⟨M, P, E, h.reflects, h.between.old, fun v hv => h.between.known v hv List.not_mem_nil⟩
  | cons t ts ih =>
    obtain ⟨a, as, rfl⟩ := List.exists_cons_of_length_eq_add_one h.length
    obtain ⟨d, hd, hdirect⟩ := Rule.directArguments_cons t ts seen
    rw [hd] at h hstands
    rw [List.zip_cons_cons] at hstands
    cases d with
    | some v =>
      obtain ⟨rfl, -⟩ := hdirect v rfl
      rw [Chunk.StandsHead] at hstands
      obtain ⟨k, j, pc₁, pc₂, hk, hj, h₁, h₂, hrest⟩ := hstands
      obtain ⟨w, hw⟩ := hV v (h.vars _ List.mem_cons_self v (by simp [Tree.nodes]))
      have hlt := h₁.lt
      have hlt' := h₂.lt
      exact h.stores hfull hρ hw (Rule.not_mem_directArguments_of_mem (by simp [Tree.nodes])) hk hj h₁ h₂
        hrest.le.1 fun _ _ _ _ _ _ _ h' => ih (fun hroom => hfull (by omega)) h' hrest
    | none =>
      rw [Chunk.StandsHead] at hstands
      obtain ⟨k, pc₁, pc₂, pc₃, hk, h₁, ht, h₂, hrest⟩ := hstands
      have hlt := h₁.lt
      have hlt' := ht.lt
      have hlt'' := h₂.lt
      exact h.unifies hfull (fun v hv => Rule.not_mem_directArguments_of_mem hv) hk h₁ ht h₂ hrest.le.1
        fun _ _ _ _ _ _ _ h' => ih (fun hroom => hfull (by omega)) h' hrest

end Midway

end Activation

/-! ### Clauses -/

namespace Rule

/-- Unification of a call with a copy of the head of a clause whose variables have been renamed. -/
def unifyHead {α : Type} (n : Nat) (tag : Tag) (r : Rule) (args : List Term) (σ : Store) (τ : Trail α) :
    Option Bool × Store × Trail α :=
  let (head, _, σ) := r.renamedHead tag σ
  let (call, σ) := σ.compound tag args
  unifyInPlace n call head σ τ

/-- The code of the head of a clause: it makes variables, and stores or unifies the arguments. -/
def Begins (c : Chunk) (slots : Program.Slots) (r : Rule) (pc pc' : Nat) : Prop :=
  ∃ pc₁, c.StandsVariables slots r.unstored pc pc₁ ∧
    c.StandsHead slots 0 (r.args.zip (directArguments r.args ∅)) pc₁ pc'

/-- An activation is before the head code of a clause that has been called. The arguments, the bindings and
the constants of the head are terms that have been made, without NaN. -/
structure Called (c : Chunk) (size : Nat) (r : Rule) (content : Nat → Tag × List Term) (pc : Nat)
    (m : Machine) : Prop where
  /-- It runs the code. -/
  chunk : m.activation.code.chunk = c
  /-- The next instruction is the first one. -/
  next : m.activation.next = pc
  /-- There are as many arguments as the head has. -/
  arity : m.activation.args.size = r.args.length
  /-- The slots have been made. -/
  slots : m.activation.slots.size = size
  /-- The compounds in the head have as many arguments as their tags. -/
  sized : ∀ t ∈ r.args, t.Sized m.workspace.database.terms.symbols
  /-- Bindings between variables do not go round in a circle. -/
  rooted : m.workspace.database.terms.store.Rooted
  /-- The bindings have been made. -/
  bindings : m.workspace.database.terms.store.MadeAll content
  /-- The arguments have been made. -/
  args : ∀ t ∈ m.activation.args, m.workspace.database.terms.store.Made content t
  /-- So have the constants of the head. -/
  constants : ∀ T ∈ r.args, ∀ t ∈ c.constants, t.erase.nodes ⊆ T.nodes →
    m.workspace.database.terms.store.Made content t

variable {c : Chunk} {slots : Program.Slots} {r : Rule} {rules : List Rule}

/-- The code of every clause begins with that of its head. -/
theorem Stands.begins {pc n pc' n' : Nat} (h : r.Stands c slots pc n pc' n') :
    ∃ pc pc', r.Begins c slots pc pc' := by
  obtain ⟨pc₁, pc₂, -, hvars, hhead, -⟩ := h
  exact ⟨pc, pc₂, pc₁, hvars, hhead⟩

theorem StandsRest.begins : ∀ {rules : List Rule} {r : Rule} {pc n : Nat}, StandsRest c slots r rules pc n →
    ∀ r' ∈ r :: rules, ∃ pc pc', r'.Begins c slots pc pc'
  | [], r, pc, n, h => by
    rw [StandsRest] at h
    obtain ⟨pc₁, pc', n', -, h⟩ := h
    simpa using h.begins
  | r₁ :: rules, r, pc, n, h => by
    rw [StandsRest] at h
    obtain ⟨pc₁, pc', n', -, h, hrest⟩ := h
    exact List.forall_mem_cons.mpr ⟨h.begins, hrest.begins⟩

theorem StandsAll.begins : ∀ {rules : List Rule} {pc n : Nat}, StandsAll c slots rules pc n →
    ∀ r ∈ rules, ∃ pc pc', r.Begins c slots pc pc'
  | [], _, _, h => h.elim
  | [r], pc, n, h => by
    rw [StandsAll] at h
    obtain ⟨pc', n', h⟩ := h
    simpa using h.begins
  | r :: r₁ :: rules, pc, n, h => by
    rw [StandsAll] at h
    obtain ⟨pc₁, pc', n', -, h, hrest⟩ := h
    exact List.forall_mem_cons.mpr ⟨h.begins, hrest.begins⟩

theorem eq_or_le_size_of_standsVariables : ∀ {vs : List Var} {pc pc' : Nat},
    c.StandsVariables slots vs pc pc' → pc' = pc ∨ pc' ≤ c.code.size
  | [], _, _, h => by
    rw [Chunk.StandsVariables] at h
    exact .inl h
  | v :: vs, _, _, h => by
    rw [Chunk.StandsVariables] at h
    obtain ⟨_, _, _, -, -, hstore, hrest⟩ := h
    obtain rfl | hle := eq_or_le_size_of_standsVariables hrest
    · exact .inr hstore.le_size
    · exact .inr hle

theorem eq_or_le_size_of_standsHead : ∀ {args : List (Tree × Option Var)} {i pc pc' : Nat},
    c.StandsHead slots i args pc pc' → pc' = pc ∨ pc' ≤ c.code.size
  | [], _, _, _, h => by
    rw [Chunk.StandsHead] at h
    exact .inl h
  | (_, some v) :: args, _, _, _, h => by
    rw [Chunk.StandsHead] at h
    obtain ⟨_, _, _, _, -, -, -, hstore, hrest⟩ := h
    obtain rfl | hle := eq_or_le_size_of_standsHead hrest
    · exact .inr hstore.le_size
    · exact .inr hle
  | (_, none) :: args, _, _, _, h => by
    rw [Chunk.StandsHead] at h
    obtain ⟨_, _, _, _, -, -, -, hunify, hrest⟩ := h
    obtain rfl | hle := eq_or_le_size_of_standsHead hrest
    · exact .inr hunify.le_size
    · exact .inr hle

/-- The code of a head is no longer than all the code. -/
theorem Begins.length_le {pc pc' : Nat} (h : r.Begins c slots pc pc') : pc' - pc ≤ c.code.size := by
  obtain ⟨pc₁, hmakes, hhead⟩ := h
  have hmakes := eq_or_le_size_of_standsVariables hmakes
  have hhead := eq_or_le_size_of_standsHead hhead
  omega

/-- What holds of all results is yielded. -/
theorem yields_of_forall {ε σ α : Type} {x : EStateM ε σ α} {s : σ} {Q : α → σ → Prop}
    (hQ : ∀ a s', Q a s') : Yields x s Q fun _ _ => True := by
  unfold Yields
  split
  · exact hQ _ _
  · trivial

/-- The variables of the head are among those of the clause. -/
theorem yields_ofClause (σ : Store) (clause : Clause) (s : Symbols) : Yields (ofClause σ clause) s
    (fun r _ => ∀ t ∈ r.args, ∀ v, .var v ∈ t.nodes → v ∈ r.vars) fun _ _ => True := by
  rw [ofClause]
  dsimp only
  cases hhead : σ.resolve clause.head with
  | var v => trivial
  | const c =>
    cases c with
    | atom a =>
      rw [yields_bind, yields_pure, yields_bind]
      exact yields_of_forall fun _ _ => yields_pure.mpr fun t ht => absurd ht List.not_mem_nil
    | _ => trivial
  | compound tag args =>
    rw [yields_bind, yields_pure, yields_bind]
    refine yields_of_forall fun _ _ => yields_pure.mpr fun t ht v hv => ?_
    refine Var.mem_distinct (List.mem_filterMap.mpr ⟨.var v, ?_, rfl⟩)
    rw [List.mem_append, Tree.postorder_eq, Tree.nodes, List.mem_append]
    exact .inl (.inl (Tree.mem_nodesAll.mpr ⟨t, ht, hv⟩))

/-- So it is with all clauses of a predicate. -/
theorem yields_mapM_ofClause (σ : Store) : ∀ (clauses : List Clause) (s : Symbols),
    Yields (clauses.mapM (ofClause σ)) s
      (fun rules _ => ∀ r ∈ rules, ∀ t ∈ r.args, ∀ v, .var v ∈ t.nodes → v ∈ r.vars) fun _ _ => True
  | [], s => yields_pure.mpr fun r hr => absurd hr List.not_mem_nil
  | clause :: clauses, s => by
    rw [List.mapM_cons, yields_bind]
    refine (yields_ofClause σ clause s).imp (fun r s' hr => ?_) fun _ _ h => h
    rw [yields_bind]
    refine (yields_mapM_ofClause σ clauses s').imp (fun rs s'' hrs => ?_) fun _ _ h => h
    exact yields_pure.mpr (List.forall_mem_cons.mpr ⟨hr, hrs⟩)

/-- What unification with a copy of the head does first. -/
theorem unifyHead_eq {α : Type} (tag : Tag) (σ : Store) (args : List Term)
    (hknown : ∀ t ∈ r.args, ∀ v, .var v ∈ t.nodes → ∃ w, (r.newVariables σ).1[v.id]? = some w) :
    ∃ pairs k, (∀ n (τ : Trail α), r.unifyHead n tag args σ τ =
        unifyPairs n pairs { (r.newVariables σ).2 with stamps := k } τ) ∧
      ∀ n (τ : Trail α), unifyPairs (1 + n) pairs { (r.newVariables σ).2 with stamps := k } τ =
        unifyPairs n (args.zip (Tree.copyAll r.args (r.newVariables σ).1 (r.newVariables σ).2).1)
          { (r.newVariables σ).2 with stamps := k } τ := by
  obtain ⟨us, k, hcopy⟩ := Tree.copyAll_known r.args (r.newVariables σ).2 fun v hv => by
    obtain ⟨t, ht, hv⟩ := Tree.mem_nodesAll.mp hv
    exact hknown t ht v hv
  refine ⟨[(.compound (k + 1) tag args, .compound k tag us)], k + 2, fun n τ => ?_, fun n τ => ?_⟩
  · rw [unifyHead, renamedHead_eq, Tree.copy, hcopy]
    rfl
  · rw [hcopy, Nat.add_comm, unifyPairs_cons, unifyStep, Store.deref_of_nonvar _ (by simp),
      Store.deref_of_nonvar _ (by simp)]
    dsimp only
    rw [if_neg (Nat.succ_ne_self k), if_pos rfl, Option.elim_some, List.append_nil]

/-- From a call on, the head code does what unification of the call with a copy of the head does. With room
for an operand per byte there is enough. -/
theorem Called.comes {β : Type} {size pc pc' : Nat} {content : Nat → Tag × List Term} {m : Machine}
    (tag : Tag) (τ : Trail β) (hbegins : r.Begins c slots pc pc') (hslots : slots.Distinct size)
    (hvars : ∀ t ∈ r.args, ∀ v, .var v ∈ t.nodes → v ∈ r.vars) (h : r.Called c size content pc m) :
    ∃ pairs σ', (∀ n, r.unifyHead n tag m.activation.args.toList m.workspace.database.terms.store τ =
        unifyPairs n pairs σ' τ) ∧
      ∀ ctx, Activation.Comes ctx pc' (Activation.Matched (Activation.room m < pc' - pc) ctx.fuel pairs σ' τ
        (Activation.Met slots (r.newVariables m.workspace.database.terms.store).1
          m.workspace.database.terms.store.size (· ∈ r.vars))) m := by
  obtain ⟨pc₁, hmakes, hhead⟩ := hbegins
  have hchunk := h.chunk.symm
  subst hchunk
  have hsize := h.slots.symm
  subst hsize
  let σ := m.workspace.database.terms.store
  obtain ⟨hext, hstamps, hfresh, hknown⟩ := r.newVariables_spec σ
  obtain ⟨pairs, k, hunify, hfirst⟩ := r.unifyHead_eq (α := β) tag σ m.activation.args.toList
    fun t ht v hv => hknown v (hvars t ht v hv)
  let σ' : Store := { (r.newVariables σ).2 with stamps := k }
  have hext' : σ.Extends σ' := ⟨hext.size, hext.value⟩
  have hfresh' : Store.Renaming.Fresh σ.size (r.newVariables σ).1 σ' := ⟨hfresh.made, hfresh.inj⟩
  refine ⟨pairs, σ', fun n => hunify n τ, fun ctx => ?_⟩
  have hspot : Activation.Spot m.workspace.engine.config.maxOperands m.activation.code m.activation.args
      m.workspace.database.terms.symbols σ
      m.activation.slots m.activation.operands.toList pc m := ⟨rfl, rfl, rfl, rfl, rfl, rfl, h.next, rfl⟩
  have hroom {k : Nat} (hk : pc ≤ k)
      (h : m.workspace.engine.config.maxOperands - m.activation.operands.toList.length < pc' - k) :
      Activation.room m < pc' - pc := by
    rw [Array.length_toList] at h
    rw [Activation.room]
    omega
  have hnone : slots.Fresh m.activation.slots σ.size σ [] :=
    ⟨fun v hv => absurd hv List.not_mem_nil, fun v hv => absurd hv List.not_mem_nil⟩
  -- the code makes the variables that no argument stores; the others are pending
  refine Activation.Spot.makes (fun h m' => .overflow m' (hroom (Nat.le_refl pc) h)) hmakes hhead.le.1 hslots
    hnone (Nat.le_refl _) hspot
    fun σ₁ env m₁ hm₁ hext₁ hstamps₁ hsize hmade => ?_
  rw [List.append_nil] at hmade
  obtain ⟨E, hreflects⟩ := Mirror.reflects_ofCall h.rooted h.bindings hext₁ hext' hmade hfresh'
  have hmem {v : Var} (hv : v ∈ r.vars) : v ∈ r.unstored.reverse ↔ some v ∉ directArguments r.args ∅ := by
    rw [List.mem_reverse, unstored, List.mem_filter]
    simp [hv]
  have hbetween : (Mirror.ofCall slots env (r.newVariables σ).1 σ.size σ.stamps content
      r.unstored.reverse).Between m.activation.code.chunk slots env (r.newVariables σ).1 σ.size (· ∈ r.vars)
      r.args (directArguments r.args ∅) m.activation.args.toList := by
    refine ⟨fun v hv => .inl ⟨rfl, hv⟩, fun v hv hd => ?_, fun t ht => ?_, fun T hT t ht hnodes => ?_⟩
    · obtain ⟨w, hw⟩ := hknown v hv
      obtain ⟨u, hu, -⟩ := hmade.holds v ((hmem hv).mpr hd)
      exact ⟨.var u, w, hu, hw, .inr ⟨v, (hmem hv).mpr hd, hu, hw⟩⟩
    · exact Mirror.shows_ofCall (h.args t (Array.mem_toList_iff.mp ht))
    · exact Mirror.shows_ofCall (h.constants T hT t ht hnodes)
  have hpending (v w : Var) (hv : some v ∈ directArguments r.args ∅)
      (hw : (r.newVariables σ).1[v.id]? = some w) :
      ∃ v ∉ r.unstored.reverse, (r.newVariables σ).1[v.id]? = some w :=
    ⟨v, fun hmem => by simpa [hv] using (List.mem_filter.mp (List.mem_reverse.mp hmem)).2, hw⟩
  have hstamped : (Mirror.ofCall slots env (r.newVariables σ).1 σ.size σ.stamps content
      r.unstored.reverse).Stamped σ₁.stamps (r.newVariables σ).2.stamps := by
    rw [hstamps₁, hstamps]
    exact Mirror.stamped_ofCall ..
  have hmidway : Activation.Midway m.workspace.engine.config.maxOperands m.activation.code m.activation.args
      m.workspace.database.terms.symbols slots m.activation.operands.toList (r.newVariables σ).1 σ.size
      (· ∈ r.vars) r.args (directArguments r.args ∅) m.activation.args.toList 0 env σ₁
      (r.newVariables σ).2 σ' _ _ E pc₁ m₁ :=
    ⟨hm₁, List.drop_zero, by rw [Array.length_toList, h.arity], hsize ▸ hslots, h.sized, hvars, hbetween,
      hpending, hreflects, hstamped⟩
  exact (hmidway.heads (hroom hmakes.le) hfresh hknown hhead).imp fun result hresult =>
    hresult.of_rest fun n => hfirst n τ

end Rule

/-- The second term means with the bindings of the second store what the first one means with those of the
first store, but for the names of variables: to any depth, and all the way down if no binding leads back to
its variable. -/
structure Store.Alike (f : Var → Var) (σ σ' : Store) (t u : Term) : Prop where
  /-- To any depth. -/
  prune : ∀ d, σ'.prune d u = (σ.prune d t).rename f
  /-- All the way down. -/
  resolve : σ.Acyclic → σ'.Acyclic → σ'.resolve u = (σ.resolve t).rename f

namespace Rule

variable {c : Chunk} {slots : Program.Slots} {r : Rule} {β : Type}

/-- Head code does what unification of the call with a copy of the head does: it succeeds if and only if
that does, and fails if and only if that does. If they succeed, the variables that the caller has mean the
same, and what is in the slots of the clause's variables is what the renamed variables mean, up to the names
of unbound variables; those that the caller has keep theirs. -/
structure Matches (r : Rule) (tag : Tag) (slots : Program.Slots) (ctx : Context) (stop : Nat) (m : Machine)
    (τ : Trail β) : Prop where
  /-- Both succeed or none of them. -/
  succeeds : (∃ fuel m', Activation.Ends { ctx with fuel := fuel } stop m (.ok .forward m')) ↔
    ∃ n, (r.unifyHead n tag m.activation.args.toList m.workspace.database.terms.store τ).1 = some true
  /-- Both fail or none of them. -/
  fails : (∃ fuel m', Activation.Ends { ctx with fuel := fuel } stop m (.ok .backward m')) ↔
    ∃ n, (r.unifyHead n tag m.activation.args.toList m.workspace.database.terms.store τ).1 = some false
  /-- Variables and slots mean the same afterwards. -/
  agrees : ∀ fuel m' n, Activation.Ends { ctx with fuel := fuel } stop m (.ok .forward m') →
    ∀ σ' τ', r.unifyHead n tag m.activation.args.toList m.workspace.database.terms.store τ =
        (some true, σ', τ') →
      ∃ f : Var → Var, Function.Injective f ∧
        (∀ v : Var, v.id < m.workspace.database.terms.store.size →
          Store.Alike f m'.workspace.database.terms.store σ' (.var v) (.var v) ∧
          (m'.workspace.database.terms.store.value? v = none → f v = v)) ∧
        ∀ v ∈ r.vars, ∃ t w, slots.Holds m'.activation.slots v t ∧
          (r.newVariables m.workspace.database.terms.store).1[v.id]? = some w ∧
          Store.Alike f m'.workspace.database.terms.store σ' t (.var w)

/-- Unification comes to one answer. -/
theorem unifyPairs_unique {α : Type} {pairs : List (Term × Term)} {σ : Store} {τ : Trail α} {n k : Nat}
    {a b : Bool} (hn : (unifyPairs n pairs σ τ).1 = some a) (hk : (unifyPairs k pairs σ τ).1 = some b) :
    unifyPairs n pairs σ τ = unifyPairs k pairs σ τ := by
  have hlonger {n : Nat} {a : Bool} (hn : (unifyPairs n pairs σ τ).1 = some a) (k : Nat) :
      unifyPairs (max n k) pairs σ τ = unifyPairs n pairs σ τ := by
    generalize hx : unifyPairs n pairs σ τ = x at hn
    obtain ⟨answer, y⟩ := x
    subst hn
    exact unifyPairs_of_le (Nat.le_max_left n k) hx
  rw [← hlonger hn k, Nat.max_comm, hlonger hk n]

/-- Where a head has been matched, variables and slots mean what they mean after unification. -/
theorem exists_alike {ρ : Store.Renaming} {n : Nat} {V : Var → Prop} {m : Machine} {σ' : Store}
    (h : Activation.Met slots ρ n V m σ') : ∃ f : Var → Var, Function.Injective f ∧
      (∀ v : Var, v.id < n → Store.Alike f m.workspace.database.terms.store σ' (.var v) (.var v) ∧
        (m.workspace.database.terms.store.value? v = none → f v = v)) ∧
      ∀ v, V v → ∃ t w, slots.Holds m.activation.slots v t ∧ ρ[v.id]? = some w ∧
        Store.Alike f m.workspace.database.terms.store σ' t (.var w) := by
  obtain ⟨M, P, E, hreflects, hold, hknown⟩ := h
  obtain ⟨f, hf, hE⟩ := hreflects.pairing.exists_rename
  have halike {t : Term} {w : Var} (hreads : M.reads t w) :
      Store.Alike f m.workspace.database.terms.store σ' t (.var w) :=
    ⟨fun d => hreflects.prune hE d (.reads hreads),
      fun hσ hσ' => hreflects.resolve hE hσ hσ' (.reads hreads)⟩
  refine ⟨f, hf, fun v hv => ⟨halike (hold v hv), fun hnone => ?_⟩, fun v hv => ?_⟩
  · have hfaces := hreflects.reads _ _ (hold v hv)
    rw [Store.deref_unbound hnone] at hfaces
    generalize σ'.deref (.var v) = t at hfaces
    cases hfaces with
    | var hvw => rw [hE _ _ hvw, hreflects.pairing.old _ _ hvw (.inl hv)]
  · obtain ⟨t, w, ht, hw, hreads⟩ := hknown v hv
    exact ⟨t, w, ht, hw, halike hreads⟩

/-- With room for an operand per byte of the head code there is enough. -/
theorem Called.not_overflow {size pc pc' : Nat} {content : Nat → Tag × List Term} {m : Machine}
    (ctx : Context) (hbegins : r.Begins c slots pc pc') (hslots : slots.Distinct size)
    (hvars : ∀ t ∈ r.args, ∀ v, .var v ∈ t.nodes → v ∈ r.vars) (h : r.Called c size content pc m)
    (hroom : pc' - pc ≤ Activation.room m) (m' : Machine) :
    ¬ Activation.Ends ctx pc' m (.error (.fault .stackOverflow) m') := by
  intro hends
  -- the head is matched the same way whatever tag it has and whatever the trail is
  obtain ⟨_, _, -, hcomes⟩ := h.comes default (.empty : Trail Empty) hbegins hslots hvars
  obtain ⟨result, hends', hmatched⟩ := hcomes ctx
  obtain rfl := hends.unique hends'
  cases hmatched with | overflow _ hfull => exact Nat.not_lt.mpr hroom hfull

/-- From a call on, head code does what unification of the call with a copy of the head does, if there is
room for the operands. -/
theorem Called.matches_of_room {size pc pc' : Nat} {content : Nat → Tag × List Term} {m : Machine}
    (ctx : Context) (tag : Tag) (τ : Trail β) (hbegins : r.Begins c slots pc pc')
    (hslots : slots.Distinct size) (hvars : ∀ t ∈ r.args, ∀ v, .var v ∈ t.nodes → v ∈ r.vars)
    (h : r.Called c size content pc m) (hroom : ∀ fuel m',
      ¬ Activation.Ends { ctx with fuel := fuel } pc' m (.error (.fault .stackOverflow) m')) :
    r.Matches tag slots ctx pc' m τ := by
  obtain ⟨pairs, σ', hunify, hcomes⟩ := h.comes tag τ hbegins hslots hvars
  have hmatched {fuel : Nat} {result : EStateM.Result Interrupt Machine Course}
      (hends : Activation.Ends { ctx with fuel := fuel } pc' m result) :
      Activation.Matched (Activation.room m < pc' - pc) fuel pairs σ' τ (Activation.Met slots
        (r.newVariables m.workspace.database.terms.store).1 m.workspace.database.terms.store.size
        (· ∈ r.vars)) result := by
    obtain ⟨result', hends', hresult⟩ := hcomes { ctx with fuel := fuel }
    obtain rfl := hends.unique hends'
    exact hresult
  -- with as much fuel as the unification takes, the code comes to its end in the same way
  have hdecided {n : Nat} {b : Bool} (hn : (unifyPairs n pairs σ' τ).1 = some b) :
      ∃ m', Activation.Ends { ctx with fuel := n } pc' m (.ok (if b then .forward else .backward) m') := by
    obtain ⟨result, hends, hresult⟩ := hcomes { ctx with fuel := n }
    cases hresult with
    | overflow m' _ => exact absurd hends (hroom n m')
    | spent m' hnone =>
      rw [hn] at hnone
      cases hnone
    | backward m' hk =>
      rw [unifyPairs_unique hn hk, hk] at hn
      cases hn
      exact ⟨m', hends⟩
    | forward hk =>
      rw [unifyPairs_unique hn hk, hk] at hn
      cases hn
      exact ⟨_, hends⟩
  refine ⟨⟨fun ⟨fuel, m', hends⟩ => ?_, fun ⟨n, hn⟩ => ?_⟩, ⟨fun ⟨fuel, m', hends⟩ => ?_, fun ⟨n, hn⟩ => ?_⟩,
    fun fuel m' n hends σ₁ τ₁ hn => ?_⟩
  · cases hmatched hends with | forward hk => exact ⟨_, by rw [hunify]; exact hk⟩
  · rw [hunify] at hn
    exact ⟨n, hdecided hn⟩
  · cases hmatched hends with | backward _ hk => exact ⟨_, by rw [hunify]; exact hk⟩
  · rw [hunify] at hn
    exact ⟨n, hdecided hn⟩
  · rw [hunify] at hn
    cases hmatched hends with | forward hk hmet =>
    rw [← unifyPairs_unique (congrArg Prod.fst hn) hk, hn] at hmet
    exact exists_alike hmet

end Rule

/-- The slots of the variables of clauses, and how many slots there are. -/
abbrev Program.slotsOf (rules : List Rule) : Program.Slots × Nat :=
  Program.variableSlots (1 + total (rules.map fun r => Body.slots r.body)) rules

theorem Chunk.Holds.distinct {c : Chunk} {rules : List Rule} (h : c.Holds rules) :
    (Program.slotsOf rules).1.Distinct (Program.slotsOf rules).2 := by
  have hnumbered := Program.numbered_variableSlots (1 + total (rules.map fun r => Body.slots r.body)) rules
  have hle := h.size_le
  rw [Program.maxOperand] at hle
  refine ⟨hnumbered.injective (by omega), fun i s hi => ?_⟩
  obtain ⟨n, -, hn, rfl⟩ := hnumbered.range i s hi
  rwa [UInt16.toNat_ofNat_of_lt' (show n < 65536 by omega)]

/-- In compiled code stands the head code of every clause; and where it stands, whenever it is come to with
arguments of a call, without NaN and with room for the operands, it matches them just as unification of the
call with a renamed copy of the head does. There is room enough if there is room for an operand per byte. -/
theorem Chunk.matches_unifyHead {tag : Tag} {clauses : List Clause} {u u' : Universe} {c : Chunk}
    (h : Chunk.ofClauses tag clauses u = .ok c u') :
    ∃ rules s, clauses.mapM (Rule.ofClause u.store) u.symbols = .ok rules s ∧ ∀ r ∈ rules,
      (∃ pc pc', r.Begins c (Program.slotsOf rules).1 pc pc') ∧
      ∀ pc pc' content ctx m (β : Type) (τ : Trail β), r.Begins c (Program.slotsOf rules).1 pc pc' →
        r.Called c (Program.slotsOf rules).2 content pc m →
        ((∀ fuel m', ¬ Activation.Ends { ctx with fuel := fuel } pc' m (.error (.fault .stackOverflow) m')) →
          r.Matches tag (Program.slotsOf rules).1 ctx pc' m τ) ∧
        (pc' - pc ≤ Activation.room m → ∀ fuel m',
          ¬ Activation.Ends { ctx with fuel := fuel } pc' m (.error (.fault .stackOverflow) m')) := by
  obtain ⟨rules, s, hrules, hholds, -⟩ := Chunk.holds_of_ofClauses h
  have hvars := yields_ok (Rule.yields_mapM_ofClause u.store clauses u.symbols) hrules
  refine ⟨rules, s, hrules, fun r hr => ⟨?_, fun pc pc' content ctx m β τ hbegins hcalled =>
    ⟨fun hroom => hcalled.matches_of_room ctx tag τ hbegins hholds.distinct (hvars r hr) hroom,
      fun hroom fuel m' => hcalled.not_overflow _ hbegins hholds.distinct (hvars r hr) hroom m'⟩⟩⟩
  obtain ⟨pc₁, pc₂, -, -, hall⟩ := hholds.rules (List.ne_nil_of_mem hr)
  exact hall.begins r hr

/-- The tag `p/3`. -/
def sampleTag : Tag :=
  (Symbols.initial.tagNamed "p" 3).1

/-- The tag `f/1`. -/
def sampleFunctor : Tag :=
  ((Symbols.initial.tagNamed "p" 3).2.tagNamed "f" 1).1

/-- A universe in which there are two variables for a clause and three more, the middle one of which is
bound to the first one. -/
def sampleUniverse : Universe where
  symbols := ((Symbols.initial.tagNamed "p" 3).2.tagNamed "f" 1).2
  store := (⟨Array.replicate 5 none, 3⟩ : Store).bind ⟨3⟩ (.var ⟨2⟩)

/-- The clause `p(X, f(X), f(Y)) :- true`. -/
def sampleClause : Clause :=
  ⟨.compound 2 sampleTag [.var ⟨0⟩, .compound 0 sampleFunctor [.var ⟨0⟩],
    .compound 1 sampleFunctor [.var ⟨1⟩]], .atom .trueGoal⟩

/-- The arguments of its head. -/
def sampleArgs : List Tree :=
  [.var ⟨0⟩, .compound sampleFunctor [.var ⟨0⟩], .compound sampleFunctor [.var ⟨1⟩]]

theorem exists_sample : ∃ c u' r s,
    Chunk.ofClauses sampleTag [sampleClause] sampleUniverse = .ok c u' ∧
    [sampleClause].mapM (Rule.ofClause sampleUniverse.store) sampleUniverse.symbols = .ok [r] s ∧
    c.constants = #[] ∧ c.code.size ≤ Config.standard.maxOperands ∧ r.args = sampleArgs ∧ r.vars = [⟨0⟩, ⟨1⟩] := by
  have hmade : ((answer? (Chunk.ofClauses sampleTag [sampleClause]) sampleUniverse).filter
      fun x => x.1.constants.size = 0 ∧ x.1.code.size ≤ Config.standard.maxOperands).isSome := by decide +kernel
  obtain ⟨⟨c, u'⟩, hmade⟩ := Option.isSome_iff_exists.mp hmade
  obtain ⟨hmade, hsizes⟩ := Option.filter_eq_some_iff.mp hmade
  obtain ⟨hconstants, hcode⟩ := of_decide_eq_true hsizes
  have hrules : ((answer? ([sampleClause].mapM (Rule.ofClause sampleUniverse.store))
      sampleUniverse.symbols).map fun x => x.1.map fun r => (r.args, r.vars)) =
      some [(sampleArgs, [⟨0⟩, ⟨1⟩])] := by decide +kernel
  obtain ⟨⟨rules, s⟩, hanswer, hmap⟩ := Option.map_eq_some_iff.mp hrules
  obtain ⟨r, rfl, hr⟩ := List.map_eq_singleton_iff.mp hmap
  obtain ⟨hargs, hvars⟩ := Prod.mk.inj hr
  exact ⟨c, u', r, s, answer?_eq_some.mp hmade, answer?_eq_some.mp hanswer,
    Array.eq_empty_of_size_eq_zero hconstants, hcode, hargs, hvars⟩

/-- A machine before the code of the clause, called as `p(A, B, B)` where `A` is a variable that is bound to
another one. -/
def sampleMachine (c : Chunk) (pc size : Nat) : Machine where
  workspace := ⟨{ Database.empty with terms := sampleUniverse }, .ofConfig .standard⟩
  activation := ⟨⟨c, 0⟩, #[.var ⟨3⟩, .var ⟨4⟩, .var ⟨4⟩], pc, pc, #[], Array.replicate size .empty, 0⟩

theorem value?_sample {v : Var} {t : Term} (h : sampleUniverse.store.value? v = some t) :
    v = ⟨3⟩ ∧ t = .var ⟨2⟩ := by
  rw [sampleUniverse, Store.value?_bind] at h
  split at h
  · rename_i hv
    exact ⟨hv.1.symm, (Option.some.inj h).symm⟩
  · simp only [Store.value?, Array.getElem?_replicate] at h
    split at h <;> cases h

theorem called_sampleMachine {c : Chunk} {r : Rule} (hconstants : c.constants = #[])
    (hargs : r.args = sampleArgs) (pc size : Nat) :
    r.Called c size (fun _ => (sampleTag, [])) pc (sampleMachine c pc size) where
  chunk := rfl
  next := rfl
  arity := by rw [hargs]; rfl
  slots := Array.size_replicate ..
  sized := by
    have harity : sampleUniverse.symbols.arity sampleFunctor = 1 := by decide +kernel
    have hvar (v : Var) : (Tree.compound sampleFunctor [.var v]).Sized sampleUniverse.symbols :=
      .compound harity (List.forall_mem_singleton.mpr (.var v))
    rw [hargs, sampleArgs]
    exact List.forall_mem_cons.mpr ⟨.var _, List.forall_mem_cons.mpr ⟨hvar _,
      List.forall_mem_singleton.mpr (hvar _)⟩⟩
  rooted := by
    have hlt (v w : Var) (hw : sampleUniverse.store.Leads v w) : w.id < v.id := by
      obtain ⟨rfl, h⟩ := value?_sample hw
      obtain rfl := Term.var.inj h
      exact Nat.lt_succ_self 2
    exact not_transGen_of_rank hlt
  bindings v t hv := by
    obtain ⟨-, rfl⟩ := value?_sample hv
    exact .var (show 2 < 5 by decide)
  args := by
    rw [sampleMachine]
    simp only [List.mem_toArray, List.forall_mem_cons]
    have hvar {v : Var} (hv : v.id < 5) : sampleUniverse.store.Made (fun _ => (sampleTag, [])) (.var v) :=
      .var hv
    exact ⟨hvar (by decide), hvar (by decide), hvar (by decide), fun t ht => absurd ht List.not_mem_nil⟩
  constants T _ t ht := by
    rw [hconstants] at ht
    exact absurd ht (Array.not_mem_empty t)

/-- The call and a copy of the head have a unifier. -/
theorem unifyHead_sample {r : Rule} (hargs : r.args = sampleArgs) (hvars : r.vars = [⟨0⟩, ⟨1⟩]) :
    (r.unifyHead 20 sampleTag [.var ⟨3⟩, .var ⟨4⟩, .var ⟨4⟩] sampleUniverse.store
      (.empty : Trail Empty)).1 = some true := by
  rw [Rule.unifyHead, Rule.renamedHead, Rule.newVariables, hargs, hvars]
  decide +kernel

/-- The head code of the clause stores the first argument, builds the other two, and binds variables when
it unifies with them. -/
theorem Chunk.matches_unifyHead_sample : ∃ (c : Chunk) (u' : Universe) (r : Rule) (slots : Program.Slots)
    (pc pc' size : Nat), Chunk.ofClauses sampleTag [sampleClause] sampleUniverse = .ok c u' ∧
    r.args = sampleArgs ∧ r.Begins c slots pc pc' ∧ ∀ ctx : Context,
      r.Matches sampleTag slots ctx pc' (sampleMachine c pc size) (.empty : Trail Empty) ∧
      ∃ fuel m',
        Activation.Ends { ctx with fuel := fuel } pc' (sampleMachine c pc size) (.ok .forward m') := by
  obtain ⟨c, u', r, s, hchunk, hanswer, hconstants, hcode, hargs, hvars⟩ := exists_sample
  obtain ⟨rules, s', hrules, hall⟩ := Chunk.matches_unifyHead hchunk
  rw [hanswer] at hrules
  cases hrules
  obtain ⟨⟨pc, pc', hbegins⟩, hmatches⟩ := hall r List.mem_cons_self
  refine ⟨c, u', r, _, pc, pc', (Program.slotsOf [r]).2, hchunk, hargs, hbegins, fun ctx => ?_⟩
  obtain ⟨hmatches, henough⟩ := hmatches pc pc' _ ctx _ Empty .empty hbegins
    (called_sampleMachine hconstants hargs pc _)
  have h := hmatches (henough (Nat.le_trans hbegins.length_le hcode))
  exact ⟨h, h.succeeds.mpr ⟨20, unifyHead_sample hargs hvars⟩⟩

end Resolvent
