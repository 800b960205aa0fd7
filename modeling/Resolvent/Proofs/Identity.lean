import Mathlib
import Resolvent.Proofs.Unifiers

/-!
# Unification without identities

Unification does not look inside two compounds that are one structure. `unifyPlainly` does without this
shortcut: compounds with one tag are always compared argument by argument. The shortcut is sound as far as
every constant unifies with itself, and all do but NaN (`Constant.unifies_self_iff`). So for terms in which
no NaN is found on reading them (`Store.NaNFree`) both agree (`unifyInPlace_plainly`): what the plain
version answers is the answer, with the same bindings; and as long as no circle has been made, the plain
version answers whatever is answered. Two terms that denote the same unify, and nothing is bound.

Neither restriction can be left out (`unifyInPlace_plainly_differ`). A structure with a NaN in it unifies
with itself, but not with another one that looks the same; and a circle that unification has made may be
compared with itself by the shortcut only, as there is no occurs check.
-/

namespace Resolvent

/-! ### Constants that do not unify with themselves -/

namespace Binary64

open Float.Model Float.Model.UnpackedFloat

theorem isNaNBits_iff (b : UInt64) : @isNaNBits .binary64 b.toBitVec = true ↔
    infinityBits < b.toNat % 0x8000000000000000 := by
  have hfraction : (@unpackMantissa .binary64 b.toBitVec).toNat = b.toNat % 2 ^ 52 := by
    rw [unpackMantissa_def]
    simp [BitVec.extractLsb'_toNat]
  have hexponent : (@unpackExponent .binary64 b.toBitVec).toNat = b.toNat / 2 ^ 52 % 2 ^ 11 := by
    rw [unpackExponent_def, BitVec.extractLsb'_toNat, Nat.shiftRight_eq_div_pow]
    rfl
  simp only [isNaNBits, decide_eq_true_eq, ne_eq, ← BitVec.toNat_inj, hfraction, hexponent, infinityBits]
  change b.toNat / 2 ^ 52 % 2 ^ 11 = 2047 ∧ ¬ b.toNat % 2 ^ 52 = 0 ↔ _
  omega

theorem toFloat_eq_nan_iff (x : Binary64) : x.toFloat = Float.nan ↔ x.isNaN = true := by
  have hbits : x.toFloat.toBits.toBitVec = if @isNaNBits .binary64 x.bits.toBitVec then
      packedNaN .binary64 else x.bits.toBitVec := @pack_unpack .binary64 x.bits.toBitVec (by decide)
  have hnan : Float.nan.toBits.toBitVec = packedNaN .binary64 := by decide +kernel
  rw [← Float.toBits_inj, ← UInt64.toBitVec_inj, hbits, hnan, isNaN, decide_eq_true_eq, magnitude,
    ← isNaNBits_iff]
  split
  · simpa
  · rename_i hx
    refine iff_of_false (fun heq => ?_) hx
    rw [heq] at hx
    exact hx isNaNBits_packedNaN

/-- A float is near itself unless it is a NaN. -/
theorem near_self (x : Binary64) : x.near x = !x.isNaN := by
  unfold near
  cases hx : x.isNaN with
  | true =>
    have hfinite : x.isFinite = false := by
      simp only [isFinite, isNaN, decide_eq_true_eq, decide_eq_false_iff_not] at hx ⊢
      omega
    simp [(toFloat_eq_nan_iff x).mpr hx, hfinite]
  | false =>
    have hne : x.toFloat ≠ Float.nan := by
      intro heq
      rw [(toFloat_eq_nan_iff x).mp heq] at hx
      cases hx
    simp [hne]

end Binary64

/-- A constant unifies with itself unless it is a NaN. -/
theorem Constant.unifies_self_iff {c : Constant} :
    c.unifies c = true ↔ ∀ x, c = .float x → x.isNaN = false := by
  cases c with
  | float x =>
    rw [Constant.unifies, Binary64.near_self, Bool.not_eq_true']
    constructor
    · rintro hx _ ⟨⟩
      exact hx
    · intro hx
      exact hx x rfl
  | _ => simp [Constant.unifies]

/-! ### Comparing argument by argument -/

section Plainly

variable {α : Type}

/-- One step of unification without the shortcut: two compounds with one tag are always taken apart. -/
def unifyStepPlainly (s t : Term) (rest : List (Term × Term)) (σ : Store) (τ : Trail α) :
    Option (List (Term × Term) × Store × Trail α) :=
  match σ.deref s, σ.deref t with
  | .compound _ f ss, .compound _ g ts => if f = g then some (ss.zip ts ++ rest, σ, τ) else none
  | _, _ => unifyStep s t rest σ τ

/-- Unifies pairs of terms without the shortcut, first pair first, in at most `n` steps. -/
def unifyPairsPlainly : Nat → List (Term × Term) → Store → Trail α → Option Bool × Store × Trail α
  | 0, _, σ, τ => (none, σ, τ)
  | _, [], σ, τ => (some true, σ, τ)
  | n + 1, (s, t) :: rest, σ, τ =>
    (unifyStepPlainly s t rest σ τ).elim (some false, σ, τ) fun x => unifyPairsPlainly n x.1 x.2.1 x.2.2

/-- Unifies two terms without the shortcut in at most `n` steps. -/
def unifyPlainly (n : Nat) (s t : Term) (σ : Store) (τ : Trail α) : Option Bool × Store × Trail α :=
  unifyPairsPlainly n [(s, t)] σ τ

variable {σ ρ : Store} {built : Nat → Tag × List Term} {s t : Term} {ss ts : List Term}
  {pairs pairs' rest : List (Term × Term)} {τ : Trail α} {r : Store × Trail α} {b : Bool}

theorem unifyStepPlainly_var {v : Var} (hs : σ.deref s = .var v) (ht : σ.deref t = .var v) :
    unifyStepPlainly s t rest σ τ = some (rest, σ, τ) := by
  simp only [unifyStepPlainly, unifyStep, hs, ht, if_true]

theorem unifyStepPlainly_const {c : Constant} (hs : σ.deref s = .const c) (ht : σ.deref t = .const c)
    (hc : c.unifies c = true) : unifyStepPlainly s t rest σ τ = some (rest, σ, τ) := by
  simp only [unifyStepPlainly, unifyStep, hs, ht, hc, if_true]

theorem unifyStepPlainly_compound {i j : Nat} {f : Tag} (hs : σ.deref s = .compound i f ss)
    (ht : σ.deref t = .compound j f ts) :
    unifyStepPlainly s t rest σ τ = some (ss.zip ts ++ rest, σ, τ) := by
  simp only [unifyStepPlainly, hs, ht, if_true]

/-! ### Terms without NaN -/

namespace Store

/-- No NaN is found on reading the term all the way down, and the compounds found have been built, those
with one stamp as one structure. -/
inductive NaNFree (σ : Store) (built : Nat → Tag × List Term) : Term → Prop
  | unbound {v : Var} (hv : σ.value? v = none) : NaNFree σ built (.var v)
  | bound {v : Var} {t : Term} (hv : σ.value? v = some t) (ht : NaNFree σ built t) :
    NaNFree σ built (.var v)
  | const {c : Constant} (hc : ∀ x, c = .float x → x.isNaN = false) : NaNFree σ built (.const c)
  | compound {stamp : Nat} {tag : Tag} {args : List Term} (hstamp : built stamp = (tag, args))
    (hargs : ∀ t ∈ args, NaNFree σ built t) : NaNFree σ built (.compound stamp tag args)

/-- In a later store the variables of such terms are bound to such terms only. -/
def Confines (σ : Store) (built : Nat → Tag × List Term) (ρ : Store) : Prop :=
  ∀ v t, σ.NaNFree built (.var v) → ρ.value? v = some t → σ.NaNFree built t

theorem confines_self (σ : Store) (built : Nat → Tag × List Term) : σ.Confines built σ := by
  intro v t hv hbound
  cases hv with
  | unbound hnone => cases hnone.symm.trans hbound
  | bound hsome ht =>
    cases hsome.symm.trans hbound
    exact ht

theorem Confines.bind (hρ : σ.Confines built ρ) (ht : σ.NaNFree built t) (v : Var) :
    σ.Confines built (ρ.bind v t) := by
  intro w u hw hbound
  rw [value?_bind] at hbound
  split at hbound
  · cases hbound
    exact ht
  · exact hρ w u hw hbound

theorem Confines.deref (hρ : σ.Confines built ρ) (ht : σ.NaNFree built t) :
    σ.NaNFree built (ρ.deref t) := by
  have hwithin : ∀ (n : Nat) (t : Term), σ.NaNFree built t → σ.NaNFree built (ρ.derefWithin n t) := by
    intro n
    induction n with
    | zero =>
      intro t ht
      cases t <;> simpa [derefWithin] using ht
    | succ n ih =>
      intro t ht
      cases t with
      | var v =>
        cases hv : ρ.value? v with
        | none => simpa [derefWithin, hv] using ht
        | some u => simpa [derefWithin, hv] using ih u (hρ v u ht hv)
      | _ => simpa [derefWithin] using ht
  exact hwithin _ t ht

end Store

/-- What a unification has come to that began with terms without NaN over `σ`. -/
structure NaNFreeAt (σ : Store) (built : Nat → Tag × List Term) (ρ : Store)
    (pairs : List (Term × Term)) : Prop where
  /-- What has been bound is without NaN. -/
  store : σ.Confines built ρ
  /-- What is left is without NaN. -/
  terms : ∀ p ∈ pairs, σ.NaNFree built p.1 ∧ σ.NaNFree built p.2

namespace NaNFreeAt

theorem zip (hρ : σ.Confines built ρ) (hss : ∀ s ∈ ss, σ.NaNFree built s)
    (hts : ∀ t ∈ ts, σ.NaNFree built t) : NaNFreeAt σ built ρ (ss.zip ts) := by
  refine ⟨hρ, fun p hp => ?_⟩
  obtain ⟨hs, ht⟩ := List.of_mem_zip hp
  exact ⟨hss _ hs, hts _ ht⟩

theorem append (h : NaNFreeAt σ built ρ pairs) (h' : NaNFreeAt σ built ρ rest) :
    NaNFreeAt σ built ρ (pairs ++ rest) :=
  ⟨h.store, List.forall_mem_append.mpr ⟨h.terms, h'.terms⟩⟩

theorem tail (h : NaNFreeAt σ built ρ ((s, t) :: rest)) : NaNFreeAt σ built ρ rest :=
  ⟨h.store, fun p hp => h.terms p (List.mem_cons_of_mem _ hp)⟩

theorem fronts (h : NaNFreeAt σ built ρ ((s, t) :: rest)) :
    σ.NaNFree built (ρ.deref s) ∧ σ.NaNFree built (ρ.deref t) :=
  (h.terms (s, t) List.mem_cons_self).imp h.store.deref h.store.deref

/-- A step leads to such terms and bindings again. -/
theorem step (h : NaNFreeAt σ built ρ ((s, t) :: rest)) {ρ' : Store} {τ' : Trail α}
    (hstep : unifyStep s t rest ρ τ = some (pairs', ρ', τ')) : NaNFreeAt σ built ρ' pairs' := by
  have hmove := move_unifyStep s t rest ρ τ
  obtain ⟨hs, ht⟩ := h.fronts
  rw [hstep] at hmove
  generalize ρ.deref s = s' at *
  generalize ρ.deref t = t' at *
  cases hmove with
  | left => exact ⟨h.store.bind ht _, h.tail.terms⟩
  | right => exact ⟨h.store.bind hs _, h.tail.terms⟩
  | arguments =>
    cases hs with | compound _ hss =>
    cases ht with | compound _ hts =>
    exact (zip h.store hss hts).append h.tail
  | _ => exact h.tail

/-- A step of the plain version is the same step, unless the two terms are one structure: this is taken
apart where unification passes over it. -/
theorem step_plainly (h : NaNFreeAt σ built ρ ((s, t) :: rest)) (τ : Trail α) :
    unifyStepPlainly s t rest ρ τ = unifyStep s t rest ρ τ ∨
      ∃ args : List Term, unifyStep s t rest ρ τ = some (rest, ρ, τ) ∧
        unifyStepPlainly s t rest ρ τ = some (args.zip args ++ rest, ρ, τ) ∧
        ∀ u ∈ args, σ.NaNFree built u := by
  obtain ⟨hs, ht⟩ := h.fronts
  have hstep : unifyStep s t rest ρ τ = unifyStep s t rest ρ τ := rfl
  have hplain : unifyStepPlainly s t rest ρ τ = unifyStepPlainly s t rest ρ τ := rfl
  conv_rhs at hstep => unfold unifyStep
  conv_rhs at hplain => unfold unifyStepPlainly
  cases hs' : ρ.deref s with
  | compound i f ss =>
    cases ht' : ρ.deref t with
    | compound j g ts =>
      simp only [hs', ht'] at hs ht hstep hplain
      by_cases hij : i = j
      · subst hij
        cases hs with | compound hf hss =>
        cases ht with | compound hg hts =>
        obtain ⟨rfl, rfl⟩ := Prod.mk.inj (hf.symm.trans hg)
        rw [if_pos rfl] at hstep hplain
        exact .inr ⟨ss, hstep, hplain, hss⟩
      · rw [if_neg hij] at hstep
        exact .inl (hplain.trans hstep.symm)
    | _ =>
      simp only [hs', ht'] at hplain
      exact .inl hplain
  | _ =>
    simp only [hs'] at hplain
    exact .inl hplain

/-! ### Structures compared with themselves -/

/-- What the plain version answers after it has compared terms with themselves, it answers without that,
in no more steps. -/
theorem skip (n : Nat) (hρ : σ.Confines built ρ) : ∀ {ts : List Term}, (∀ t ∈ ts, σ.NaNFree built t) →
    unifyPairsPlainly n (ts.zip ts ++ rest) ρ τ = (some b, r) →
    ∃ m ≤ n, unifyPairsPlainly m rest ρ τ = (some b, r) := by
  induction n with
  | zero =>
    intro ts _ hrun
    rw [unifyPairsPlainly] at hrun
    cases hrun
  | succ n ih =>
    intro ts hts hrun
    rcases ts with _ | ⟨t, ts⟩
    · exact ⟨n + 1, le_rfl, hrun⟩
    obtain ⟨ht, hts⟩ := List.forall_mem_cons.mp hts
    have hfront := hρ.deref ht
    rw [List.zip_cons_cons, List.cons_append, unifyPairsPlainly] at hrun
    cases ht' : ρ.deref t with
    | var v =>
      rw [unifyStepPlainly_var ht' ht'] at hrun
      obtain ⟨m, hm, hrun⟩ := ih hts hrun
      exact ⟨m, hm.trans n.le_succ, hrun⟩
    | const c =>
      rw [ht'] at hfront
      cases hfront with | const hc =>
      rw [unifyStepPlainly_const ht' ht' (Constant.unifies_self_iff.mpr hc)] at hrun
      obtain ⟨m, hm, hrun⟩ := ih hts hrun
      exact ⟨m, hm.trans n.le_succ, hrun⟩
    | compound stamp tag args =>
      rw [ht'] at hfront
      cases hfront with | compound _ hargs =>
      -- the arguments are terms compared with themselves, too
      rw [unifyStepPlainly_compound ht' ht', Option.elim_some, ← List.append_assoc,
        ← List.zip_append rfl] at hrun
      obtain ⟨m, hm, hrun⟩ := ih (List.forall_mem_append.mpr ⟨hargs, hts⟩) hrun
      exact ⟨m, hm.trans n.le_succ, hrun⟩

/-- What the plain version answers is the answer. -/
theorem unifyPairs_of_plainly (n : Nat) : ∀ {pairs : List (Term × Term)} {ρ : Store} {τ : Trail α},
    NaNFreeAt σ built ρ pairs → unifyPairsPlainly n pairs ρ τ = (some b, r) →
    unifyPairs n pairs ρ τ = (some b, r) := by
  induction n using Nat.strong_induction_on with | h n ih =>
  intro pairs ρ τ h hrun
  rcases n with _ | n
  · rw [unifyPairsPlainly] at hrun
    cases hrun
  rcases pairs with _ | ⟨⟨s, t⟩, rest⟩
  · exact hrun
  rw [unifyPairsPlainly] at hrun
  rw [unifyPairs_cons]
  obtain heq | ⟨args, hstep, hplain, hargs⟩ := h.step_plainly τ
  · rw [heq] at hrun
    cases hstep : unifyStep s t rest ρ τ with
    | none => rwa [hstep] at hrun
    | some x =>
      rw [hstep] at hrun
      exact ih n n.lt_succ_self (h.step hstep) hrun
  · rw [hplain] at hrun
    obtain ⟨m, hm, hrun⟩ := skip n h.store hargs hrun
    rw [hstep]
    exact unifyPairs_of_le hm (ih m (Nat.lt_succ_of_le hm) h.tail hrun)

end NaNFreeAt

/-! ### Terms that denote the same -/

namespace Store.Acyclic

variable {v : Var} {c : Constant} {tag : Tag} {us : List Tree}

theorem deref_eq_var (h : ρ.Acyclic) (ht : ρ.resolve t = .var v) : ρ.deref t = .var v := by
  have hfront := h.resolve_deref t
  cases hd : ρ.deref t with
  | var w =>
    rw [hd, resolve_unbound (h.rooted.value?_of_deref hd), ht, Tree.var.injEq] at hfront
    rw [hfront]
  | _ => simp [hd, ht] at hfront

theorem deref_eq_const (h : ρ.Acyclic) (ht : ρ.resolve t = .const c) : ρ.deref t = .const c := by
  have hfront := h.resolve_deref t
  cases hd : ρ.deref t with
  | var w =>
    rw [hd, resolve_unbound (h.rooted.value?_of_deref hd), ht] at hfront
    cases hfront
  | const d =>
    rw [hd, resolve_const, ht, Tree.const.injEq] at hfront
    rw [hfront]
  | compound => simp [hd, ht] at hfront

theorem exists_deref_eq_compound (h : ρ.Acyclic) (ht : ρ.resolve t = .compound tag us) :
    ∃ stamp args, ρ.deref t = .compound stamp tag args ∧ args.map ρ.resolve = us := by
  have hfront := h.resolve_deref t
  cases hd : ρ.deref t with
  | var w =>
    rw [hd, resolve_unbound (h.rooted.value?_of_deref hd), ht] at hfront
    cases hfront
  | const d => simp [hd, ht] at hfront
  | compound stamp tag' args =>
    rw [hd, resolve_compound, ht, Tree.compound.injEq] at hfront
    obtain ⟨rfl, rfl⟩ := hfront
    exact ⟨stamp, args, rfl, rfl⟩

end Store.Acyclic

/-- The plain version gets through lists of arguments that denote the same if it gets through each pair. -/
theorem exists_plainly_zip (hss : ∀ s ∈ ss, ∀ t, ρ.resolve t = ρ.resolve s → ∃ k, ∀ (n : Nat) rest,
      unifyPairsPlainly (n + k) ((s, t) :: rest) ρ τ = unifyPairsPlainly n rest ρ τ) :
    ∀ {ts : List Term}, ts.map ρ.resolve = ss.map ρ.resolve → ∃ k, ∀ (n : Nat) rest,
      unifyPairsPlainly (n + k) (ss.zip ts ++ rest) ρ τ = unifyPairsPlainly n rest ρ τ := by
  induction ss with
  | nil =>
    intro ts _
    exact ⟨0, fun n rest => rfl⟩
  | cons s ss ih =>
    intro ts hts
    rcases ts with _ | ⟨t, ts⟩
    · cases hts
    rw [List.map_cons, List.map_cons, List.cons.injEq] at hts
    obtain ⟨hs, hss⟩ := List.forall_mem_cons.mp hss
    obtain ⟨k, hk⟩ := hs t hts.1
    obtain ⟨l, hl⟩ := ih hss hts.2
    refine ⟨l + k, fun n rest => ?_⟩
    rw [List.zip_cons_cons, List.cons_append, ← Nat.add_assoc, hk, hl]

/-- Without circles the plain version gets through two terms that denote the same, and binds nothing. -/
theorem exists_plainly_same (hρ : ρ.Acyclic) (hconfines : σ.Confines built ρ) (τ : Trail α) (u : Tree) :
    ∀ {s t : Term}, ρ.resolve s = u → ρ.resolve t = u → σ.NaNFree built s → ∃ k, ∀ (n : Nat) rest,
      unifyPairsPlainly (n + k) ((s, t) :: rest) ρ τ = unifyPairsPlainly n rest ρ τ := by
  induction u using Tree.induction with
  | var v =>
    intro s t hs ht _
    refine ⟨1, fun n rest => ?_⟩
    rw [unifyPairsPlainly, unifyStepPlainly_var (hρ.deref_eq_var hs) (hρ.deref_eq_var ht),
      Option.elim_some]
  | const c =>
    intro s t hs ht hfree
    have hfront := hconfines.deref hfree
    rw [hρ.deref_eq_const hs] at hfront
    cases hfront with | const hc =>
    refine ⟨1, fun n rest => ?_⟩
    rw [unifyPairsPlainly, unifyStepPlainly_const (hρ.deref_eq_const hs) (hρ.deref_eq_const ht)
      (Constant.unifies_self_iff.mpr hc), Option.elim_some]
  | compound tag us ih =>
    intro s t hs ht hfree
    have hfront := hconfines.deref hfree
    obtain ⟨i, ss, hs', hss⟩ := hρ.exists_deref_eq_compound hs
    obtain ⟨j, ts, ht', hts⟩ := hρ.exists_deref_eq_compound ht
    rw [hs'] at hfront
    cases hfront with | compound _ hargs =>
    have hpair : ∀ s ∈ ss, ∀ t, ρ.resolve t = ρ.resolve s → ∃ k, ∀ (n : Nat) rest,
        unifyPairsPlainly (n + k) ((s, t) :: rest) ρ τ = unifyPairsPlainly n rest ρ τ := by
      intro s hmem t hst
      exact ih _ (hss ▸ List.mem_map_of_mem hmem) rfl hst (hargs s hmem)
    obtain ⟨k, hk⟩ := exists_plainly_zip hpair (hts.trans hss.symm)
    refine ⟨k + 1, fun n rest => ?_⟩
    rw [← Nat.add_assoc, unifyPairsPlainly, unifyStepPlainly_compound hs' ht', Option.elim_some, hk]

/-- A store with fewer bindings has no circles either. -/
theorem Store.Grown.acyclic {ρ' : Store} (h : ρ.Grown ρ') (hρ' : ρ'.Acyclic) : ρ.Acyclic := by
  intro v hv
  refine hρ' v (Relation.TransGen.mono (fun u w hmentions => ?_) v v hv)
  obtain ⟨t, hu, hw⟩ := hmentions
  exact ⟨t, h.value u t hu, hw⟩

/-- What is answered where no circle has been made, the plain version answers. -/
theorem exists_plainly_of_unifyPairs (n : Nat) : ∀ {pairs : List (Term × Term)} {ρ : Store} {τ : Trail α},
    NaNFreeAt σ built ρ pairs → ρ.Rooted → unifyPairs n pairs ρ τ = (some b, r) → r.1.Acyclic →
    ∃ m, ∀ k, unifyPairsPlainly (k + m) pairs ρ τ = (some b, r) := by
  induction n with
  | zero =>
    intro pairs ρ τ _ _ hrun
    rw [unifyPairs] at hrun
    cases hrun
  | succ n ih =>
    intro pairs ρ τ h hrooted hrun hr
    rcases pairs with _ | ⟨⟨s, t⟩, rest⟩
    · exact ⟨1, fun k => hrun⟩
    rw [unifyPairs_cons] at hrun
    obtain heq | ⟨args, hstep, hplain, hargs⟩ := h.step_plainly τ
    · cases hstep : unifyStep s t rest ρ τ with
      | none =>
        rw [hstep] at hrun
        refine ⟨1, fun k => ?_⟩
        rw [unifyPairsPlainly, heq, hstep]
        exact hrun
      | some x =>
        rw [hstep] at hrun
        obtain ⟨m, hm⟩ := ih (h.step hstep) (grown_of_unifyStep hrooted hstep).2 hrun hr
        refine ⟨m + 1, fun k => ?_⟩
        rw [← Nat.add_assoc, unifyPairsPlainly, heq, hstep]
        exact hm k
    · rw [hstep, Option.elim_some] at hrun
      obtain ⟨m, hm⟩ := ih h.tail hrooted hrun hr
      -- without circles the structure has only so many nodes
      have hgrown : ρ.Grown r.1 := by
        have := @grown_unifyPairs α n rest ρ τ hrooted
        rwa [hrun] at this
      have hpair : ∀ s ∈ args, ∀ t, ρ.resolve t = ρ.resolve s → ∃ k, ∀ (n : Nat) rest,
          unifyPairsPlainly (n + k) ((s, t) :: rest) ρ τ = unifyPairsPlainly n rest ρ τ :=
        fun s hs t hst => exists_plainly_same (hgrown.acyclic hr) h.store τ _ rfl hst (hargs s hs)
      obtain ⟨l, hl⟩ := exists_plainly_zip hpair (rfl : args.map ρ.resolve = args.map ρ.resolve)
      refine ⟨m + l + 1, fun k => ?_⟩
      rw [show k + (m + l + 1) = k + m + l + 1 by omega, unifyPairsPlainly, hplain, Option.elim_some, hl]
      exact hm k

/-- For terms without NaN over bindings without circles, the shortcut of unification makes no difference.
What the plain version answers is the answer, with the same bindings and the same trail; the plain version
answers what is answered, unless a circle has been made. Two terms that denote the same, such as a term and
itself or a copy of it, unify, and nothing is bound. -/
theorem unifyInPlace_plainly (hσ : σ.Acyclic) (hs : σ.NaNFree built s) (ht : σ.NaNFree built t)
    (τ : Trail α) :
    (∀ n b σ' τ', unifyPlainly n s t σ τ = (some b, σ', τ') →
      unifyInPlace n s t σ τ = (some b, σ', τ')) ∧
    (∀ n b σ' τ', unifyInPlace n s t σ τ = (some b, σ', τ') → σ'.Acyclic →
      ∃ m, ∀ k, m ≤ k → unifyPlainly k s t σ τ = (some b, σ', τ')) ∧
    (σ.resolve s = σ.resolve t → ∃ m, ∀ k, m ≤ k →
      unifyPlainly k s t σ τ = (some true, σ, τ) ∧ unify k s t σ τ = (some true, σ, τ.mark.2)) := by
  have hstart : NaNFreeAt σ built σ [(s, t)] :=
    ⟨σ.confines_self built, List.forall_mem_singleton.mpr ⟨hs, ht⟩⟩
  refine ⟨fun n b σ' τ' hrun => NaNFreeAt.unifyPairs_of_plainly n hstart hrun, fun n b σ' τ' hrun hσ' => ?_,
    fun hst => ?_⟩
  · obtain ⟨m, hm⟩ := exists_plainly_of_unifyPairs n hstart hσ.rooted hrun hσ'
    refine ⟨m, fun k hk => ?_⟩
    obtain ⟨k, rfl⟩ := Nat.exists_eq_add_of_le' hk
    exact hm k
  · have hsame (τ : Trail α) : ∃ m, ∀ k, m ≤ k → unifyPlainly k s t σ τ = (some true, σ, τ) := by
      obtain ⟨m, hm⟩ := exists_plainly_same hσ (σ.confines_self built) τ _ rfl hst.symm hs
      refine ⟨m + 1, fun k hk => ?_⟩
      obtain ⟨k, rfl⟩ := Nat.exists_eq_add_of_le' hk
      rw [unifyPlainly, ← Nat.add_assoc, Nat.add_right_comm, hm]
      rfl
    obtain ⟨m, hm⟩ := hsame τ
    obtain ⟨m', hm'⟩ := hsame τ.mark.2
    refine ⟨max m m', fun k hk => ⟨hm k (le_of_max_le_left hk), ?_⟩⟩
    have hrun : unifyInPlace k s t σ τ.mark.2 = (some true, σ, τ.mark.2) :=
      NaNFreeAt.unifyPairs_of_plainly k hstart (hm' k (le_of_max_le_right hk))
    simp only [unify, hrun, Option.some.injEq, Bool.true_eq_false, if_false]

end Plainly

/-- Two structures that denote the same over the sample bindings: one has a variable where the other one
has the compound to which the variable is bound. -/
theorem unifyInPlace_plainly_sample : sampleBindings.Acyclic ∧ ∃ m, ∀ k, m ≤ k →
    unify k (.compound 5 ⟨1⟩ [.var ⟨2⟩, .var ⟨1⟩]) (.compound 6 ⟨1⟩ [.var ⟨2⟩, .compound 0 ⟨0⟩ [.var ⟨0⟩]])
      sampleBindings (Trail.empty : Trail Empty) = (some true, sampleBindings, Trail.empty.mark.2) := by
  have hbound : sampleBindings.value? ⟨1⟩ = some (.compound 0 ⟨0⟩ [.var ⟨0⟩]) := rfl
  let built (stamp : Nat) : Tag × List Term :=
    if stamp = 0 then (⟨0⟩, [.var ⟨0⟩])
    else if stamp = 5 then (⟨1⟩, [.var ⟨2⟩, .var ⟨1⟩])
    else (⟨1⟩, [.var ⟨2⟩, .compound 0 ⟨0⟩ [.var ⟨0⟩]])
  have hinner : sampleBindings.NaNFree built (.compound 0 ⟨0⟩ [.var ⟨0⟩]) :=
    .compound rfl (List.forall_mem_singleton.mpr (.unbound rfl))
  have hlast : sampleBindings.NaNFree built (.var ⟨2⟩) := .unbound rfl
  have hleft : sampleBindings.NaNFree built (.compound 5 ⟨1⟩ [.var ⟨2⟩, .var ⟨1⟩]) :=
    .compound rfl (List.forall_mem_cons.mpr ⟨hlast, List.forall_mem_singleton.mpr (.bound hbound hinner)⟩)
  have hright : sampleBindings.NaNFree built (.compound 6 ⟨1⟩ [.var ⟨2⟩, .compound 0 ⟨0⟩ [.var ⟨0⟩]]) :=
    .compound rfl (List.forall_mem_cons.mpr ⟨hlast, List.forall_mem_singleton.mpr hinner⟩)
  obtain ⟨m, hm⟩ := (unifyInPlace_plainly acyclic_sampleBindings hleft hright
    (Trail.empty : Trail Empty)).2.2 (by simp [acyclic_sampleBindings.resolve_bound hbound])
  exact ⟨acyclic_sampleBindings, m, fun k hk => (hm k hk).2⟩

/-! ### Where the shortcut shows -/

/-- A NaN. -/
def aNaN : Term := .const (.float ⟨0x7ff8000000000000⟩)

/-- A compound of one argument. -/
def unary (stamp : Nat) (t : Term) : Term := .compound stamp ⟨0⟩ [t]

/-- The store of one variable, which has no binding. -/
def oneVariable : Store := ⟨#[none], 0⟩

theorem unifies_aNaN :
    Constant.unifies (.float ⟨0x7ff8000000000000⟩) (.float ⟨0x7ff8000000000000⟩) = false := by
  rw [Constant.unifies, Binary64.near_self]
  decide

/-- The comparison of a circle with itself does not come to an end. -/
theorem unifyPairsPlainly_circle (n : Nat) (rest : List (Term × Term)) (τ : Trail Empty) :
    (unifyPairsPlainly n ((.var ⟨0⟩, .var ⟨0⟩) :: rest) (oneVariable.bind ⟨0⟩ (unary 0 (.var ⟨0⟩))) τ).1 =
      none := by
  induction n generalizing rest with
  | zero => rfl
  | succ n ih => exact ih rest

/-- Two structures unify that are one, with a NaN in it, but not without the shortcut, and not if they have
been built separately; a NaN does not unify with itself. A circle that has been made unifies with itself,
but without the shortcut there is no answer. -/
theorem shortcut_observable :
    (Store.empty.Acyclic ∧ ∀ n,
      (unifyInPlace (n + 2) (unary 0 aNaN) (unary 0 aNaN) .empty (Trail.empty : Trail Empty)).1 = some true ∧
      (unifyPlainly (n + 2) (unary 0 aNaN) (unary 0 aNaN) .empty (Trail.empty : Trail Empty)).1 =
        some false ∧
      (unifyInPlace (n + 2) (unary 0 aNaN) (unary 1 aNaN) .empty (Trail.empty : Trail Empty)).1 =
        some false ∧
      (unify (n + 2) aNaN aNaN .empty (Trail.empty : Trail Empty)).1 = some false) ∧
    (oneVariable.Acyclic ∧ ∀ n,
      (unifyInPlace (n + 4) (.compound 1 ⟨1⟩ [.var ⟨0⟩, .var ⟨0⟩])
        (.compound 2 ⟨1⟩ [unary 0 (.var ⟨0⟩), unary 0 (.var ⟨0⟩)]) oneVariable
        (Trail.empty : Trail Empty)).1 = some true ∧
      (unifyPlainly n (.compound 1 ⟨1⟩ [.var ⟨0⟩, .var ⟨0⟩])
        (.compound 2 ⟨1⟩ [unary 0 (.var ⟨0⟩), unary 0 (.var ⟨0⟩)]) oneVariable
        (Trail.empty : Trail Empty)).1 = none) := by
  have hfront : Store.empty.deref aNaN = .const (.float ⟨0x7ff8000000000000⟩) := rfl
  have hstep (rest : List (Term × Term)) (τ : Trail Empty) :
      unifyStep aNaN aNaN rest .empty τ = none := by
    simp only [unifyStep, hfront, unifies_aNaN, if_false, Bool.false_eq_true]
  have hstepPlain (rest : List (Term × Term)) (τ : Trail Empty) :
      unifyStepPlainly aNaN aNaN rest .empty τ = none := by
    simp only [unifyStepPlainly, hfront, hstep]
  have hunbound (σ : Store) (h : ∀ v, σ.value? v = none) : σ.Acyclic :=
    @Store.acyclic_of_rank σ (fun _ => 0) fun v t hv => by
      rw [h v] at hv
      cases hv
  refine ⟨⟨hunbound _ fun v => rfl, fun n => ⟨rfl, ?_, ?_, ?_⟩⟩, hunbound _ fun v => ?_,
    fun n => ⟨rfl, ?_⟩⟩
  · change (unifyPairsPlainly (n + 1) [(aNaN, aNaN)] .empty (Trail.empty : Trail Empty)).1 = some false
    rw [unifyPairsPlainly, hstepPlain]
    rfl
  · change (unifyPairs (n + 1) [(aNaN, aNaN)] .empty (Trail.empty : Trail Empty)).1 = some false
    rw [unifyPairs_cons, hstep]
    rfl
  · have hrun : unifyInPlace (n + 2) aNaN aNaN .empty (Trail.empty : Trail Empty).mark.2 =
        (some false, .empty, Trail.empty.mark.2) := by
      rw [unifyInPlace, unifyPairs_cons, hstep]
      rfl
    simp only [unify, hrun, if_true]
  · obtain ⟨i⟩ := v
    rcases i with _ | i
    · rfl
    · simp [Store.value?, oneVariable]
  · -- one step takes the compounds apart, the next one makes the circle, and then it is taken apart
    rcases n with _ | _ | _ | n
    · rfl
    · rfl
    · rfl
    · exact unifyPairsPlainly_circle n [] _

end Resolvent
