import Mathlib.Algebra.Order.Ring.Rat
import Mathlib.Tactic.NormNum
import Resolvent.Number
import Resolvent.Unify

/-!
# Arithmetic on exact numbers

Exact numbers are held in several ways, and the ways that an operation takes depend on them and on
whether a machine integer overflows. None of this can be seen in a result: a constant made of a number
is the one canonical constant of its value (`Number.toConstant_eq`), and the value is what the operation
gives on rational numbers. `Number.Computes.canonical` says this of all that can be computed from exact
numbers. Two canonical constants unify exactly if their values are equal.
-/

namespace Resolvent

namespace Constant

/-- The value of an exact number. -/
def value? : Constant → Option Rat
  | .int n => some n.toInt
  | .big n => some n
  | .rat q => some q
  | .atom _ | .float _ | .host _ => none

/-- The integer is one of the machine. -/
def InRange (n : Int) : Prop :=
  Int64.minValue.toInt ≤ n ∧ n ≤ Int64.maxValue.toInt

/-- The constant is an exact number of the given value, and of the only kind that goes with the value. -/
structure Canonical (c : Constant) (q : Rat) : Prop where
  /-- Its value. -/
  value : c.value? = some q
  /-- Integers in range are machine integers. -/
  int : (∃ n, c = .int n) ↔ ∃ n : Int, q = n ∧ InRange n
  /-- Other integers are big. -/
  big : (∃ n, c = .big n) ↔ ∃ n : Int, q = n ∧ ¬ InRange n
  /-- Numbers that are no integers are rational. -/
  rat : (∃ r, c = .rat r) ↔ ∀ n : Int, q ≠ n

theorem inRange_iff {n : Int} : InRange n ↔ -0x8000000000000000 ≤ n ∧ n < 0x8000000000000000 := by
  rw [InRange, show Int64.minValue.toInt = -0x8000000000000000 from rfl,
    show Int64.maxValue.toInt = 0x8000000000000000 - 1 from rfl, Int.le_sub_one_iff]

theorem inRange_toInt (n : Int64) : InRange n.toInt :=
  ⟨n.minValue_le_toInt, n.toInt_le⟩

theorem toInt_ofInt_of_inRange {n : Int} (h : InRange n) : (Int64.ofInt n).toInt = n :=
  Int64.toInt_ofInt_of_le (inRange_iff.mp h).1 (inRange_iff.mp h).2

theorem ofInt_of_inRange {n : Int} (h : InRange n) : ofInt n = .int (Int64.ofInt n) :=
  if_pos (inRange_iff.mp h)

theorem ofInt_of_not_inRange {n : Int} (h : ¬ InRange n) : ofInt n = .big n :=
  if_neg fun h' => h (inRange_iff.mpr h')

@[simp] theorem ofInt_toInt (n : Int64) : ofInt n.toInt = .int n := by
  rw [ofInt_of_inRange (inRange_toInt n), Int64.ofInt_toInt]

@[simp] theorem ofRat_intCast (n : Int) : ofRat n = ofInt n :=
  if_pos rfl

theorem canonical_ofInt (n : Int) : (ofInt n).Canonical n := by
  by_cases h : InRange n
  · rw [ofInt_of_inRange h]
    refine ⟨?_, ?_, ?_, ?_⟩
    · rw [value?, toInt_ofInt_of_inRange h]
    · exact iff_of_true ⟨_, rfl⟩ ⟨n, rfl, h⟩
    · exact iff_of_false nofun fun ⟨m, hm, hout⟩ => hout (Rat.intCast_inj.mp hm ▸ h)
    · exact iff_of_false nofun fun hno => hno n rfl
  · rw [ofInt_of_not_inRange h]
    refine ⟨rfl, ?_, ?_, ?_⟩
    · exact iff_of_false nofun fun ⟨m, hm, hin⟩ => h (Rat.intCast_inj.mp hm ▸ hin)
    · exact iff_of_true ⟨_, rfl⟩ ⟨n, rfl, h⟩
    · exact iff_of_false nofun fun hno => hno n rfl

/-- Every rational number has a canonical constant. -/
theorem canonical_ofRat (q : Rat) : (ofRat q).Canonical q := by
  by_cases h : q.den = 1
  · have hq : q = q.num := (Rat.coe_int_num_of_den_eq_one h).symm
    rw [hq, ofRat_intCast]
    exact canonical_ofInt q.num
  · have hno (n : Int) : q ≠ n := fun hq => h (hq ▸ rfl)
    rw [ofRat, if_neg h]
    refine ⟨rfl, ?_, ?_, ?_⟩
    · exact iff_of_false nofun fun ⟨n, hn, _⟩ => hno n hn
    · exact iff_of_false nofun fun ⟨n, hn, _⟩ => hno n hn
    · exact iff_of_true ⟨_, rfl⟩ hno

/-- Canonical constants unify exactly if their values are equal. -/
theorem unifies_ofRat (q r : Rat) : (ofRat q).unifies (ofRat r) = decide (q = r) := by
  have hvalue {q r : Rat} (h : ofRat q = ofRat r) : q = r := by
    have hq := (canonical_ofRat q).value
    rw [h, (canonical_ofRat r).value] at hq
    exact (Option.some.inj hq).symm
  have hexact : (ofRat q).unifies (ofRat r) = decide (ofRat q = ofRat r) := by
    have hq := (canonical_ofRat q).value
    cases hc : ofRat q with
    | float x =>
      rw [hc] at hq
      cases hq
    | _ => simp only [unifies]
  rw [hexact, decide_eq_decide]
  exact ⟨hvalue, fun h => h ▸ rfl⟩

end Constant

namespace Number

variable {a b : Number}

/-- A number is brought to the canonical constant of its value. -/
theorem toConstant_eq (h : a.isFloat = false) : a.toConstant = .ofRat a.toRat := by
  cases a with
  | int n => simp [toConstant, toRat]
  | big n => simp [toConstant, toRat]
  | rat q => rfl
  | float x => cases h

@[simp] theorem isFloat_ofSmall (small : Bool) (n : Int) : (ofSmall small n).isFloat = false := by
  unfold ofSmall
  split <;> rfl

/-- An integer has its value, however it is held. -/
@[simp] theorem toRat_ofSmall (small : Bool) (n : Int) : (ofSmall small n).toRat = n := by
  unfold ofSmall
  split
  · rename_i h
    rw [toRat, Int64.toInt_ofInt_of_le h.2.1 h.2.2]
  · rfl

theorem toRat_of_toInt? {n : Int} (h : a.toInt? = some n) : a.toRat = n := by
  cases a with
  | int m => rw [toRat, Option.some.inj h]
  | big m => rw [toRat, Option.some.inj h]
  | rat q => cases h
  | float x => cases h

section Combine

variable {float : Binary64 → Binary64 → Binary64} {int : Int → Int → Int} {rat : Rat → Rat → Rat}

/-- An operation on exact numbers gives an exact number, and its value is that of the operation on
rational numbers, if integers are operated on as rational numbers are. -/
theorem toRat_combine (hint : ∀ m n : Int, ((int m n : Int) : Rat) = rat m n)
    (ha : a.isFloat = false) (hb : b.isFloat = false) :
    (combine float int rat a b).isFloat = false ∧
      (combine float int rat a b).toRat = rat a.toRat b.toRat := by
  rw [combine, ha, hb, Bool.or_false, if_neg Bool.false_ne_true]
  cases hm : a.toInt? with
  | none => exact ⟨rfl, rfl⟩
  | some m =>
    cases hn : b.toInt? with
    | none => exact ⟨rfl, rfl⟩
    | some n =>
      refine ⟨isFloat_ofSmall _ _, ?_⟩
      rw [toRat_of_toInt? hm, toRat_of_toInt? hn, ← hint]
      exact toRat_ofSmall _ _

end Combine

theorem toRat_neg (ha : a.isFloat = false) : a.neg.isFloat = false ∧ a.neg.toRat = -a.toRat := by
  cases a with
  | int n => exact ⟨isFloat_ofSmall _ _, by rw [neg, toRat_ofSmall, toRat, Int.cast_neg]⟩
  | big n => exact ⟨rfl, by rw [neg, toRat, toRat, Int.cast_neg]⟩
  | rat q => exact ⟨rfl, rfl⟩
  | float x => cases ha

/-- The number is computed from exact numbers, and the same operations on rational numbers give the
value. What has been made a constant may be taken up again. -/
inductive Computes : Number → Rat → Prop
  | exact {a : Number} (h : a.isFloat = false) : Computes a a.toRat
  | add {a b : Number} {q r : Rat} (ha : Computes a q) (hb : Computes b r) : Computes (a.add b) (q + r)
  | sub {a b : Number} {q r : Rat} (ha : Computes a q) (hb : Computes b r) : Computes (a.sub b) (q - r)
  | mul {a b : Number} {q r : Rat} (ha : Computes a q) (hb : Computes b r) : Computes (a.mul b) (q * r)
  | neg {a : Number} {q : Rat} (ha : Computes a q) : Computes a.neg (-q)
  | read {a b : Number} {q : Rat} (ha : Computes a q) (hb : ofConstant? a.toConstant = some b) :
    Computes b q

/-- The number of a constant has its value. -/
theorem toRat_of_ofConstant? {c : Constant} {q : Rat} (ha : ofConstant? c = some a)
    (hc : c.value? = some q) : a.isFloat = false ∧ a.toRat = q := by
  cases c with
  | int n => cases ha; exact ⟨rfl, Option.some.inj hc⟩
  | big n => cases ha; exact ⟨rfl, Option.some.inj hc⟩
  | rat r => cases ha; exact ⟨rfl, Option.some.inj hc⟩
  | _ => cases hc

/-- No rounding takes place on the way. -/
theorem Computes.toRat_eq {q : Rat} (h : Computes a q) : a.isFloat = false ∧ a.toRat = q := by
  induction h with
  | exact h => exact ⟨h, rfl⟩
  | add _ _ iha ihb =>
    obtain ⟨hfloat, hvalue⟩ := toRat_combine Int.cast_add iha.1 ihb.1
    exact ⟨hfloat, by rw [← iha.2, ← ihb.2]; exact hvalue⟩
  | sub _ _ iha ihb =>
    obtain ⟨hfloat, hvalue⟩ := toRat_combine Int.cast_sub iha.1 ihb.1
    exact ⟨hfloat, by rw [← iha.2, ← ihb.2]; exact hvalue⟩
  | mul _ _ iha ihb =>
    obtain ⟨hfloat, hvalue⟩ := toRat_combine Int.cast_mul iha.1 ihb.1
    exact ⟨hfloat, by rw [← iha.2, ← ihb.2]; exact hvalue⟩
  | neg _ ih => exact ih.2 ▸ toRat_neg ih.1
  | read _ hb ih =>
    rw [toConstant_eq ih.1, ih.2] at hb
    exact toRat_of_ofConstant? hb (Constant.canonical_ofRat _).value

theorem Computes.toConstant_eq {q : Rat} (h : Computes a q) : a.toConstant = .ofRat q := by
  obtain ⟨hfloat, rfl⟩ := h.toRat_eq
  exact Number.toConstant_eq hfloat

/-- What is computed from exact numbers is exact and becomes a canonical constant. So two results unify
exactly if they are equal as numbers, and nothing is bound. -/
theorem Computes.canonical {q r : Rat} (ha : Computes a q) (hb : Computes b r) :
    a.toConstant.Canonical q ∧ b.toConstant.Canonical r ∧
      ∀ {α : Type} (σ : Store) (τ : Trail α) (n : Nat), 1 < n →
        unifyInPlace n (.const a.toConstant) (.const b.toConstant) σ τ = (some (decide (q = r)), σ, τ) := by
  rw [ha.toConstant_eq, hb.toConstant_eq]
  refine ⟨Constant.canonical_ofRat q, Constant.canonical_ofRat r, fun σ τ n hn => ?_⟩
  obtain ⟨n, rfl⟩ : ∃ m, n = m + 2 := ⟨n - 2, by omega⟩
  have hderef (c : Constant) : σ.deref (.const c) = .const c := by simp [Store.deref, Store.derefWithin]
  rw [unifyInPlace, unifyPairs]
  simp only [hderef, Constant.unifies_ofRat, decide_eq_true_eq]
  split
  · rename_i h
    rw [unifyPairs.eq_2 _ _ _ (Nat.succ_ne_zero n), decide_eq_true h]
  · rename_i h
    rw [decide_eq_false h]

/-- The least machine integer is reached from above and from below, from big integers and from rational
numbers: all results are the machine integer. -/
theorem canonical_least :
    let least : Number := .add (.neg (.big 0x8000000000000000)) (.rat 0)
    let same : Number := .sub (.int (-0x7fffffffffffffff)) (.int 1)
    least.toConstant.Canonical (-0x8000000000000000) ∧ same.toConstant.Canonical (-0x8000000000000000) ∧
      ∀ {α : Type} (σ : Store) (τ : Trail α) (n : Nat), 1 < n →
        unifyInPlace n (.const least.toConstant) (.const same.toConstant) σ τ = (some true, σ, τ) := by
  intro least same
  have hleast : Computes least (-0x8000000000000000) := by
    have h := Computes.add (.neg (.exact (a := .big 0x8000000000000000) rfl)) (.exact (a := .rat 0) rfl)
    norm_num [toRat] at h
    exact h
  have hsame : Computes same (-0x8000000000000000) := by
    have h := Computes.sub (.exact (a := .int (-0x7fffffffffffffff)) rfl) (.exact (a := .int 1) rfl)
    have hleft : (-0x7fffffffffffffff : Int64).toInt = -0x7fffffffffffffff := by decide
    have hright : (1 : Int64).toInt = 1 := by decide
    norm_num [toRat, hleft, hright] at h
    exact h
  exact Computes.canonical hleast hsame

end Number

end Resolvent
