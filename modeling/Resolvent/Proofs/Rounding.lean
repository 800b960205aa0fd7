import Mathlib.Algebra.Order.Field.Power
import Mathlib.Algebra.Order.Ring.Rat
import Mathlib.Tactic.FieldSimp
import Mathlib.Tactic.Linarith
import Mathlib.Tactic.Positivity
import Mathlib.Tactic.Ring
import Resolvent.Binary64.Nearest

/-!
# Rounding keeps the order

Rounding a rational number to the nearest float never turns the order of two numbers round
(`Binary64.rank_ofRat_mono`). The magnitude of a float is a whole number of units, and what lies behind
the last unit of one exponent is the first unit of the next one; so of two numbers with different
exponents the larger one has the larger magnitude, and of two numbers with one exponent too, because
rounding to whole numbers keeps the order (`Binary64.Rounds.mono`).
-/

namespace Resolvent

namespace Binary64

/-! ### Whole numbers -/

/-- The whole number is nearest to the rational number, and even where the next one is as near. -/
structure Rounds (x : ℚ) (m : ℕ) : Prop where
  /-- It is not too small. -/
  le : 2 * x ≤ 2 * m + 1
  /-- It is not too large. -/
  ge : 2 * (m : ℚ) ≤ 2 * x + 1
  /-- It is even if the next larger one is as near. -/
  even_of_le : 2 * x = 2 * m + 1 → m % 2 = 0
  /-- It is even if the next smaller one is as near. -/
  even_of_ge : 2 * (m : ℚ) = 2 * x + 1 → m % 2 = 0

theorem Rounds.mono {x y : ℚ} {m n : ℕ} (hx : Rounds x m) (hy : Rounds y n) (h : x ≤ y) : m ≤ n := by
  by_contra hlt
  have hle : (n : ℚ) + 1 ≤ m := by exact_mod_cast Nat.lt_of_not_le hlt
  have hge := hx.ge
  have hly := hy.le
  -- both lie half way between the two whole numbers, of which one is odd
  have hm := hx.even_of_ge (by linarith)
  have hn := hy.even_of_le (by linarith)
  have heq : (m : ℚ) = n + 1 := by linarith
  have heq : m = n + 1 := by exact_mod_cast heq
  omega

theorem rounds_natCast (n : ℕ) : Rounds n n :=
  ⟨by linarith, by linarith, fun h => by linarith, fun h => by linarith⟩

theorem rounds_roundDiv (num : ℕ) {den : ℕ} (hden : 0 < den) :
    Rounds ((num : ℚ) / den) (roundDiv num den) := by
  have hpos : (0 : ℚ) < den := by exact_mod_cast hden
  have hmod := Nat.mod_lt num hden
  have hnum : ((num / den * den + num % den : ℕ) : ℚ) = num := by
    rw [Nat.div_add_mod' num den]
  push_cast at hnum
  -- what is left over of the division, in halves of the divisor
  have hx : (2 : ℚ) * (num / den) = 2 * ((num / den : ℕ) : ℚ) + 2 * ((num % den : ℕ) : ℚ) / den := by
    rw [← hnum]
    field_simp
  have hcompare (a : ℕ) : (2 : ℚ) * ((num % den : ℕ) : ℚ) / den ≤ a ↔ 2 * (num % den) ≤ a * den := by
    rw [div_le_iff₀ hpos]
    exact_mod_cast Iff.rfl
  have hcompare' (a : ℕ) : (a : ℚ) ≤ 2 * ((num % den : ℕ) : ℚ) / den ↔ a * den ≤ 2 * (num % den) := by
    rw [le_div_iff₀ hpos]
    exact_mod_cast Iff.rfl
  have hone := hcompare 1
  have hone' := hcompare' 1
  have htwo := hcompare 2
  have hzero := hcompare' 0
  push_cast at hone hone' htwo hzero
  rw [roundDiv]
  simp only [Bool.or_eq_true, decide_eq_true_eq, Bool.and_eq_true]
  generalize num / den = q at *
  generalize num % den = r at *
  generalize (2 : ℚ) * (r : ℚ) / den = f at *
  split
  · rename_i h
    have hup := hone'.mpr (by omega)
    have hdown := htwo.mpr (by omega)
    refine ⟨by push_cast; linarith, by push_cast; linarith, fun heq => ?_, fun heq => ?_⟩
    · push_cast at heq
      linarith
    · push_cast at heq
      have := hone.mp (by linarith)
      omega
  · rename_i h
    have hdown := hone.mpr (by omega)
    have hup := hzero.mpr (by omega)
    refine ⟨by linarith, by linarith, fun heq => ?_, fun heq => by linarith⟩
    have := hone'.mp (by linarith)
    omega

/-! ### Exponents -/

/-- The exponent of the greatest power of two that is not above `num / den`. -/
def floorLog (num den : ℕ) : ℤ :=
  let guess : ℤ := (num.log2 : ℤ) - den.log2
  let below := if guess ≥ 0 then num < den * Nat.pow 2 guess.toNat else num * Nat.pow 2 (-guess).toNat < den
  if below then guess - 1 else guess

theorem unitExponent_eq (num den : ℕ) : unitExponent num den = max (floorLog num den - 52) (-1074) :=
  rfl

theorem zpow_toNat {e : ℤ} (h : 0 ≤ e) : (2 : ℚ) ^ e = ((2 ^ e.toNat : ℕ) : ℚ) := by
  obtain ⟨n, rfl⟩ := Int.eq_ofNat_of_zero_le h
  simp

variable {num den num' den' : ℕ}

/-- A quotient is below a power of two if the product is below the dividend. -/
theorem below_iff (hden : 0 < den) (e : ℤ) :
    (if e ≥ 0 then num < den * Nat.pow 2 e.toNat else num * Nat.pow 2 (-e).toNat < den) ↔
      (num : ℚ) / den < 2 ^ e := by
  have hpos : (0 : ℚ) < den := by exact_mod_cast hden
  split
  · rename_i he
    rw [zpow_toNat he, div_lt_iff₀ hpos, mul_comm]
    exact_mod_cast Iff.rfl
  · rename_i he
    rw [← neg_neg e, zpow_neg, zpow_toNat (by omega : 0 ≤ -e), neg_neg, div_lt_iff₀ hpos,
      ← div_eq_inv_mul, lt_div_iff₀ (by positivity)]
    exact_mod_cast Iff.rfl

theorem floorLog_spec (hnum : 0 < num) (hden : 0 < den) :
    (2 : ℚ) ^ floorLog num den ≤ (num : ℚ) / den ∧ (num : ℚ) / den < 2 ^ (floorLog num den + 1) := by
  have hposden : (0 : ℚ) < den := by exact_mod_cast hden
  have hlow (n : ℕ) (hn : 0 < n) : (2 : ℚ) ^ (n.log2 : ℤ) ≤ n := by
    rw [zpow_natCast]
    exact_mod_cast Nat.log2_self_le hn.ne'
  have hhigh (n : ℕ) : (n : ℚ) < 2 ^ ((n.log2 : ℤ) + 1) := by
    have : n < 2 ^ (n.log2 + 1) := Nat.lt_log2_self
    exact_mod_cast this
  have htwo : (2 : ℚ) ≠ 0 := two_ne_zero
  -- the guess is at most one too high
  have hover : (num : ℚ) / den < 2 ^ ((num.log2 : ℤ) - den.log2 + 1) := by
    rw [div_lt_iff₀ hposden]
    calc (num : ℚ) < 2 ^ ((num.log2 : ℤ) + 1) := hhigh num
      _ = 2 ^ ((num.log2 : ℤ) - den.log2 + 1) * 2 ^ (den.log2 : ℤ) := by
        rw [← zpow_add₀ htwo]
        congr 1
        ring
      _ ≤ 2 ^ ((num.log2 : ℤ) - den.log2 + 1) * den :=
        mul_le_mul_of_nonneg_left (hlow den hden) (by positivity)
  have hunder : (2 : ℚ) ^ ((num.log2 : ℤ) - den.log2 - 1) ≤ (num : ℚ) / den := by
    rw [le_div_iff₀ hposden]
    calc (2 : ℚ) ^ ((num.log2 : ℤ) - den.log2 - 1) * den
        ≤ 2 ^ ((num.log2 : ℤ) - den.log2 - 1) * 2 ^ ((den.log2 : ℤ) + 1) :=
          mul_le_mul_of_nonneg_left (hhigh den).le (by positivity)
      _ = 2 ^ (num.log2 : ℤ) := by
        rw [← zpow_add₀ htwo]
        congr 1
        ring
      _ ≤ num := hlow num hnum
  rw [floorLog]
  simp only [below_iff hden]
  split
  · rename_i h
    exact ⟨hunder, by rwa [sub_add_cancel]⟩
  · rename_i h
    exact ⟨not_lt.mp h, hover⟩

/-! ### Magnitudes -/

/-- The units that a number makes with its exponent, rounded. -/
theorem rounds_units (num : ℕ) (hden : 0 < den) (e : ℤ) :
    Rounds ((num : ℚ) / den / 2 ^ e)
      (if e ≥ 0 then roundDiv num (den * Nat.pow 2 e.toNat)
        else roundDiv (num * Nat.pow 2 (-e).toNat) den) := by
  split
  · rename_i he
    have h := rounds_roundDiv num (Nat.mul_pos hden (Nat.two_pow_pos e.toNat))
    rwa [Nat.cast_mul, ← zpow_toNat he, ← div_div] at h
  · rename_i he
    have h := rounds_roundDiv (num * 2 ^ (-e).toNat) hden
    rwa [Nat.cast_mul, ← zpow_toNat (by omega : 0 ≤ -e), zpow_neg, ← div_eq_mul_inv, div_right_comm] at h

/-- A quotient that is not larger has no larger magnitude. -/
theorem nearestMagnitude_mono (hden : 0 < den) (hden' : 0 < den')
    (h : (num : ℚ) / den ≤ (num' : ℚ) / den') : nearestMagnitude num den ≤ nearestMagnitude num' den' := by
  obtain rfl | hnum := Nat.eq_zero_or_pos num
  · rw [nearestMagnitude, if_pos rfl]
    exact Nat.zero_le _
  have hposden : (0 : ℚ) < den := by exact_mod_cast hden
  have hpos : (0 : ℚ) < (num : ℚ) / den := div_pos (by exact_mod_cast hnum) hposden
  have hnum' : 0 < num' := by
    refine Nat.pos_of_ne_zero fun hzero => ?_
    rw [hzero, Nat.cast_zero, zero_div] at h
    exact absurd hpos (not_lt.mpr h)
  obtain ⟨hlow, hhigh⟩ := floorLog_spec hnum hden
  obtain ⟨hlow', hhigh'⟩ := floorLog_spec hnum' hden'
  have hlog : floorLog num den < floorLog num' den' + 1 :=
    (zpow_lt_zpow_iff_right₀ (by norm_num : (1 : ℚ) < 2)).mp (hlow.trans_lt (h.trans_lt hhigh'))
  have hunits := rounds_units num hden (unitExponent num den)
  have hunits' := rounds_units num' hden' (unitExponent num' den')
  rw [nearestMagnitude, nearestMagnitude, if_neg hnum.ne', if_neg hnum'.ne']
  refine min_le_min_right _ ?_
  have he := unitExponent_eq num den
  have he' := unitExponent_eq num' den'
  generalize unitExponent num den = e at *
  generalize unitExponent num' den' = e' at *
  generalize (if e ≥ 0 then roundDiv num (den * Nat.pow 2 e.toNat)
    else roundDiv (num * Nat.pow 2 (-e).toNat) den) = m at *
  generalize (if e' ≥ 0 then roundDiv num' (den' * Nat.pow 2 e'.toNat)
    else roundDiv (num' * Nat.pow 2 (-e').toNat) den') = m' at *
  obtain heq | hlt : e = e' ∨ e < e' := by omega
  · subst heq
    have := hunits.mono hunits' (div_le_div_of_nonneg_right h (by positivity))
    omega
  · -- the first number has at most twice as many units as the second one has at least
    have htop : m ≤ 2 ^ 53 := by
      refine hunits.mono (rounds_natCast _) ?_
      rw [div_le_iff₀ (by positivity)]
      refine hhigh.le.trans ?_
      rw [Nat.cast_pow, Nat.cast_two, ← zpow_natCast, ← zpow_add₀ two_ne_zero]
      exact zpow_le_zpow_right₀ one_le_two (by omega)
    have hbottom : 2 ^ 52 ≤ m' := by
      refine (rounds_natCast _).mono hunits' ?_
      rw [le_div_iff₀ (by positivity), Nat.cast_pow, Nat.cast_two, ← zpow_natCast,
        ← zpow_add₀ two_ne_zero]
      refine le_trans (zpow_le_zpow_right₀ one_le_two (by omega)) hlow'
    omega

theorem nearestMagnitude_le (num den : ℕ) : nearestMagnitude num den ≤ infinityBits := by
  rw [nearestMagnitude]
  split
  · exact Nat.zero_le _
  · exact min_le_right _ _

/-! ### Floats -/

/-- The place of a float with a sign and a magnitude. -/
theorem rank_ofMagnitude (negative : Bool) {m : ℕ} (h : m ≤ infinityBits) :
    (ofMagnitude negative m).rank = if negative then -(m : ℤ) - 1 else m := by
  have hm : m < 0x8000000000000000 := lt_of_le_of_lt h (by decide)
  cases negative with
  | true =>
    have hbits : (UInt64.ofNat (0x8000000000000000 + m)).toNat = 0x8000000000000000 + m :=
      UInt64.toNat_ofNat_of_lt' (by rw [UInt64.size]; omega)
    simp only [rank, isNegative, magnitude, ofMagnitude, if_true, hbits]
    rw [if_pos (by simp), Nat.add_mod_left, Nat.mod_eq_of_lt hm]
  | false =>
    have hbits : (UInt64.ofNat m).toNat = m := UInt64.toNat_ofNat_of_lt' (by rw [UInt64.size]; omega)
    simp only [rank, isNegative, magnitude, ofMagnitude, Bool.false_eq_true, if_false, hbits]
    rw [if_neg (by simpa using hm), Nat.mod_eq_of_lt hm]

theorem rank_ofRat (q : ℚ) : (ofRat q).rank =
    if q.num < 0 then -(nearestMagnitude q.num.natAbs q.den : ℤ) - 1
      else nearestMagnitude q.num.natAbs q.den := by
  rw [ofRat, rank_ofMagnitude _ (nearestMagnitude_le _ _)]
  simp only [decide_eq_true_eq]

theorem natAbs_num_div_den (q : ℚ) : (q.num.natAbs : ℚ) / q.den = |q| := by
  rw [Nat.cast_natAbs, Int.cast_abs, ← Nat.abs_cast q.den, ← abs_div, Rat.num_div_den]

/-- A number that is not larger is not rounded to a larger float. -/
theorem rank_ofRat_mono {q r : ℚ} (h : q ≤ r) : (ofRat q).rank ≤ (ofRat r).rank := by
  rw [rank_ofRat, rank_ofRat]
  simp only [Rat.num_neg]
  split
  · rename_i hq
    split
    · rename_i hr
      have hmagnitude : nearestMagnitude r.num.natAbs r.den ≤ nearestMagnitude q.num.natAbs q.den := by
        refine nearestMagnitude_mono r.den_pos q.den_pos ?_
        rw [natAbs_num_div_den, natAbs_num_div_den, abs_of_neg hr, abs_of_neg hq]
        exact neg_le_neg h
      omega
    · omega
  · rename_i hq
    have hr : ¬ r < 0 := fun hr => hq (h.trans_lt hr)
    rw [if_neg hr]
    have hmagnitude : nearestMagnitude q.num.natAbs q.den ≤ nearestMagnitude r.num.natAbs r.den := by
      refine nearestMagnitude_mono q.den_pos r.den_pos ?_
      rwa [natAbs_num_div_den, natAbs_num_div_den, abs_of_nonneg (not_lt.mp hq),
        abs_of_nonneg (not_lt.mp hr)]
    omega

theorem ofInt_eq_ofRat (n : ℤ) : ofInt n = ofRat n :=
  rfl

end Binary64

end Resolvent
