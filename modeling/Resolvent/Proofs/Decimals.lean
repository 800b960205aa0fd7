import Mathlib.Algebra.Order.Ring.Rat
import Mathlib.Tactic.Linarith
import Mathlib.Tactic.Ring
import Resolvent.Binary64.Shortest

/-!
# The shortest decimal of a float

The search for the shortest decimal of a positive float goes through the powers of ten, from one above the
leading digit down to seventeen digits. With seventeen digits the power of ten is less than the interval of
the reals that round to the float is wide, so one of the two multiples next to the float lies in the interval
(`Binary64.exists_neighbour_of_reaches`). So the search finds a decimal, it lies in the interval, and there is
none with a greater power of ten (`Binary64.shortest_spec`).

The decimal has a fraction if the float is no whole number, because then no whole number is in the interval
(`Binary64.exponent_neg_of_not_isWhole`). It has none if the float is a whole number of sixteen digits or
more, because then the float itself is one of the multiples of `10 ^ 0`
(`Binary64.exponent_nonneg_of_isWhole`).
-/

namespace Resolvent

namespace Binary64

variable {magnitude : Nat} {i : Interval} {k : Int} {n : Nat}

/-! ### Powers of ten -/

/-- The power of ten is not above the value. -/
def Interval.Reaches (i : Interval) (k : Int) : Prop :=
  i.den * 10 ^ k.toNat ≤ i.value * 10 ^ (-k).toNat

/-- A smaller power of ten is not above the value. -/
theorem Interval.Reaches.sub (h : i.Reaches k) (j : Nat) :
    i.den * 10 ^ (k - j).toNat * 10 ^ j ≤ i.value * 10 ^ (-(k - j)).toNat := by
  have hexponents : (k - j).toNat + j + (-k).toNat = k.toNat + (-(k - j)).toNat := by omega
  refine Nat.le_of_mul_le_mul_right ?_ (Nat.pow_pos (n := (-k).toNat) (by decide : 0 < 10))
  calc i.den * 10 ^ (k - j).toNat * 10 ^ j * 10 ^ (-k).toNat
      = i.den * 10 ^ ((k - j).toNat + j + (-k).toNat) := by
        rw [Nat.pow_add, Nat.pow_add]
        ac_rfl
    _ = i.den * 10 ^ k.toNat * 10 ^ (-(k - j)).toNat := by rw [hexponents, Nat.pow_add, Nat.mul_assoc]
    _ ≤ i.value * 10 ^ (-k).toNat * 10 ^ (-(k - j)).toNat := Nat.mul_le_mul_right _ h
    _ = i.value * 10 ^ (-(k - j)).toNat * 10 ^ (-k).toNat := Nat.mul_right_comm _ _ _

/-- The power of ten that is tried first is not above the power of two. -/
theorem ten_pow_le_two_pow {guess : Int} (hlow : -1100 ≤ guess) (hhigh : guess < 1100) :
    10 ^ (guess * 30103 / 100000 - 1).toNat * 2 ^ (-guess).toNat ≤
      2 ^ guess.toNat * 10 ^ (-(guess * 30103 / 100000 - 1)).toNat := by
  have hall : (List.range 2200).all (fun (n : Nat) =>
      let g : Int := n - 1100
      10 ^ (g * 30103 / 100000 - 1).toNat * 2 ^ (-g).toNat ≤
        2 ^ g.toNat * 10 ^ (-(g * 30103 / 100000 - 1)).toNat) = true := by decide +kernel
  have hn := List.all_eq_true.mp hall (guess + 1100).toNat (List.mem_range.mpr (by omega))
  have hguess : (((guess + 1100).toNat : Nat) : Int) - 1100 = guess := by omega
  rw [hguess] at hn
  exact of_decide_eq_true hn

instance : Decidable (i.Reaches k) :=
  inferInstanceAs (Decidable (_ ≤ _))

/-- How far apart the powers of two are that the value and the unit are next to. -/
def Interval.binaryExponent (i : Interval) : Int :=
  (i.value.log2 : Int) - i.den.log2

/-- The power of ten that is tried first for the leading digit. -/
def Interval.leadingGuess (i : Interval) : Int :=
  i.binaryExponent * 30103 / 100000 - 1

theorem Interval.leadingExponent_spec (h : i.Reaches i.leadingGuess) :
    i.Reaches i.leadingExponent ∧ i.leadingGuess ≤ i.leadingExponent := by
  unfold leadingExponent
  simp only
  split
  · rename_i hfits
    exact ⟨of_decide_eq_true hfits, by rw [leadingGuess, binaryExponent]; omega⟩
  · split
    · rename_i hfits
      exact ⟨of_decide_eq_true hfits, by rw [leadingGuess, binaryExponent]; omega⟩
    · exact ⟨h, Int.le_refl _⟩

/-! ### The interval of a float -/

theorem significand_pos (h : 0 < magnitude) : 0 < significand magnitude := by
  unfold significand
  split <;> omega

theorem significand_lt (magnitude : Nat) : significand magnitude < 0x20000000000000 := by
  unfold significand
  split <;> omega

/-- How many units the upper end of the interval lies above the lower one. -/
def width (magnitude : Nat) : Nat :=
  if magnitude % 0x10000000000000 = 0 ∧ 1 < magnitude / 0x10000000000000 then 3 else 4

/-- The interval is wider than one of `10 ^ 16` equal parts of the value. -/
theorem four_mul_significand_lt (magnitude : Nat) :
    4 * significand magnitude < 10 ^ 16 * width magnitude := by
  unfold width significand
  split <;> split <;> omega

theorem interval_value (magnitude : Nat) :
    (interval magnitude).value = 4 * significand magnitude * 2 ^ (scale magnitude - 2).toNat :=
  rfl

theorem interval_den (magnitude : Nat) :
    (interval magnitude).den = 2 ^ (-(scale magnitude - 2)).toNat :=
  rfl

theorem interval_low (h : 0 < magnitude) : (interval magnitude).low =
    (4 * significand magnitude + 2 - width magnitude) * 2 ^ (scale magnitude - 2).toNat := by
  have := significand_pos h
  unfold interval width
  simp only
  split
  · rw [show 4 * significand magnitude + 2 - 3 = 4 * significand magnitude - 1 by omega]
    rfl
  · rw [show 4 * significand magnitude + 2 - 4 = 4 * significand magnitude - 2 by omega]
    rfl

theorem width_bounds (magnitude : Nat) : 3 ≤ width magnitude ∧ width magnitude ≤ 4 := by
  unfold width
  split
  · decide
  · decide

theorem interval_high (magnitude : Nat) : (interval magnitude).high =
    (4 * significand magnitude + 2) * 2 ^ (scale magnitude - 2).toNat :=
  rfl

theorem scale_bounds (hfinite : magnitude < infinityBits) :
    -1074 ≤ scale magnitude ∧ scale magnitude ≤ 971 ∧
      (0x4300000000000000 ≤ magnitude → -3 ≤ scale magnitude) := by
  have hinf : infinityBits = 0x7ff0000000000000 := rfl
  unfold scale
  omega

theorem interval_value_ne_zero (h : 0 < magnitude) : (interval magnitude).value ≠ 0 := by
  rw [interval_value]
  exact (Nat.mul_pos (Nat.mul_pos (by decide) (significand_pos h)) (Nat.two_pow_pos _)).ne'

theorem interval_den_log2 (magnitude : Nat) :
    (interval magnitude).den.log2 = (-(scale magnitude - 2)).toNat := by
  rw [interval_den, Nat.log2_two_pow]

theorem le_binaryExponent (h : 0 < magnitude) {j : Nat} (hj : 2 ^ j ≤ 4 * significand magnitude) :
    j + (scale magnitude - 2) ≤ (interval magnitude).binaryExponent := by
  have hlog : j + (scale magnitude - 2).toNat ≤ (interval magnitude).value.log2 := by
    rw [Nat.le_log2 (interval_value_ne_zero h), interval_value, Nat.pow_add]
    exact Nat.mul_le_mul_right _ hj
  rw [Interval.binaryExponent, interval_den_log2]
  omega

theorem binaryExponent_lt (h : 0 < magnitude) :
    (interval magnitude).binaryExponent < 55 + (scale magnitude - 2) := by
  have hlog : (interval magnitude).value.log2 < 55 + (scale magnitude - 2).toNat := by
    rw [Nat.log2_lt (interval_value_ne_zero h), interval_value, Nat.pow_add]
    have := significand_lt magnitude
    exact Nat.mul_lt_mul_of_pos_right (by omega) (Nat.two_pow_pos _)
  rw [Interval.binaryExponent, interval_den_log2]
  omega

/-- The power of ten that is tried first is not above the value. -/
theorem interval_reaches (h : 0 < magnitude) (hfinite : magnitude < infinityBits) :
    (interval magnitude).Reaches (interval magnitude).leadingGuess := by
  obtain ⟨hlow, hhigh, -⟩ := scale_bounds hfinite
  have hpos := significand_pos h
  have hle := le_binaryExponent h (j := 0) (by omega)
  have hlt := binaryExponent_lt h
  have hpow := ten_pow_le_two_pow (by omega : -1100 ≤ (interval magnitude).binaryExponent) (by omega)
  have hvalue := Nat.log2_self_le (interval_value_ne_zero h)
  have hden : (interval magnitude).den = 2 ^ (interval magnitude).den.log2 := by
    rw [interval_den_log2, interval_den]
  rw [Interval.Reaches, Interval.leadingGuess]
  generalize (interval magnitude).binaryExponent * 30103 / 100000 - 1 = k at *
  have hexponents : (interval magnitude).den.log2 + (interval magnitude).binaryExponent.toNat =
      (interval magnitude).value.log2 + (-(interval magnitude).binaryExponent).toNat := by
    rw [Interval.binaryExponent]
    omega
  generalize (interval magnitude).binaryExponent = guess at *
  refine Nat.le_of_mul_le_mul_right ?_ (Nat.two_pow_pos (-guess).toNat)
  calc (interval magnitude).den * 10 ^ k.toNat * 2 ^ (-guess).toNat
      ≤ (interval magnitude).den * (2 ^ guess.toNat * 10 ^ (-k).toNat) := by
        rw [Nat.mul_assoc]
        exact Nat.mul_le_mul_left _ hpow
    _ = 2 ^ (interval magnitude).value.log2 * 10 ^ (-k).toNat * 2 ^ (-guess).toNat := by
        rw [hden, ← Nat.mul_assoc, ← Nat.pow_add, hexponents, Nat.pow_add, Nat.mul_right_comm]
    _ ≤ (interval magnitude).value * 10 ^ (-k).toNat * 2 ^ (-guess).toNat :=
        Nat.mul_le_mul_right _ (Nat.mul_le_mul_right _ hvalue)

theorem interval_low_lt (h : 0 < magnitude) : (interval magnitude).low < (interval magnitude).value := by
  have hpos := significand_pos h
  have hle := width_bounds magnitude
  rw [interval_low h, interval_value]
  exact Nat.mul_lt_mul_of_pos_right (by omega) (Nat.two_pow_pos _)

theorem interval_value_lt (magnitude : Nat) : (interval magnitude).value < (interval magnitude).high := by
  rw [interval_high, interval_value]
  exact Nat.mul_lt_mul_of_pos_right (by omega) (Nat.two_pow_pos _)

/-! ### Neighbours -/

theorem Interval.contains_of_lt (hlow : i.low * 10 ^ (-k).toNat < n * 10 ^ k.toNat * i.den)
    (hhigh : n * 10 ^ k.toNat * i.den < i.high * 10 ^ (-k).toNat) : i.contains n k = true := by
  unfold contains
  simp only
  split
  · exact Bool.and_eq_true_iff.mpr ⟨decide_eq_true hlow.le, decide_eq_true hhigh.le⟩
  · exact Bool.and_eq_true_iff.mpr ⟨decide_eq_true hlow, decide_eq_true hhigh⟩

theorem Interval.bounds_of_contains (h : i.contains n k = true) :
    i.low * 10 ^ (-k).toNat ≤ n * 10 ^ k.toNat * i.den ∧
      n * 10 ^ k.toNat * i.den ≤ i.high * 10 ^ (-k).toNat := by
  unfold contains at h
  simp only at h
  split at h
  · obtain ⟨hlow, hhigh⟩ := Bool.and_eq_true_iff.mp h
    exact ⟨of_decide_eq_true hlow, of_decide_eq_true hhigh⟩
  · obtain ⟨hlow, hhigh⟩ := Bool.and_eq_true_iff.mp h
    exact ⟨(of_decide_eq_true hlow).le, (of_decide_eq_true hhigh).le⟩

/-- The multiples of a power of ten around the value, of which one is the neighbour. -/
def Interval.floor (i : Interval) (k : Int) : Nat :=
  i.value * 10 ^ (-k).toNat / (i.den * 10 ^ k.toNat)

theorem Interval.contains_of_neighbour? (h : i.neighbour? k = some n) : i.contains n k = true := by
  unfold neighbour? at h
  simp only at h
  split at h
  · split at h
    · obtain rfl := Option.some.inj h
      assumption
    · obtain rfl := Option.some.inj h
      assumption
  · obtain rfl := Option.some.inj h
    assumption
  · obtain rfl := Option.some.inj h
    assumption
  · cases h

theorem Interval.exists_neighbour
    (h : i.contains (i.floor k) k = true ∨ i.contains (i.floor k + 1) k = true) :
    ∃ d, i.neighbour? k = some d ∧ i.floor k ≤ d := by
  unfold neighbour?
  simp only
  split
  · split
    · exact ⟨_, rfl, Nat.le_refl _⟩
    · exact ⟨_, rfl, Nat.le_succ _⟩
  · exact ⟨_, rfl, Nat.le_refl _⟩
  · exact ⟨_, rfl, Nat.le_succ _⟩
  · rename_i hfloor hnext
    obtain h | h := h
    · cases h.symm.trans hfloor
    · cases h.symm.trans hnext

/-- The interval has a neighbour of the value in it if there is no room for it between two multiples of the
power of ten. -/
theorem Interval.exists_neighbour_of_room (hden : 0 < i.den) (hk : i.Reaches k) (hlow : i.low < i.value)
    (hhigh : i.value < i.high)
    (hroom : i.low * 10 ^ (-k).toNat + i.den * 10 ^ k.toNat < i.high * 10 ^ (-k).toNat) :
    ∃ d, i.neighbour? k = some d ∧ d ≠ 0 := by
  have hunit : 0 < 10 ^ (-k).toNat := Nat.pow_pos (by decide)
  have hgrid : 0 < i.den * 10 ^ k.toNat := Nat.mul_pos hden (Nat.pow_pos (by decide))
  have hassoc (n : Nat) : n * 10 ^ k.toNat * i.den = n * (i.den * 10 ^ k.toNat) := by
    rw [Nat.mul_right_comm, Nat.mul_assoc]
  have hfloor : i.floor k * (i.den * 10 ^ k.toNat) ≤ i.value * 10 ^ (-k).toNat := Nat.div_mul_le_self _ _
  have hnext : i.value * 10 ^ (-k).toNat < (i.floor k + 1) * (i.den * 10 ^ k.toNat) := by
    rw [Nat.mul_comm (_ + 1)]
    exact Nat.lt_mul_div_succ _ hgrid
  have hpos : 0 < i.floor k := Nat.div_pos hk hgrid
  have hlow := Nat.mul_lt_mul_of_pos_right hlow hunit
  have hhigh := Nat.mul_lt_mul_of_pos_right hhigh hunit
  have hcontains : i.contains (i.floor k) k = true ∨ i.contains (i.floor k + 1) k = true := by
    by_cases h : i.low * 10 ^ (-k).toNat < i.floor k * (i.den * 10 ^ k.toNat)
    · exact .inl (contains_of_lt (by rwa [hassoc]) (by rw [hassoc]; omega))
    · rw [Nat.succ_mul] at hnext
      refine .inr (contains_of_lt ?_ ?_)
      · rw [hassoc, Nat.succ_mul]
        omega
      · rw [hassoc, Nat.succ_mul]
        omega
  obtain ⟨d, hd, hle⟩ := exists_neighbour hcontains
  exact ⟨d, hd, by omega⟩

/-- With seventeen digits there is a neighbour in the interval of a float. -/
theorem exists_neighbour_of_reaches (h : 0 < magnitude) (hk : (interval magnitude).Reaches k) :
    ∃ d, (interval magnitude).neighbour? (k - 16) = some d ∧ d ≠ 0 := by
  have hpos := significand_pos h
  have hreach : (interval magnitude).den * 10 ^ (k - 16).toNat * 10 ^ 16 ≤
      (interval magnitude).value * 10 ^ (-(k - 16)).toNat := hk.sub 16
  have hup := Nat.two_pow_pos (scale magnitude - 2).toNat
  have hunit : 0 < 10 ^ (-(k - 16)).toNat := Nat.pow_pos (by decide)
  have hwidth := four_mul_significand_lt magnitude
  have hle := width_bounds magnitude
  have hends : (interval magnitude).high =
      (interval magnitude).low + width magnitude * 2 ^ (scale magnitude - 2).toNat := by
    rw [interval_high, interval_low h, ← Nat.add_mul]
    congr 1
    omega
  refine Interval.exists_neighbour_of_room (Nat.two_pow_pos _) ?_ (interval_low_lt h)
    (interval_value_lt magnitude) ?_
  · rw [Interval.Reaches]
    omega
  · rw [hends, Nat.add_mul]
    refine Nat.add_lt_add_left (Nat.lt_of_mul_lt_mul_left (a := 10 ^ 16) ?_) _
    calc 10 ^ 16 * ((interval magnitude).den * 10 ^ (k - 16).toNat)
        ≤ 4 * significand magnitude * 2 ^ (scale magnitude - 2).toNat * 10 ^ (-(k - 16)).toNat := by
          rw [Nat.mul_comm]
          exact hreach
      _ < 10 ^ 16 * width magnitude * 2 ^ (scale magnitude - 2).toNat * 10 ^ (-(k - 16)).toNat :=
          Nat.mul_lt_mul_of_pos_right (Nat.mul_lt_mul_of_pos_right hwidth hup) hunit
      _ = 10 ^ 16 * (width magnitude * 2 ^ (scale magnitude - 2).toNat * 10 ^ (-(k - 16)).toNat) := by
          rw [Nat.mul_assoc (10 ^ 16), Nat.mul_assoc (10 ^ 16)]

/-! ### The shortest decimal -/

/-- What the search finds among the multiples of a power of ten. -/
def Interval.candidate (i : Interval) (k : Int) : Option Decimal :=
  (i.neighbour? k).bind fun d => if d = 0 then none else some ⟨d, k⟩

theorem Interval.candidate_eq_some {d : Decimal} (h : i.candidate k = some d) :
    d.exponent = k ∧ d.digits ≠ 0 ∧ i.contains d.digits d.exponent = true := by
  obtain ⟨n, hn, hd⟩ := Option.bind_eq_some_iff.mp h
  split at hd
  · cases hd
  · obtain rfl := Option.some.inj hd
    exact ⟨rfl, ‹_›, contains_of_neighbour? hn⟩

theorem Interval.exists_candidate (h : ∃ d, i.neighbour? k = some d ∧ d ≠ 0) :
    ∃ d, i.candidate k = some d := by
  obtain ⟨d, hd, hne⟩ := h
  exact ⟨⟨d, k⟩, by rw [candidate, hd, Option.bind_some, if_neg hne]⟩

/-- A search among numbers finds what there is for the least one that there is something for. -/
theorem findSome?_range {α : Type} {f : Nat → Option α} {a : α} {m : Nat}
    (h : (List.range m).findSome? f = some a) :
    ∃ n < m, f n = some a ∧ ∀ j < n, f j = none := by
  obtain ⟨before, n, behind, hrange, hn, hnone⟩ := List.findSome?_eq_some_iff.mp h
  have hmem (j : Nat) : j < m ↔ j ∈ before ++ n :: behind := by rw [← hrange, List.mem_range]
  have hsorted : (before ++ n :: behind).Pairwise (· < ·) := hrange ▸ List.pairwise_lt_range
  have hlt : n < m := (hmem n).mpr (by simp)
  refine ⟨n, hlt, hn, fun j hj => ?_⟩
  obtain hbefore | hbehind := List.mem_append.mp ((hmem j).mp (hj.trans hlt))
  · exact hnone j hbefore
  · obtain rfl | hbehind := List.mem_cons.mp hbehind
    · exact absurd hj (Nat.lt_irrefl j)
    · have hafter := (List.pairwise_cons.mp (List.pairwise_append.mp hsorted).2.1).1 j hbehind
      omega

/-- The search finds a decimal in the interval, and none with a greater power of ten. -/
theorem shortest_spec (h : 0 < magnitude) (hfinite : magnitude < infinityBits) :
    (shortest magnitude).digits ≠ 0 ∧
    (interval magnitude).contains (shortest magnitude).digits (shortest magnitude).exponent = true ∧
    (interval magnitude).leadingExponent - 16 ≤ (shortest magnitude).exponent ∧
    ∀ k, k ≤ (interval magnitude).leadingExponent + 1 → (shortest magnitude).exponent < k →
      (interval magnitude).candidate k = none := by
  have hreaches := ((interval magnitude).leadingExponent_spec (interval_reaches h hfinite)).1
  obtain ⟨last, hlast⟩ := Interval.exists_candidate (exists_neighbour_of_reaches h hreaches)
  have hsearch : shortest magnitude = ((List.range 18).findSome? fun (n : Nat) =>
      (interval magnitude).candidate ((interval magnitude).leadingExponent + 1 - n)).getD ⟨0, 0⟩ := rfl
  cases hfound : (List.range 18).findSome? fun (n : Nat) =>
      (interval magnitude).candidate ((interval magnitude).leadingExponent + 1 - n) with
  | none =>
    have hnone := List.findSome?_eq_none_iff.mp hfound 17 (by simp)
    rw [show (interval magnitude).leadingExponent + 1 - (17 : Nat) =
      (interval magnitude).leadingExponent - 16 by omega, hlast] at hnone
    cases hnone
  | some d =>
    rw [hfound, Option.getD_some] at hsearch
    obtain ⟨n, hn, hd, hbefore⟩ := findSome?_range hfound
    obtain ⟨hexponent, hdigits, hcontains⟩ := Interval.candidate_eq_some hd
    rw [hsearch]
    refine ⟨hdigits, hcontains, by omega, fun k hk hlt => ?_⟩
    obtain ⟨j, rfl⟩ : ∃ j : Nat, k = (interval magnitude).leadingExponent + 1 - j :=
      ⟨((interval magnitude).leadingExponent + 1 - k).toNat, by omega⟩
    exact hbefore j (by omega)

/-! ### Whole numbers -/

theorem isWhole_iff (magnitude : Nat) :
    isWhole magnitude = true ↔ 2 ^ (-scale magnitude).toNat ∣ significand magnitude := by
  unfold isWhole
  simp only
  by_cases h : 0 ≤ scale magnitude
  · rw [decide_eq_true (show scale magnitude ≥ 0 from h), Bool.true_or,
      show (-scale magnitude).toNat = 0 by omega]
    exact iff_of_true rfl (Nat.one_dvd _)
  · rw [decide_eq_false (show ¬ scale magnitude ≥ 0 from h), Bool.false_or, decide_eq_true_eq,
      Nat.dvd_iff_mod_eq_zero]
    rfl

/-- The shortest decimal of a float that is no whole number has a fraction: there is no whole number in the
interval. -/
theorem exponent_neg_of_not_isWhole (h : 0 < magnitude) (hfinite : magnitude < infinityBits)
    (hwhole : isWhole magnitude ≠ true) : (shortest magnitude).exponent < 0 := by
  obtain ⟨-, hcontains, -, -⟩ := shortest_spec h hfinite
  obtain ⟨hlow, hhigh⟩ := Interval.bounds_of_contains hcontains
  by_contra hneg
  refine hwhole ((isWhole_iff magnitude).mpr ?_)
  have hpos := significand_pos h
  have hscale : scale magnitude < 0 := by
    by_contra hscale
    refine hwhole ((isWhole_iff magnitude).mpr ?_)
    rw [show (-scale magnitude).toNat = 0 by omega]
    exact Nat.one_dvd _
  have hden : (interval magnitude).den = 4 * 2 ^ (-scale magnitude).toNat := by
    rw [interval_den, show (-(scale magnitude - 2)).toNat = 2 + (-scale magnitude).toNat by omega,
      Nat.pow_add]
  have hle := (width_bounds magnitude).2
  rw [interval_low h, hden, show (scale magnitude - 2).toNat = 0 by omega,
    show (-(shortest magnitude).exponent).toNat = 0 by omega, Nat.mul_left_comm] at hlow
  rw [interval_high, hden, show (scale magnitude - 2).toNat = 0 by omega,
    show (-(shortest magnitude).exponent).toNat = 0 by omega, Nat.mul_left_comm] at hhigh
  refine ⟨(shortest magnitude).digits * 10 ^ (shortest magnitude).exponent.toNat, ?_⟩
  rw [Nat.mul_comm (2 ^ _)]
  omega

theorem interval_den_dvd (hwhole : isWhole magnitude = true) :
    (interval magnitude).den ∣ (interval magnitude).value := by
  have hfour : (interval magnitude).den ∣ 4 * 2 ^ (-scale magnitude).toNat := by
    rw [interval_den, show (4 : Nat) = 2 ^ 2 from rfl, ← Nat.pow_add]
    exact Nat.pow_dvd_pow 2 (by omega)
  rw [interval_value]
  exact Nat.dvd_mul_right_of_dvd
    (hfour.trans (Nat.mul_dvd_mul_left 4 ((isWhole_iff magnitude).mp hwhole))) _

/-- A whole number is one of the whole numbers in its interval. -/
theorem exists_candidate_of_isWhole (h : 0 < magnitude) (hwhole : isWhole magnitude = true) :
    ∃ d, (interval magnitude).candidate 0 = some d := by
  obtain ⟨q, hq⟩ := interval_den_dvd hwhole
  have hden : 0 < (interval magnitude).den := Nat.two_pow_pos _
  have hlow := interval_low_lt h
  have hhigh := interval_value_lt magnitude
  have hfloor : (interval magnitude).floor 0 = q := by
    rw [Interval.floor, hq]
    simp [hden]
  have hcontains : (interval magnitude).contains ((interval magnitude).floor 0) 0 = true := by
    rw [hfloor]
    refine Interval.contains_of_lt ?_ ?_
    · show (interval magnitude).low * 1 < q * 1 * (interval magnitude).den
      rwa [Nat.mul_one, Nat.mul_one, Nat.mul_comm, ← hq]
    · show q * 1 * (interval magnitude).den < (interval magnitude).high * 1
      rwa [Nat.mul_one, Nat.mul_one, Nat.mul_comm, ← hq]
  obtain ⟨d, hd, hle⟩ := Interval.exists_neighbour (.inl hcontains)
  refine Interval.exists_candidate ⟨d, hd, ?_⟩
  rintro rfl
  rw [hfloor] at hle
  rw [Nat.le_zero.mp hle, Nat.mul_zero] at hq
  exact interval_value_ne_zero h hq

/-- The leading digit of a float of sixteen digits or more is not looked for behind the point. -/
theorem leadingGuess_nonneg (h : 0x430c6bf526340000 ≤ magnitude) (hfinite : magnitude < infinityBits) :
    0 ≤ (interval magnitude).leadingGuess := by
  have hsignificand : 2 ^ 54 ≤ 4 * significand magnitude := by
    unfold significand
    split <;> omega
  have hexponent := le_binaryExponent (by omega) hsignificand
  have hscale := (scale_bounds hfinite).2.2 (by omega)
  rw [Interval.leadingGuess]
  omega

/-- The shortest decimal of a whole number of sixteen digits or more has no fraction. -/
theorem exponent_nonneg_of_isWhole (h : 0x430c6bf526340000 ≤ magnitude) (hfinite : magnitude < infinityBits)
    (hwhole : isWhole magnitude = true) : 0 ≤ (shortest magnitude).exponent := by
  have hpos : 0 < magnitude := by omega
  obtain ⟨-, -, -, hbefore⟩ := shortest_spec hpos hfinite
  have hguess := leadingGuess_nonneg h hfinite
  have hlead := ((interval magnitude).leadingExponent_spec (interval_reaches hpos hfinite)).2
  by_contra hneg
  -- the search comes to the whole numbers before it comes to fractions
  obtain ⟨d, hd⟩ := exists_candidate_of_isWhole hpos hwhole
  rw [hbefore 0 (by omega) (by omega)] at hd
  cases hd

end Binary64

end Resolvent
