import Resolvent.Proofs.Decimals
import Resolvent.Proofs.Rendering

/-!
# Texts of floats

The text of a finite float has a point in it, which no name without quotes, no variable and no exact number
has, except for whole numbers of sixteen digits or more: these are written like integers
(`Binary64.text_of_integer?`). Of the other floats only the positive infinity is written like a name. That is
all that floats have in common with other terms (`Universe.render_float_iff`).
-/

namespace Resolvent

open Text

namespace Binary64

variable {magnitude n : Nat}

/-! ### Layout -/

theorem toDigits_mul_pow (hn : 0 < n) (j : Nat) :
    Nat.toDigits 10 (n * 10 ^ j) = Nat.toDigits 10 n ++ List.replicate j '0' := by
  induction j with
  | zero => simp
  | succ j ih =>
    have hmul : n * 10 ^ (j + 1) = 10 * (n * 10 ^ j) + 0 := by rw [Nat.pow_succ]; ring
    have hpos : 0 < n * 10 ^ j := Nat.mul_pos hn (Nat.pow_pos (by decide))
    rw [hmul, ← Nat.toDigits_append_toDigits (by decide) hpos (by decide), ih, Nat.toDigits_zero,
      List.append_assoc, List.replicate_succ']

/-- Without a fraction a decimal is written like an integer. -/
theorem layoutPlain_of_nonneg {d : Decimal} (hd : d.digits ≠ 0) (h : 0 ≤ d.exponent) :
    layoutPlain d = Nat.toDigits 10 (d.digits * 10 ^ d.exponent.toNat) := by
  rw [layoutPlain, toDigits_mul_pow (Nat.pos_of_ne_zero hd)]
  simp only
  rw [if_pos h]

/-- Digits and points, a digit first. -/
structure Numeral (w : List Char) : Prop where
  /-- There is nothing else. -/
  chars : ∀ c ∈ w, c.isDigit = true ∨ c = '.'
  /-- A digit comes first. -/
  head : ∃ c v, w = c :: v ∧ c.isDigit = true

theorem numeral_toDigits (n : Nat) : Numeral (Nat.toDigits 10 n) := by
  obtain ⟨c, v, h⟩ := List.exists_cons_of_ne_nil (Nat.toDigits_ne_nil (n := n) (b := 10))
  exact ⟨fun c hc => .inl (isDigit_of_mem_toDigits hc), c, v, h,
    isDigit_of_mem_toDigits (h ▸ List.mem_cons_self)⟩

theorem Numeral.append {v w : List Char} (hv : Numeral v) (hw : ∀ c ∈ w, c.isDigit = true ∨ c = '.') :
    Numeral (v ++ w) := by
  obtain ⟨c, cs, rfl, hc⟩ := hv.head
  exact ⟨List.forall_mem_append.mpr ⟨hv.chars, hw⟩, c, cs ++ w, rfl, hc⟩

theorem Numeral.take {w : List Char} (hw : Numeral w) (hn : 0 < n) : Numeral (w.take n) := by
  obtain ⟨c, cs, rfl, hc⟩ := hw.head
  obtain ⟨j, rfl⟩ : ∃ j, n = j + 1 := ⟨n - 1, by omega⟩
  exact ⟨fun d hd => hw.chars d (List.mem_of_mem_take hd), c, cs.take j, rfl, hc⟩

theorem zero_of_mem_replicate {c : Char} (h : c ∈ List.replicate n '0') : c.isDigit = true ∨ c = '.' := by
  rw [List.eq_of_mem_replicate h]
  exact .inl rfl

theorem numeral_layoutPlain (d : Decimal) : Numeral (layoutPlain d) := by
  have hchars := numeral_toDigits d.digits
  unfold layoutPlain
  simp only
  split
  · exact hchars.append fun c hc => zero_of_mem_replicate hc
  · split
    · refine ⟨List.forall_mem_cons.mpr ⟨.inl rfl, List.forall_mem_cons.mpr ⟨.inr rfl, ?_⟩⟩, '0', _, rfl, rfl⟩
      exact List.forall_mem_append.mpr ⟨fun c hc => zero_of_mem_replicate hc, hchars.chars⟩
    · refine (hchars.take (by omega)).append (List.forall_mem_cons.mpr ⟨.inr rfl, fun c hc => ?_⟩)
      exact hchars.chars c (List.mem_of_mem_drop hc)

theorem point_mem_layoutPlain {d : Decimal} (h : d.exponent < 0) : '.' ∈ layoutPlain d := by
  unfold layoutPlain
  simp only
  rw [if_neg (by omega)]
  split
  · simp
  · simp

/-! ### Texts that are written for floats only -/

/-- A word that is no name and no number, and does not begin like a variable or a value of the host. -/
structure Foreign (w : List Char) : Prop extends Word w where
  /-- It does not begin with an underscore or an angle. -/
  head : ∀ c ∈ w.head?, c ≠ '_' ∧ c ≠ '<'
  /-- It is no name. -/
  unnamed : ∀ name, w ≠ nameChars name
  /-- There is something in it that is not part of an exact number. -/
  mark : ∃ c ∈ w, c ≠ '-' ∧ c ≠ 'r' ∧ c.isDigit = false

theorem Numeral.figure {w : List Char} (hw : Numeral w) : Figure w := by
  obtain ⟨c, v, rfl, hc⟩ := hw.head
  refine ⟨⟨List.cons_ne_nil _ _, fun d hd => ?_⟩, ⟨c, List.mem_cons_self, hc⟩, ?_⟩
  · obtain hd | rfl := hw.chars d hd
    · exact isStop_of_isDigit hd
    · rfl
  · rintro _ ⟨⟩
    exact isLowercase_of_isDigit hc

/-- A numeral with a point in it is not the text of an exact number, with a sign or without one. -/
theorem Numeral.foreign {w : List Char} (hw : Numeral w) (hpoint : '.' ∈ w) :
    Foreign w ∧ Foreign ('-' :: w) := by
  obtain ⟨c, v, hcons, hc⟩ := hw.head
  have hsign := hw.figure.cons (c := '-') rfl rfl
  refine ⟨⟨hw.figure.toWord, ?_, fun name => hw.figure.ne_nameChars, '.', hpoint, by decide, by decide, rfl⟩,
    ⟨hsign.toWord, ?_, fun name => hsign.ne_nameChars, '.', .tail _ hpoint, by decide, by decide, rfl⟩⟩
  · rw [hcons]
    rintro _ ⟨⟩
    constructor
    · rintro rfl
      cases hc
    · rintro rfl
      cases hc
  · rintro _ ⟨⟩
    decide

theorem foreign_nan : Foreign ['N', 'a', 'N'] := by
  have hword : Word ['N', 'a', 'N'] := word_of_all (by simp) (by decide)
  refine ⟨hword, ?_, fun name => hword.ne_nameChars (by decide +kernel), 'N', .head _, by decide, by decide,
    rfl⟩
  rintro _ ⟨⟩
  decide

theorem foreign_negative_infinity : Foreign ['-', 'i', 'n', 'f'] := by
  have hword : Word ['-', 'i', 'n', 'f'] := word_of_all (by simp) (by decide)
  refine ⟨hword, ?_, fun name => hword.ne_nameChars (by decide +kernel), 'i', .tail _ (.head _), by decide,
    by decide, rfl⟩
  rintro _ ⟨⟩
  decide

/-- The text of a finite float without its sign. -/
def plainText (magnitude : Nat) : List Char :=
  (if magnitude = 0 then ['0'] else layoutPlain (shortest magnitude)) ++
    if (magnitude = 0 ∨ isWhole magnitude = true) ∧ magnitude < 0x430c6bf526340000 then ['.', '0'] else []

theorem toList_text_of_finite {x : Binary64} (h : x.magnitude < infinityBits) :
    x.text.toList = (if x.isNegative then ['-'] else []) ++ plainText x.magnitude := by
  have hnan : x.isNaN = false := decide_eq_false (by omega)
  have hfinite : x.isFinite = true := decide_eq_true h
  rw [text, String.toList_ofList, display, layout, hnan, hfinite, plainText, isZero]
  cases x.isNegative with
  | true => simp
  | false => simp

theorem numeral_plainText (magnitude : Nat) : Numeral (plainText magnitude) := by
  refine Numeral.append ?_ fun c hc => ?_
  · split
    · exact ⟨by simp, '0', [], rfl, rfl⟩
    · exact numeral_layoutPlain _
  · split at hc
    · simp only [List.mem_cons, List.not_mem_nil, or_false] at hc
      obtain rfl | rfl := hc
      · exact .inr rfl
      · exact .inl rfl
    · cases hc

/-- There is a point in the text, unless the float is a whole number of sixteen digits or more. -/
theorem point_mem_plainText (hfinite : magnitude < infinityBits)
    (h : isWhole magnitude = true → magnitude < 0x430c6bf526340000) : '.' ∈ plainText magnitude := by
  rw [plainText, List.mem_append]
  by_cases hsuffix : (magnitude = 0 ∨ isWhole magnitude = true) ∧ magnitude < 0x430c6bf526340000
  · rw [if_pos hsuffix]
    exact .inr (by simp)
  · have hzero : magnitude ≠ 0 := by
      rintro rfl
      exact hsuffix ⟨.inl rfl, by decide⟩
    have hwhole : isWhole magnitude ≠ true := fun hwhole => hsuffix ⟨.inr hwhole, h hwhole⟩
    rw [if_neg hzero]
    exact .inl (point_mem_layoutPlain
      (exponent_neg_of_not_isWhole (Nat.pos_of_ne_zero hzero) hfinite hwhole))

/-- A whole number of sixteen digits or more is written like an integer. -/
theorem plainText_of_isWhole (h : 0x430c6bf526340000 ≤ magnitude) (hfinite : magnitude < infinityBits)
    (hwhole : isWhole magnitude = true) : plainText magnitude =
      Nat.toDigits 10 ((shortest magnitude).digits * 10 ^ (shortest magnitude).exponent.toNat) := by
  rw [plainText, if_neg (by omega), if_neg (by omega), List.append_nil]
  exact layoutPlain_of_nonneg (shortest_spec (by omega) hfinite).1
    (exponent_nonneg_of_isWhole h hfinite hwhole)

/-- The integer that a float is written like, if there is one. -/
def integer? (x : Binary64) : Option Int :=
  if x.isFinite ∧ isWhole x.magnitude ∧ 0x430c6bf526340000 ≤ x.magnitude then
    let d := shortest x.magnitude
    some ((if x.isNegative then -1 else 1) * (d.digits * 10 ^ d.exponent.toNat : Nat))
  else none

theorem text_of_integer? {x : Binary64} {n : Int} (h : x.integer? = some n) :
    x.text.toList = (toString n).toList := by
  unfold integer? at h
  simp only at h
  split at h
  · rename_i hx
    obtain ⟨hfinite, hwhole, hlarge⟩ := hx
    have hfinite := of_decide_eq_true hfinite
    obtain rfl := Option.some.inj h
    have hdigits := (shortest_spec (by omega) hfinite).1
    rw [toList_text_of_finite hfinite, plainText_of_isWhole hlarge hfinite hwhole, toList_toString_int]
    have hpos : 0 < (shortest x.magnitude).digits * 10 ^ (shortest x.magnitude).exponent.toNat :=
      Nat.mul_pos (Nat.pos_of_ne_zero hdigits) (Nat.pow_pos (by decide))
    generalize (shortest x.magnitude).digits * 10 ^ (shortest x.magnitude).exponent.toNat = m at *
    cases x.isNegative with
    | true => simp [hpos]
    | false => simp
  · cases h

/-- The positive infinity. -/
def infinity : Binary64 := ⟨0x7ff0000000000000⟩

theorem foreign_text {x : Binary64} (hinteger : x.integer? = none) (hinfinity : x ≠ infinity) :
    Foreign x.text.toList := by
  obtain hnan | hinf | hfinite := lt_trichotomy infinityBits x.magnitude
  · have hfinite : x.isFinite = false := decide_eq_false (by omega)
    have htext : x.text.toList = ['N', 'a', 'N'] := by
      rw [text, String.toList_ofList, display, layout, show x.isNaN = true from decide_eq_true hnan, hfinite]
      rfl
    rw [htext]
    exact foreign_nan
  · have hfinite : x.isFinite = false := decide_eq_false (by omega)
    have hnan : x.isNaN = false := decide_eq_false (by omega)
    have hnegative : x.isNegative = true := by
      refine decide_eq_true ?_
      by_contra hpositive
      have hbits : x.bits.toNat = infinityBits := by
        rw [magnitude] at hinf
        omega
      exact hinfinity (congrArg mk (UInt64.toNat_inj.mp hbits))
    have htext : x.text.toList = ['-', 'i', 'n', 'f'] := by
      rw [text, String.toList_ofList, display, layout, hnan, hfinite, hnegative]
      rfl
    rw [htext]
    exact foreign_negative_infinity
  · have hpoint : '.' ∈ plainText x.magnitude := by
      refine point_mem_plainText hfinite fun hwhole => ?_
      by_contra hlarge
      rw [integer?, if_pos ⟨decide_eq_true hfinite, hwhole, by omega⟩] at hinteger
      cases hinteger
    rw [toList_text_of_finite hfinite]
    split
    · exact ((numeral_plainText x.magnitude).foreign hpoint).2
    · exact ((numeral_plainText x.magnitude).foreign hpoint).1

end Binary64

namespace Tree

open Binary64 (Foreign)

variable {symbols : Symbols} {t : Tree} {w : List Char} {x : Binary64}

/-- What is written as a word is no compound. -/
theorem leaf_of_word (h : Word (letters symbols t)) : (∃ v, t = .var v) ∨ ∃ c, t = .const c := by
  obtain v | c | ⟨f, args⟩ := t
  · exact .inl ⟨v, rfl⟩
  · exact .inr ⟨c, rfl⟩
  · cases hsplit : (Tree.compound f args).split? with
    | some p =>
      have hstop := h.free '[' (by rw [letters_cell hsplit]; exact .head _)
      cases hstop
    | none =>
      have hstop := h.free '(' (by rw [letters_whole hsplit, behind]; simp)
      cases hstop

/-- What is written as a word is a variable, an atom, an exact number, a float or a value of the host. -/
theorem word_cases (ht : t.Proper symbols) (hfloat : ∀ x, t ≠ .const (.float x))
    (hw : Word (letters symbols t)) :
    (∃ v, letters symbols t = '_' :: v) ∨
    (∃ a, t = .atom a ∧ letters symbols t = nameChars (symbols.name a).toList) ∨
    (∃ q, t = .const (.ofRat q) ∧ letters symbols t = numberChars q) ∨
    ∃ v, letters symbols t = '<' :: v := by
  obtain ⟨v, rfl⟩ | ⟨c, rfl⟩ := leaf_of_word hw
  · exact .inl ⟨_, by rw [letters_var, Var.toList_text]⟩
  · obtain _ | hc | _ := ht
    rw [letters_const]
    obtain ⟨a, rfl⟩ | ⟨q, rfl⟩ | ⟨x, rfl⟩ | ⟨i, rfl⟩ := hc.cases
    · exact .inr (.inl ⟨a, rfl, Constant.toList_text_atom symbols a⟩)
    · exact .inr (.inr (.inl ⟨q, rfl, Constant.toList_text_ofRat symbols q⟩))
    · exact absurd rfl (hfloat x)
    · exact .inr (.inr (.inr ⟨"opaque>".toList, by rw [Constant.text]; decide⟩))

/-- Nothing but a float is written in a way that is foreign to names, variables and exact numbers. -/
theorem letters_ne_of_foreign (ht : t.Proper symbols) (hfloat : ∀ x, t ≠ .const (.float x))
    (hw : Foreign w) : letters symbols t ≠ w := by
  rintro rfl
  obtain ⟨v, hv⟩ | ⟨a, -, ha⟩ | ⟨q, -, hq⟩ | ⟨v, hv⟩ := word_cases ht hfloat hw.toWord
  · exact (hw.head '_' (by rw [hv]; rfl)).1 rfl
  · exact hw.unnamed _ ha
  · obtain ⟨c, hc, hsign, hletter, hdigit⟩ := hw.mark
    rw [hq] at hc
    obtain h | h | h := mem_numberChars hc
    · exact hsign h
    · exact hletter h
    · rw [hdigit] at h
      cases h
  · exact (hw.head '<' (by rw [hv]; rfl)).2 rfl

/-- An integer is the only thing that is written like an integer. -/
theorem letters_eq_toString_iff (ht : t.Proper symbols) (hfloat : ∀ x, t ≠ .const (.float x)) (n : Int) :
    letters symbols t = (toString n).toList ↔ t = .const (.ofInt n) := by
  have hnumber : (toString n).toList = numberChars n := by
    rw [← Constant.toList_text_ofRat symbols, Constant.ofRat_intCast, Constant.toList_text_ofInt]
  constructor
  · intro h
    have hfigure : Figure (letters symbols t) := h ▸ figure_int n
    rw [hnumber] at h
    obtain ⟨v, hv⟩ | ⟨a, -, ha⟩ | ⟨q, rfl, hq⟩ | ⟨v, hv⟩ := word_cases ht hfloat hfigure.toWord
    · exact absurd (h.symm.trans hv) (numberChars_ne_cons (by decide) (by decide) rfl)
    · exact absurd ha hfigure.ne_nameChars
    · rw [numberChars_injective (hq.symm.trans h), Constant.ofRat_intCast]
    · exact absurd (h.symm.trans hv) (numberChars_ne_cons (by decide) (by decide) rfl)
  · rintro rfl
    rw [letters_const, Constant.toList_text_ofInt]

/-- The atom `inf` is the only thing that is written like the positive infinity. -/
theorem letters_eq_infinity_iff (ht : t.Proper symbols) (hfloat : ∀ x, t ≠ .const (.float x)) :
    letters symbols t = ['i', 'n', 'f'] ↔ ∃ a, t = .atom a ∧ symbols.name a = "inf" := by
  have hname : nameChars "inf".toList = ['i', 'n', 'f'] := by decide +kernel
  constructor
  · intro h
    have hword : Word (letters symbols t) := by
      rw [h]
      exact word_of_all (by simp) (by decide)
    obtain ⟨v, hv⟩ | ⟨a, rfl, ha⟩ | ⟨q, -, hq⟩ | ⟨v, hv⟩ := word_cases ht hfloat hword
    · cases h.symm.trans hv
    · refine ⟨a, rfl, String.toList_injective (nameChars_injective ?_)⟩
      rw [← ha, h, hname]
    · exact absurd (hq.symm.trans h) (numberChars_ne_cons (by decide) (by decide) rfl)
    · cases h.symm.trans hv
  · rintro ⟨a, rfl, ha⟩
    rw [letters_const, Constant.toList_text_atom, ha, hname]

/-- A float is written like something else only if it is the positive infinity, like the atom `inf`, or a
whole number of sixteen digits or more, like one integer. -/
theorem render_eq_text_iff (ht : t.Proper symbols) (hfloat : ∀ x, t ≠ .const (.float x)) (x : Binary64) :
    t.render symbols = x.text ↔
      (x = .infinity ∧ ∃ a, t = .atom a ∧ symbols.name a = "inf") ∨
        ∃ n, x.integer? = some n ∧ t = .const (.ofInt n) := by
  have htext : t.render symbols = x.text ↔ letters symbols t = x.text.toList := String.toList_inj.symm
  rw [htext]
  by_cases hinfinity : x = .infinity
  · have hinteger : Binary64.infinity.integer? = none := by decide +kernel
    have hletters : Binary64.infinity.text.toList = ['i', 'n', 'f'] := by decide +kernel
    subst hinfinity
    rw [hletters, letters_eq_infinity_iff ht hfloat, hinteger]
    simp
  · cases hinteger : x.integer? with
    | none =>
      have hne := letters_ne_of_foreign ht hfloat (Binary64.foreign_text hinteger hinfinity)
      exact iff_of_false hne (by simp [hinfinity])
    | some n =>
      rw [Binary64.text_of_integer? hinteger, letters_eq_toString_iff ht hfloat]
      simp [hinfinity]

end Tree

/-- A float is written like a term that is no float only if it is the positive infinity and the term is the
atom `inf`, or if it is a whole number of sixteen digits or more and the term is the integer of the same
digits. -/
theorem Universe.render_float_iff {u : Universe} {t : Term} {T : Tree} (ht : u.store.Denotes t T)
    (hT : T.Proper u.symbols) (hfloat : ∀ x, T ≠ .const (.float x)) (x : Binary64) :
    u.render t = u.render (.const (.float x)) ↔
      (x = .infinity ∧ ∃ a, T = .atom a ∧ u.symbols.name a = "inf") ∨
        ∃ n, x.integer? = some n ∧ T = .const (.ofInt n) := by
  have htext : u.render (.const (.float x)) = x.text := by
    rw [render, Store.resolve_const]
    exact String.toList_injective (Tree.letters_const _)
  rw [htext, render, ht.resolve_eq]
  exact Tree.render_eq_text_iff hT hfloat x

/-- The float `10 ^ 15` and the integer `10 ^ 15` are written alike. -/
theorem Universe.render_float_large :
    Universe.initial.render (.const (.int 1000000000000000)) =
      Universe.initial.render (.const (.float ⟨0x430c6bf526340000⟩)) := by
  have hproper : (Constant.int 1000000000000000).Proper Universe.initial.symbols := by
    refine ⟨by rintro _ ⟨⟩, fun q hq => ?_⟩
    obtain rfl := Option.some.inj hq
    rw [Constant.ofRat_intCast, Constant.ofInt_toInt]
  refine (Universe.render_float_iff (.const _) (.const hproper) (by rintro x ⟨⟩) _).mpr (.inr ?_)
  exact ⟨1000000000000000, by decide +kernel, by decide +kernel⟩

end Resolvent
