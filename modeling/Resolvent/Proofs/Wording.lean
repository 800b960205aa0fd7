import Std.Data.String.ToInt
import Resolvent.Proofs.Keying
import Resolvent.Text.Render

/-!
# The texts of names, numbers and variables

What is written for a name is a word, a comma, a pair of square brackets or a text in quotes
(`Text.Token`), and such a token ends where a character follows that ends a word, so it is found again at
the beginning of a longer text (`Text.Token.append_inj`). Names are told apart by what is written for them
(`Text.nameChars_injective`). The texts of variables and exact numbers are words with a digit in them that do
not begin with a lowercase letter (`Text.Figure`), and no name is written so without quotes.
-/

namespace Resolvent

namespace Text

variable {c d : Char} {v w r r' name name' : List Char}

/-! ### Words -/

/-- Two texts that go on with a character that neither has before have the same beginning. -/
theorem append_inj_of_stop {p : Char → Bool} (hv : ∀ c ∈ v, p c = false) (hr : ∀ c ∈ r.head?, p c = true) :
    ∀ {w : List Char}, (∀ c ∈ w, p c = false) → (∀ c ∈ r'.head?, p c = true) → v ++ r = w ++ r' →
      v = w ∧ r = r' := by
  induction v with
  | nil =>
    rintro (_ | ⟨d, w⟩) hw hr' h
    · exact ⟨rfl, h⟩
    · have hd : p d = true := hr d (by rw [← List.nil_append r, h]; exact rfl)
      rw [hw d (.head _)] at hd
      cases hd
  | cons c v ih =>
    rintro (_ | ⟨d, w⟩) hw hr' h
    · have hc : p c = true := hr' c (by rw [← List.nil_append r', ← h]; exact rfl)
      rw [hv c (.head _)] at hc
      cases hc
    · obtain ⟨rfl, hrest⟩ := List.cons.inj h
      obtain ⟨rfl, rfl⟩ := ih (fun c hc => hv c (.tail _ hc)) (fun c hc => hw c (.tail _ hc)) hr' hrest
      exact ⟨rfl, rfl⟩

/-- The character ends a word. -/
def isStop (c : Char) : Bool :=
  c ∈ [',', '|', '\'', '(', ')', '[', ']']

/-- The text is empty or begins with a character that ends a word. -/
def Stops (r : List Char) : Prop :=
  ∀ c ∈ r.head?, isStop c = true

/-- There is a character in the text, and none that ends a word. -/
structure Word (w : List Char) : Prop where
  /-- There is a character. -/
  ne_nil : w ≠ []
  /-- No character ends a word. -/
  free : ∀ c ∈ w, isStop c = false

/-- What none of the characters is, each of them is not. -/
theorem eq_false_of_all {p : Char → Bool} (h : w.all (!p ·) = true) (hc : c ∈ w) : p c = false := by
  simpa using List.all_eq_true.mp h c hc

/-- A character does not end a word if it is of a kind that none of those that do is. -/
theorem isStop_of_all {p : Char → Bool} (hp : [',', '|', '\'', '(', ')', '[', ']'].all (!p ·) = true)
    (h : p c = true) : isStop c = false := by
  refine decide_eq_false fun hc => ?_
  rw [eq_false_of_all hp hc] at h
  cases h

theorem isStop_of_isAlphanumeric (h : isAlphanumeric c = true) : isStop c = false :=
  isStop_of_all (by decide +kernel) h

theorem isStop_of_isDigit (h : c.isDigit = true) : isStop c = false :=
  isStop_of_all (p := Char.isDigit) (by decide) h

theorem isStop_of_mem_symbolChars (h : c ∈ symbolChars) : isStop c = false :=
  eq_false_of_all (by decide) h

theorem word_of_all (h : w ≠ []) (hfree : w.all (!isStop ·) = true) : Word w :=
  ⟨h, fun _ hc => eq_false_of_all hfree hc⟩

/-- A word does not begin like a text that begins with a character that ends a word. -/
theorem Word.append_ne_cons (hw : Word w) (hc : isStop c = true) : w ++ r ≠ c :: r' := by
  obtain - | ⟨d, w⟩ := w
  · exact absurd rfl hw.ne_nil
  · intro h
    obtain ⟨rfl, -⟩ := List.cons.inj h
    rw [hw.free d (.head _)] at hc
    cases hc

/-! ### Quotes -/

theorem escapeQuoted_append_inj (h : escapeQuoted c ++ r = escapeQuoted d ++ r') : c = d ∧ r = r' := by
  unfold escapeQuoted at h
  split at h <;> rename_i hc <;> split at h <;> rename_i hd
  · simpa using h
  · exact absurd (.inl (List.cons.inj h).1.symm) hd
  · exact absurd (.inl (List.cons.inj h).1) hc
  · simpa using h

theorem escapeQuoted_append_ne : escapeQuoted c ++ r ≠ '\'' :: r' := by
  unfold escapeQuoted
  split
  · simp
  · rename_i hc
    exact fun h => hc (.inr (List.cons.inj h).1)

/-- A quote ends a text in quotes only where it is not part of the text. -/
theorem quoted_append_inj : ∀ {name name' : List Char},
    name.flatMap escapeQuoted ++ '\'' :: r = name'.flatMap escapeQuoted ++ '\'' :: r' →
      name = name' ∧ r = r'
  | [], [], h => ⟨rfl, (List.cons.inj h).2⟩
  | [], d :: name', h => by
    rw [List.flatMap_cons, List.append_assoc] at h
    exact absurd h.symm escapeQuoted_append_ne
  | c :: name, [], h => by
    rw [List.flatMap_cons, List.append_assoc] at h
    exact absurd h escapeQuoted_append_ne
  | c :: name, d :: name', h => by
    rw [List.flatMap_cons, List.flatMap_cons, List.append_assoc, List.append_assoc] at h
    obtain ⟨rfl, hrest⟩ := escapeQuoted_append_inj h
    obtain ⟨rfl, rfl⟩ := quoted_append_inj hrest
    exact ⟨rfl, rfl⟩

/-! ### Tokens -/

/-- The text is a word, a comma, a pair of square brackets or a text in quotes. -/
inductive Token : List Char → Prop
  | word {w : List Char} (hw : Word w) : Token w
  | comma : Token [',']
  | brackets : Token ['[', ']']
  | quoted (name : List Char) : Token ('\'' :: (name.flatMap escapeQuoted ++ ['\'']))

/-- A token is found again in what it is the beginning of. -/
theorem Token.append_inj (hv : Token v) (hw : Token w) (hr : Stops r) (hr' : Stops r')
    (h : v ++ r = w ++ r') : v = w ∧ r = r' := by
  cases hv with
  | word hv =>
    cases hw with
    | word hw => exact append_inj_of_stop hv.free hr hw.free hr' h
    | _ => exact absurd h (hv.append_ne_cons rfl)
  | comma =>
    cases hw with
    | word hw => exact absurd h.symm (hw.append_ne_cons rfl)
    | comma => exact ⟨rfl, by simpa using h⟩
    | _ => simp at h
  | brackets =>
    cases hw with
    | word hw => exact absurd h.symm (hw.append_ne_cons rfl)
    | brackets => exact ⟨rfl, by simpa using h⟩
    | _ => simp at h
  | quoted name =>
    cases hw with
    | word hw => exact absurd h.symm (hw.append_ne_cons rfl)
    | quoted name' =>
      rw [List.cons_append, List.cons_append, List.append_assoc, List.append_assoc] at h
      obtain ⟨rfl, rfl⟩ := quoted_append_inj (List.cons.inj h).2
      exact ⟨rfl, rfl⟩
    | _ => simp at h

/-- What a token begins with is no closing bracket, and only the pair of brackets begins with an opening
one. -/
theorem Token.head (hw : Token w) : ∃ c v, w = c :: v ∧ c ≠ ')' ∧ c ≠ ']' ∧ (c = '[' → v = [']']) := by
  cases hw with
  | word hw =>
    obtain - | ⟨c, v⟩ := w
    · exact absurd rfl hw.ne_nil
    · have hc := hw.free c (.head _)
      have hne (d : Char) (hd : isStop d = true) : c ≠ d := by
        rintro rfl
        rw [hc] at hd
        cases hd
      exact ⟨c, v, rfl, hne _ rfl, hne _ rfl, fun h => absurd h (hne _ rfl)⟩
  | comma => exact ⟨',', [], rfl, by decide, by decide, by simp⟩
  | brackets => exact ⟨'[', [']'], rfl, by decide, by decide, fun _ => rfl⟩
  | quoted name => exact ⟨'\'', _, rfl, by decide, by decide, by simp⟩

/-! ### Names -/

/-- A name that is written without quotes is a word, a comma or a pair of square brackets. -/
theorem bare_cases (h : isBare name = true) : Word name ∨ name = [','] ∨ name = ['[', ']'] := by
  obtain - | ⟨c, cs⟩ := name
  · cases h
  simp only [isBare] at h
  split at h
  · refine .inl ⟨List.cons_ne_nil _ _, fun d hd => ?_⟩
    have hd := List.all_eq_true.mp h d hd
    obtain hd | hd := Bool.or_eq_true_iff.mp hd
    · exact isStop_of_isAlphanumeric hd
    · rw [of_decide_eq_true hd]
      rfl
  · obtain h | h := Bool.or_eq_true_iff.mp h
    · simp only [List.mem_cons, List.not_mem_nil, or_false, decide_eq_true_eq] at h
      obtain h | h | h | h | h := h
      · exact .inr (.inr h)
      · exact .inl (h ▸ word_of_all (by simp) (by decide))
      · exact .inl (h ▸ word_of_all (by simp) (by decide))
      · exact .inr (.inl h)
      · exact .inl (h ▸ word_of_all (by simp) (by decide))
    · exact .inl ⟨List.cons_ne_nil _ _, fun d hd =>
        isStop_of_mem_symbolChars (of_decide_eq_true (List.all_eq_true.mp h d hd))⟩

theorem token_nameChars (name : List Char) : Token (nameChars name) := by
  unfold nameChars
  split
  · obtain h | rfl | rfl := bare_cases ‹_›
    · exact .word h
    · exact .comma
    · exact .brackets
  · exact .quoted name

/-- A name without quotes does not begin with a quote. -/
theorem ne_quoted_of_isBare (h : isBare name = true) : name ≠ '\'' :: w := by
  obtain hw | rfl | rfl := bare_cases h
  · rw [← List.append_nil name]
    exact hw.append_ne_cons rfl
  · simp
  · simp

/-- Different names are written in different ways. -/
theorem nameChars_injective : Function.Injective nameChars := by
  intro name name' h
  unfold nameChars at h
  split at h <;> split at h
  · exact h
  · exact absurd h (ne_quoted_of_isBare ‹_›)
  · exact absurd h.symm (ne_quoted_of_isBare ‹_›)
  · exact (quoted_append_inj (List.cons.inj h).2).1

/-- A word that would be put in quotes is not what is written for a name. -/
theorem Word.ne_nameChars (hw : Word w) (hbare : isBare w = false) : w ≠ nameChars name := by
  unfold nameChars
  split
  · rename_i hname
    rintro rfl
    rw [hbare] at hname
    cases hname
  · rw [← List.append_nil w]
    exact hw.append_ne_cons rfl

/-! ### Figures -/

/-- A word with a digit in it that does not begin with a lowercase letter. -/
structure Figure (w : List Char) : Prop extends Word w where
  /-- There is a digit. -/
  digit : ∃ c ∈ w, c.isDigit = true
  /-- It does not begin with a lowercase letter. -/
  head : ∀ c ∈ w.head?, isLowercase c = false

theorem isLowercase_of_isDigit (h : c.isDigit = true) : isLowercase c = false := by
  have hc : c.toNat ≤ 57 := (Char.isDigit_iff_toNat.mp h).2
  have hlower : c.isLower = false := by
    refine Bool.and_eq_false_iff.mpr (.inl (decide_eq_false fun hle => ?_))
    have hle : 97 ≤ c.toNat := UInt32.le_iff_toNat_le.mp hle
    omega
  rw [isLowercase, if_pos (by omega), hlower]

/-- A name without quotes has no digit in it, unless it begins with a lowercase letter. -/
theorem isDigit_of_isBare (h : isBare name = true) (hhead : ∀ c ∈ name.head?, isLowercase c = false) :
    ∀ d ∈ name, d.isDigit = false := by
  have hnone : [['[', ']'], ['!'], [';'], [','], ['{', '}']].all (·.all (!Char.isDigit ·)) = true := by
    decide
  have hsymbols : symbolChars.all (!Char.isDigit ·) = true := by decide
  obtain - | ⟨c, cs⟩ := name
  · cases h
  simp only [isBare] at h
  rw [if_neg (by rw [hhead c rfl]; exact Bool.false_ne_true)] at h
  obtain h | h := Bool.or_eq_true_iff.mp h
  · exact fun d hd => eq_false_of_all (List.all_eq_true.mp hnone _ (of_decide_eq_true h)) hd
  · exact fun d hd => eq_false_of_all hsymbols (of_decide_eq_true (List.all_eq_true.mp h d hd))

/-- A figure would be put in quotes if it were a name. -/
theorem Figure.ne_nameChars (h : Figure w) : w ≠ nameChars name := by
  refine h.toWord.ne_nameChars ?_
  by_contra hbare
  obtain ⟨d, hd, hdigit⟩ := h.digit
  rw [isDigit_of_isBare (Bool.of_not_eq_false hbare) h.head d hd] at hdigit
  cases hdigit

/-! ### Numbers and variables -/

theorem isDigit_of_mem_toDigits {n : Nat} (h : c ∈ Nat.toDigits 10 n) : c.isDigit = true :=
  Nat.isDigit_of_mem_toDigits (by decide) (by decide) h

/-- The digits of a number tell the number. -/
theorem toDigits_injective : Function.Injective (Nat.toDigits 10) :=
  Function.LeftInverse.injective (g := fun cs => Nat.ofDigitChars 10 cs 0) fun _ =>
    Nat.ofDigitChars_ten_toDigits

theorem figure_digits (n : Nat) : Figure (Nat.toDigits 10 n) := by
  obtain ⟨c, hc⟩ := List.exists_mem_of_ne_nil _ (Nat.toDigits_ne_nil (n := n) (b := 10))
  exact ⟨⟨Nat.toDigits_ne_nil, fun d hd => isStop_of_isDigit (isDigit_of_mem_toDigits hd)⟩,
    ⟨c, hc, isDigit_of_mem_toDigits hc⟩,
    fun d hd => isLowercase_of_isDigit (isDigit_of_mem_toDigits (List.mem_of_mem_head? hd))⟩

theorem Figure.cons (hw : Figure w) (hstop : isStop c = false) (hlower : isLowercase c = false) :
    Figure (c :: w) := by
  obtain ⟨d, hd, hdigit⟩ := hw.digit
  exact ⟨⟨List.cons_ne_nil _ _, List.forall_mem_cons.mpr ⟨hstop, hw.free⟩⟩, ⟨d, .tail _ hd, hdigit⟩,
    by rintro _ ⟨⟩; exact hlower⟩

theorem Figure.append (hv : Figure v) (hw : ∀ c ∈ w, isStop c = false) : Figure (v ++ w) := by
  obtain ⟨d, hd, hdigit⟩ := hv.digit
  refine ⟨⟨List.append_ne_nil_of_left_ne_nil hv.ne_nil _, List.forall_mem_append.mpr ⟨hv.free, hw⟩⟩,
    ⟨d, List.mem_append_left _ hd, hdigit⟩, fun c hc => hv.head c ?_⟩
  rwa [List.head?_append_of_ne_nil _ hv.ne_nil] at hc

theorem toList_toString_nat (n : Nat) : (toString n).toList = Nat.toDigits 10 n := by
  rw [Nat.toString_eq_ofList_toDigits, String.toList_ofList]

theorem toList_toString_int (n : Int) :
    (toString n).toList = (if n < 0 then ['-'] else []) ++ Nat.toDigits 10 n.natAbs := by
  cases n with
  | ofNat n => exact toList_toString_nat n
  | negSucc n =>
    have htext : toString (Int.negSucc n) = "-" ++ toString (n + 1) := rfl
    rw [htext, String.toList_append, toList_toString_nat, if_pos (Int.negSucc_lt_zero n)]
    rfl

theorem isDigit_of_mem_toString_int {n : Int} (h : c ∈ (toString n).toList) :
    c = '-' ∨ c.isDigit = true := by
  rw [toList_toString_int, List.mem_append] at h
  obtain h | h := h
  · split at h
    · exact .inl (List.mem_singleton.mp h)
    · cases h
  · exact .inr (isDigit_of_mem_toDigits h)

theorem figure_int (n : Int) : Figure (toString n).toList := by
  rw [toList_toString_int]
  split
  · exact (figure_digits n.natAbs).cons rfl rfl
  · exact figure_digits n.natAbs

/-- The text of an exact number. -/
def numberChars (q : Rat) : List Char :=
  (toString q.num).toList ++ if q.den = 1 then [] else 'r' :: Nat.toDigits 10 q.den

theorem mem_numberChars {q : Rat} (h : c ∈ numberChars q) :
    c = '-' ∨ c = 'r' ∨ c.isDigit = true := by
  obtain h | h := List.mem_append.mp h
  · exact (isDigit_of_mem_toString_int h).imp_right .inr
  · split at h
    · cases h
    · obtain rfl | h := List.mem_cons.mp h
      · exact .inr (.inl rfl)
      · exact .inr (.inr (isDigit_of_mem_toDigits h))

/-- The text of a number does not begin with anything but a sign or a digit. -/
theorem numberChars_ne_cons {q : Rat} (hsign : c ≠ '-') (hletter : c ≠ 'r') (hdigit : c.isDigit = false) :
    numberChars q ≠ c :: w := by
  intro h
  obtain hc | hc | hc := mem_numberChars (h ▸ List.mem_cons_self)
  · exact hsign hc
  · exact hletter hc
  · rw [hdigit] at hc
    cases hc

theorem figure_numberChars (q : Rat) : Figure (numberChars q) := by
  refine (figure_int q.num).append fun c hc => ?_
  obtain rfl | rfl | hc := mem_numberChars (List.mem_append_right _ hc)
  · rfl
  · rfl
  · exact isStop_of_isDigit hc

/-- Different numbers have different texts: the numerator ends at the letter, if there is one. -/
theorem numberChars_injective : Function.Injective numberChars := by
  intro q q' h
  have hnum (n : Int) : ∀ c ∈ (toString n).toList, (c == 'r') = false := by
    intro c hc
    obtain rfl | hc := isDigit_of_mem_toString_int hc
    · rfl
    · refine beq_eq_false_iff_ne.mpr ?_
      rintro rfl
      cases hc
  have hden (q : Rat) : ∀ c ∈ (if q.den = 1 then [] else 'r' :: Nat.toDigits 10 q.den).head?,
      (c == 'r') = true := by
    split
    · rintro c ⟨⟩
    · rintro c ⟨⟩
      rfl
  obtain ⟨hnums, hdens⟩ := append_inj_of_stop (hnum q.num) (hden q) (hnum q'.num) (hden q') h
  refine Rat.ext (Int.repr_injective (String.toList_injective hnums)) ?_
  split at hdens <;> split at hdens
  · rename_i h h'
    rw [h, h']
  · cases hdens
  · cases hdens
  · exact toDigits_injective (List.cons.inj hdens).2

end Text

open Text

theorem Var.toList_text (v : Var) : v.text.toList = '_' :: 'G' :: Nat.toDigits 10 v.id := by
  rw [text, String.toList_append, toList_toString_nat]
  rfl

theorem Var.figure_text (v : Var) : Figure v.text.toList := by
  rw [v.toList_text]
  exact ((figure_digits v.id).cons rfl rfl).cons rfl rfl

theorem Var.text_injective : Function.Injective Var.text := by
  intro ⟨n⟩ ⟨m⟩ h
  have hdigits := congrArg String.toList h
  rw [toList_text, toList_text] at hdigits
  have hdigits : Nat.toDigits 10 n = Nat.toDigits 10 m := by simpa using hdigits
  rw [toDigits_injective hdigits]

namespace Constant

variable {symbols : Symbols} {c d : Constant} {q : Rat} {a b : Atom}

theorem toList_text_atom (symbols : Symbols) (a : Atom) :
    ((atom a).text symbols).toList = nameChars (symbols.name a).toList := by
  rw [text, quoteName, String.toList_ofList]

theorem toList_text_ofInt (symbols : Symbols) (n : Int) :
    ((ofInt n).text symbols).toList = (toString n).toList := by
  by_cases h : InRange n
  · rw [ofInt_of_inRange h, text, toInt_ofInt_of_inRange h]
  · rw [ofInt_of_not_inRange h, text]

theorem toList_text_ofRat (symbols : Symbols) (q : Rat) :
    ((ofRat q).text symbols).toList = numberChars q := by
  unfold ofRat numberChars
  split
  · rw [toList_text_ofInt, List.append_nil]
  · rw [text, String.toList_append, String.toList_append, toList_toString_nat, List.append_assoc]
    rfl

/-- The constant is neither a float nor a value of the host. -/
def isLegible : Constant → Bool
  | .float _ | .host _ => false
  | _ => true

/-- A constant is an atom, an exact number, a float or a value of the host. -/
theorem Proper.cases (hc : c.Proper symbols) :
    (∃ a, c = .atom a) ∨ (∃ q, c = .ofRat q) ∨ (∃ x, c = .float x) ∨ ∃ i, c = .host i := by
  cases c with
  | atom a => exact .inl ⟨a, rfl⟩
  | float x => exact .inr (.inr (.inl ⟨x, rfl⟩))
  | host i => exact .inr (.inr (.inr ⟨i, rfl⟩))
  | _ => exact .inr (.inl ⟨_, hc.normal _ rfl⟩)

theorem legible_cases (hlegible : c.isLegible = true) (hc : c.Proper symbols) :
    (∃ a, c = .atom a) ∨ ∃ q, c = .ofRat q := by
  obtain hatom | hexact | ⟨x, rfl⟩ | ⟨i, rfl⟩ := hc.cases
  · exact .inl hatom
  · exact .inr hexact
  · cases hlegible
  · cases hlegible

theorem token_text (hlegible : c.isLegible = true) (hc : c.Proper symbols) :
    Token (c.text symbols).toList := by
  obtain ⟨a, rfl⟩ | ⟨q, rfl⟩ := legible_cases hlegible hc
  · rw [toList_text_atom]
    exact token_nameChars _
  · rw [toList_text_ofRat]
    exact .word (figure_numberChars q).toWord

/-- The text tells names and exact numbers apart. -/
theorem eq_of_text (hsymbols : symbols.Distinct) (hc : c.Proper symbols) (hd : d.Proper symbols)
    (hc' : c.isLegible = true) (hd' : d.isLegible = true)
    (h : (c.text symbols).toList = (d.text symbols).toList) : c = d := by
  obtain ⟨a, rfl⟩ | ⟨q, rfl⟩ := legible_cases hc' hc
  · rw [toList_text_atom] at h
    obtain ⟨b, rfl⟩ | ⟨q, rfl⟩ := legible_cases hd' hd
    · rw [toList_text_atom] at h
      have hname := String.toList_injective (nameChars_injective h)
      rw [hsymbols.atom_eq (hc.known a rfl) (hd.known b rfl) hname]
    · rw [toList_text_ofRat] at h
      exact absurd h.symm (figure_numberChars q).ne_nameChars
  · rw [toList_text_ofRat] at h
    obtain ⟨b, rfl⟩ | ⟨q', rfl⟩ := legible_cases hd' hd
    · rw [toList_text_atom] at h
      exact absurd h (figure_numberChars q).ne_nameChars
    · rw [toList_text_ofRat] at h
      rw [numberChars_injective h]

/-- No atom and no exact number has the text of a variable. -/
theorem text_ne_var (hlegible : c.isLegible = true) (hc : c.Proper symbols) (v : Var) :
    v.text.toList ≠ (c.text symbols).toList := by
  obtain ⟨a, rfl⟩ | ⟨q, rfl⟩ := legible_cases hlegible hc
  · rw [toList_text_atom]
    exact v.figure_text.ne_nameChars
  · rw [toList_text_ofRat, v.toList_text]
    exact (numberChars_ne_cons (by decide) (by decide) rfl).symm

end Constant

end Resolvent
