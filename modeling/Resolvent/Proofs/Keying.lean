import Resolvent.Order
import Resolvent.Proofs.Acyclic
import Resolvent.Proofs.Exactness
import Resolvent.Proofs.Growth
import Resolvent.Proofs.Rounding

/-!
# Trees as lists of keys

The nodes of a tree, each functor before its arguments, are the word of the tree in prefix notation. A
node is compared by its `Key`: the place of its kind, and what is compared within the kind. Keys are
ordered field by field, so their order is a total one (`Key.order`).

A number is compared as a float first, and by its value only where that leaves two exact numbers equal.
Rounding keeps the order of numbers, so two exact numbers are in the order of their values all the same
(`Number.standardOrder_eq`). A functor tells how many trees follow it, so the keys of a tree determine it
(`Tree.keys_append_inj`), provided that different atoms and tags have different names
(`Symbols.Entered.distinct`).
-/

namespace Resolvent

/-! ### Names -/

namespace Symbols

variable {s : Symbols} {a b : Atom} {f g : Tag}

/-- A table that names and tags have been entered into one after the other, tags for known names. -/
inductive Entered : Symbols → Prop
  | empty : Entered .empty
  | intern {s : Symbols} (hs : Entered s) (name : String) : Entered (s.intern name).2
  | tag {s : Symbols} (hs : Entered s) {a : Atom} (ha : a.index < s.atomCount) (arity : Nat) :
    Entered (s.tag a arity).2

/-- Every name, and every name with an arity, has one position only. -/
structure Distinct (s : Symbols) : Prop where
  /-- A name is found at its position. -/
  names : ∀ (i : Nat) (n : String), s.names[i]? = some n → s.atoms[n]? = some ⟨i⟩
  /-- A name with an arity is found at its position. -/
  pairs : ∀ (i : Nat) (p : Atom × UInt32), s.pairs[i]? = some p → s.tags[p]? = some ⟨i⟩
  /-- Tags have known names. -/
  known : ∀ (i : Nat) (p : Atom × UInt32), s.pairs[i]? = some p → p.1.index < s.atomCount

theorem Distinct.intern (h : s.Distinct) (name : String) : (s.intern name).2.Distinct := by
  unfold Symbols.intern
  split
  · exact h
  · rename_i hnew
    refine ⟨fun i n hi => ?_, h.pairs, fun i p hp => ?_⟩
    · rw [Array.getElem?_push] at hi
      rw [Std.TreeMap.getElem?_insert]
      split at hi
      · rename_i hsize
        obtain rfl := Option.some.inj hi
        rw [if_pos Std.ReflCmp.compare_self, hsize]
      · have hn := h.names i n hi
        rw [if_neg, hn]
        intro heq
        obtain rfl := Std.LawfulEqCmp.eq_of_compare heq
        rw [hnew] at hn
        cases hn
    · exact (h.known i p hp).trans_le (by simp [atomCount])

theorem Distinct.tag (h : s.Distinct) (ha : a.index < s.atomCount) (arity : Nat) :
    (s.tag a arity).2.Distinct := by
  unfold Symbols.tag
  simp only
  split
  · exact h
  · rename_i hnew
    refine ⟨h.names, fun i p hp => ?_, fun i p hp => ?_⟩
    all_goals rw [Array.getElem?_push] at hp
    · rw [Std.TreeMap.getElem?_insert]
      split at hp
      · rename_i hsize
        obtain rfl := Option.some.inj hp
        rw [if_pos Std.ReflCmp.compare_self, hsize]
      · have hi := h.pairs i p hp
        rw [if_neg, hi]
        intro heq
        obtain rfl := Std.LawfulEqCmp.eq_of_compare heq
        rw [hnew] at hi
        cases hi
    · split at hp
      · obtain rfl := Option.some.inj hp
        exact ha
      · exact h.known i p hp

theorem Entered.distinct (h : s.Entered) : s.Distinct := by
  induction h with
  | empty => exact ⟨fun i n hi => by simp [Symbols.empty] at hi, fun i p hi => by simp [Symbols.empty] at hi,
      fun i p hi => by simp [Symbols.empty] at hi⟩
  | intern _ name ih => exact ih.intern name
  | tag _ ha arity ih => exact ih.tag ha arity

/-- The atoms that a table finds are known. -/
theorem Entered.known (h : s.Entered) :
    ∀ (n : String) (a : Atom), s.atoms[n]? = some a → a.index < s.atomCount := by
  induction h with
  | empty => exact fun n a ha => by simp [Symbols.empty] at ha
  | @intern s hs name ih =>
    unfold Symbols.intern
    split
    · exact ih
    · intro n a ha
      rw [Std.TreeMap.getElem?_insert] at ha
      show a.index < (s.names.push name).size
      rw [Array.size_push]
      split at ha
      · obtain rfl := Option.some.inj ha
        exact Nat.lt_succ_self _
      · exact (ih n a ha).trans (Nat.lt_succ_self _)
  | tag _ _ arity ih =>
    unfold Symbols.tag
    simp only
    split
    · exact ih
    · exact ih

theorem Entered.lt_intern (h : s.Entered) (name : String) :
    (s.intern name).1.index < (s.intern name).2.atomCount := by
  unfold Symbols.intern
  split
  · exact h.known _ _ ‹_›
  · show s.names.size < (s.names.push name).size
    rw [Array.size_push]
    exact Nat.lt_succ_self _

theorem Entered.tagNamed (h : s.Entered) (name : String) (arity : Nat) : (s.tagNamed name arity).2.Entered :=
  .tag (h.intern name) (h.lt_intern name) arity

theorem Entered.foldl {α : Type} {f : Symbols → α → Symbols} (hf : ∀ s a, s.Entered → (f s a).Entered)
    (l : List α) (h : s.Entered) : (l.foldl f s).Entered := by
  induction l generalizing s with
  | nil => exact h
  | cons a l ih => exact ih (hf s a h)

/-- The table that every other one starts from is made by entering names and tags. -/
theorem entered_initial : initial.Entered := by
  have hintern (l : List String) {s : Symbols} (h : s.Entered) :
      (l.foldl (fun s n => (s.intern n).2) s).Entered := Entered.foldl (fun s n h => h.intern n) l h
  refine hintern _ (Entered.foldl (fun s p h => h.tagNamed p.1 p.2) _ (hintern _ ?_))
  exact Entered.foldl (fun s n h => h.tagNamed "call" (n + 1)) _ .empty

theorem Distinct.atom_eq (h : s.Distinct) (ha : a.index < s.atomCount) (hb : b.index < s.atomCount)
    (hname : s.name a = s.name b) : a = b := by
  have hi := h.names a.index _ (Array.getElem?_eq_getElem ha)
  have hj := h.names b.index _ (Array.getElem?_eq_getElem hb)
  simp only [name, Array.getElem?_eq_getElem ha, Array.getElem?_eq_getElem hb, Option.getD_some] at hname
  rw [hname, hj] at hi
  exact (Option.some.inj hi).symm

theorem Distinct.tag_eq (h : s.Distinct) (hf : f.index < s.tagCount) (hg : g.index < s.tagCount)
    (harity : s.arity f = s.arity g) (hname : s.tagName f = s.tagName g) : f = g := by
  have hi := Array.getElem?_eq_getElem hf
  have hj := Array.getElem?_eq_getElem hg
  simp only [arity, tagName, parts, hi, hj, Option.getD_some] at harity hname
  have hpair : s.pairs[f.index] = s.pairs[g.index] :=
    Prod.ext (h.atom_eq (h.known _ _ hi) (h.known _ _ hj) hname) (UInt32.toNat_inj.mp harity)
  have htag := h.pairs _ _ hi
  rw [hpair, h.pairs _ _ hj] at htag
  exact (Option.some.inj htag).symm

end Symbols

/-! ### Keys -/

/-- What a node is compared by. -/
structure Key where
  /-- The place of its kind. -/
  rank : Nat
  /-- The age of a variable, the arity of a functor, the number of a host value. -/
  word : Nat
  /-- The name of an atom or a functor. -/
  text : String
  /-- The place of the nearest float. -/
  float : Int
  /-- Whether it is an exact number. -/
  exact : Bool
  /-- The value of an exact number. -/
  value : Rat

namespace Key

/-- Keys are compared field by field. -/
def order : Key → Key → Ordering :=
  compareLex (compareOn rank) (compareLex (compareOn word) (compareLex (compareOn text)
    (compareLex (compareOn float) (compareLex (compareOn exact) (compareOn value)))))

instance : Std.TransCmp order :=
  inferInstanceAs (Std.TransCmp (compareLex _ _))

instance : Std.LawfulEqCmp order where
  eq_of_compare {k l} h := by
    obtain ⟨⟩ := k
    obtain ⟨⟩ := l
    simpa [order, compareLex, compareOn, Ordering.then_eq_eq] using h

/-- The key of a node that is told apart from others of its kind by a number and a text. -/
def plain (rank word : Nat) (text : String) : Key :=
  ⟨rank, word, text, 0, false, 0⟩

theorem order_of_rank_ne {k l : Key} (h : k.rank ≠ l.rank) : order k l = compare k.rank l.rank := by
  have hne : compare k.rank l.rank ≠ .eq := fun heq => h (Nat.compare_eq_eq.mp heq)
  simp only [order, compareLex, compareOn]
  cases hc : compare k.rank l.rank with
  | eq => exact absurd hc hne
  | _ => rfl

theorem order_plain (rank i j : Nat) (n m : String) :
    order (plain rank i n) (plain rank j m) = (compare i j).then (compare n m) := by
  simp [order, plain, compareLex, compareOn]

end Key

/-- The place in the total order determines a float. -/
theorem Binary64.rank_injective {x y : Binary64} (h : x.rank = y.rank) : x = y := by
  obtain ⟨n⟩ := x
  obtain ⟨m⟩ := y
  have hn : n.toNat < 2 ^ 64 := n.toNat_lt
  have hm : m.toNat < 2 ^ 64 := m.toNat_lt
  simp only [rank, isNegative, magnitude, decide_eq_true_eq] at h
  have hbits : n.toNat = m.toNat := by
    split at h <;> split at h <;> omega
  rw [UInt64.toNat_inj.mp hbits]

/-- The key of a number: the nearest float, then whether it is exact, then its value. -/
def Number.key (a : Number) : Key :=
  ⟨1, 0, "", a.toBinary64.rank, !a.isFloat, a.toRat⟩

/-- The key of a constant. -/
def Constant.key (symbols : Symbols) : Constant → Key
  | .atom a => .plain 2 0 (symbols.name a)
  | .int n => (Number.int n).key
  | .big n => (Number.big n).key
  | .rat q => (Number.rat q).key
  | .float x => (Number.float x).key
  | .host i => .plain 4 i ""

/-- The key of a variable. -/
def Var.key (v : Var) : Key :=
  .plain 0 v.id ""

/-- The key of a functor. -/
def Tag.key (symbols : Symbols) (f : Tag) : Key :=
  .plain 3 (symbols.arity f) (symbols.tagName f)

namespace Number

variable {a b : Number}

theorem toBinary64_of_exact (h : a.isFloat = false) : a.toBinary64 = .ofRat a.toRat := by
  cases a with
  | float x => cases h
  | rat q => rfl
  | _ => exact Binary64.ofInt_eq_ofRat _

/-- Exact numbers are compared by their values. -/
theorem order_of_exact (ha : a.isFloat = false) (hb : b.isFloat = false) :
    a.order b = compare a.toRat b.toRat := by
  rw [order, ha, hb, Bool.or_false, if_neg Bool.false_ne_true]
  have hrat : (if a.toRat < b.toRat then Ordering.lt else if a.toRat = b.toRat then .eq else .gt) =
      compare a.toRat b.toRat := (LinearOrder.compare_eq_compareOfLessAndEq _ _).symm
  cases hm : a.toInt? with
  | none => exact hrat
  | some m =>
    cases hn : b.toInt? with
    | none => exact hrat
    | some n =>
      have hcast : compare (m : Rat) n = compare m n := by
        rw [← cmp_eq_compare, ← cmp_eq_compare, Int.cast_strictMono.cmp_map_eq]
      rw [toRat_of_toInt? hm, toRat_of_toInt? hn, hcast]

/-- The nearest floats of exact numbers are in the order of the numbers, or equal. -/
theorem compare_rank_then (ha : a.isFloat = false) (hb : b.isFloat = false) :
    (compare a.toBinary64.rank b.toBinary64.rank).then (compare a.toRat b.toRat) =
      compare a.toRat b.toRat := by
  rw [toBinary64_of_exact ha, toBinary64_of_exact hb]
  obtain hlt | heq | hgt := lt_trichotomy a.toRat b.toRat
  · have hle := Binary64.rank_ofRat_mono hlt.le
    rw [compare_lt_iff_lt.mpr hlt]
    obtain hrank | hrank := hle.lt_or_eq
    · rw [compare_lt_iff_lt.mpr hrank]; rfl
    · rw [compare_eq_iff_eq.mpr hrank]; rfl
  · rw [heq, compare_eq_iff_eq.mpr rfl]; rfl
  · have hle := Binary64.rank_ofRat_mono hgt.le
    rw [compare_gt_iff_gt.mpr hgt]
    obtain hrank | hrank := hle.lt_or_eq
    · rw [compare_gt_iff_gt.mpr hrank]; rfl
    · rw [compare_eq_iff_eq.mpr hrank.symm]; rfl

/-- Numbers of all kinds are compared by one key. -/
theorem standardOrder_eq (a b : Number) : a.standardOrder b = Key.order a.key b.key := by
  have hkey : Key.order a.key b.key = (compare a.toBinary64.rank b.toBinary64.rank).then
      ((compare (!a.isFloat) (!b.isFloat)).then (compare a.toRat b.toRat)) := by
    simp [Key.order, key, compareLex, compareOn]
  rw [hkey, standardOrder]
  cases ha : a.isFloat with
  | false =>
    cases hb : b.isFloat with
    | false =>
      rw [order_of_exact ha hb, compare_eq_iff_eq.mpr rfl, Ordering.then_eq]
      exact (compare_rank_then ha hb).symm
    | true =>
      rw [order, ha, hb]
      rfl
  | true =>
    cases hb : b.isFloat with
    | false =>
      rw [order, ha, hb]
      rfl
    | true =>
      cases a with
      | float x =>
        cases b with
        | float y => rw [order, ha, hb]; rfl
        | _ => cases hb
      | _ => cases ha

-- half way between two floats: the integer is rounded to the first of them, and comes after it
example : (Number.float ⟨0x4340000000000000⟩).standardOrder (.int 0x20000000000001) = .lt ∧
    (Number.int 0x20000000000000).standardOrder (.int 0x20000000000001) = .lt ∧
    (Number.int 0x20000000000001).standardOrder (.float ⟨0x4340000000000001⟩) = .lt := by
  decide +kernel

end Number

namespace Constant

variable {c d : Constant} {symbols : Symbols}

@[simp] theorem rank_key (symbols : Symbols) (c : Constant) : (c.key symbols).rank = c.rank := by
  cases c <;> rfl

/-- Constants are compared by their keys. -/
theorem order_eq (symbols : Symbols) (c d : Constant) :
    c.order symbols d = Key.order (c.key symbols) (d.key symbols) := by
  by_cases hrank : c.rank = d.rank
  · cases c with
    | atom a =>
      cases d with
      | atom b =>
        rw [key, key, Key.order_plain, compare_eq_iff_eq.mpr rfl]
        rfl
      | _ => cases hrank
    | host i =>
      cases d with
      | host j =>
        rw [key, key, Key.order_plain, Std.ReflOrd.compare_self, Ordering.then_eq]
        rfl
      | _ => cases hrank
    | _ =>
      cases d with
      | atom _ | host _ => cases hrank
      | _ => exact Number.standardOrder_eq _ _
  · rw [Key.order_of_rank_ne (by simpa using hrank), rank_key, rank_key]
    cases c <;> cases d <;> first | rfl | exact absurd rfl hrank

/-- The constant is as the engine makes it: an exact number in its canonical form, an atom of a known
name. -/
structure Proper (symbols : Symbols) (c : Constant) : Prop where
  /-- Atoms have known names. -/
  known : ∀ a, c = .atom a → a.index < symbols.atomCount
  /-- Exact numbers are canonical. -/
  normal : ∀ q, c.value? = some q → c = .ofRat q

/-- The key tells constants apart. -/
theorem eq_of_key (hsymbols : symbols.Distinct) (hc : c.Proper symbols) (hd : d.Proper symbols)
    (hkey : c.key symbols = d.key symbols) : c = d := by
  -- two exact numbers of one key have one value
  have hexact {q r : Rat} (hq : c.value? = some q) (hr : d.value? = some r) (hqr : q = r) : c = d := by
    rw [hc.normal q hq, hd.normal r hr, hqr]
  cases c with
  | atom a =>
    cases d with
    | atom b =>
      have hname : symbols.name a = symbols.name b := congrArg Key.text hkey
      rw [hsymbols.atom_eq (hc.known a rfl) (hd.known b rfl) hname]
    | _ => cases congrArg Key.rank hkey
  | host i =>
    cases d with
    | host j => rw [show i = j from congrArg Key.word hkey]
    | _ => cases congrArg Key.rank hkey
  | float x =>
    cases d with
    | float y =>
      have hrank : x.rank = y.rank := congrArg Key.float hkey
      rw [Binary64.rank_injective hrank]
    | atom _ | host _ => cases congrArg Key.rank hkey
    | _ => cases congrArg Key.exact hkey
  | _ =>
    cases d with
    | atom _ | host _ => cases congrArg Key.rank hkey
    | float _ => cases congrArg Key.exact hkey
    | _ => exact hexact rfl rfl (congrArg Key.value hkey)

end Constant

namespace Tag

variable {symbols : Symbols} {f g : Tag}

/-- Tags are compared by their keys. -/
theorem order_eq (symbols : Symbols) (f g : Tag) :
    f.order symbols g = Key.order (f.key symbols) (g.key symbols) := by
  rw [key, key, Key.order_plain, order]

/-- The key tells tags apart. -/
theorem eq_of_key (hsymbols : symbols.Distinct) (hf : f.index < symbols.tagCount)
    (hg : g.index < symbols.tagCount) (hkey : f.key symbols = g.key symbols) : f = g :=
  hsymbols.tag_eq hf hg (congrArg Key.word hkey) (congrArg Key.text hkey)

end Tag

/-! ### Trees -/

namespace Tree

variable {symbols : Symbols} {s t : Tree}

mutual

/-- The keys of a tree, a functor before its arguments. -/
def keys (symbols : Symbols) : Tree → List Key
  | .var v => [v.key]
  | .const c => [c.key symbols]
  | .compound f args => f.key symbols :: keysAll symbols args

/-- The keys of several trees. -/
def keysAll (symbols : Symbols) : List Tree → List Key
  | [] => []
  | t :: ts => keys symbols t ++ keysAll symbols ts

end

theorem keysAll_eq_flatMap (symbols : Symbols) (ts : List Tree) :
    keysAll symbols ts = ts.flatMap (keys symbols) := by
  induction ts with
  | nil => rfl
  | cons t ts ih => rw [keysAll, ih, List.flatMap_cons]

/-- The tree is made of proper constants and of known functors with as many arguments as they take. -/
inductive Proper (symbols : Symbols) : Tree → Prop
  | var (v : Var) : Proper symbols (.var v)
  | const {c : Constant} (hc : c.Proper symbols) : Proper symbols (.const c)
  | compound {f : Tag} {args : List Tree} (hf : f.index < symbols.tagCount)
    (harity : args.length = symbols.arity f) (hargs : ∀ t ∈ args, Proper symbols t) :
    Proper symbols (.compound f args)

/-- The keys of some trees are not the beginning of those of as many other trees, if this holds of each
of them. -/
theorem keysAll_append_inj {ss : List Tree} (hinj : ∀ s ∈ ss, ∀ {t : Tree} {ks ls : List Key},
      t.Proper symbols → keys symbols s ++ ks = keys symbols t ++ ls → s = t ∧ ks = ls) :
    ∀ {ts : List Tree} {ks ls : List Key}, (∀ t ∈ ts, t.Proper symbols) → ss.length = ts.length →
      keysAll symbols ss ++ ks = keysAll symbols ts ++ ls → ss = ts ∧ ks = ls := by
  induction ss with
  | nil =>
    rintro (_ | ⟨t, ts⟩) ks ls _ hlength h
    · exact ⟨rfl, h⟩
    · cases hlength
  | cons s ss ih =>
    rintro (_ | ⟨t, ts⟩) ks ls ht hlength h
    · cases hlength
    · rw [keysAll, keysAll, List.append_assoc, List.append_assoc] at h
      obtain ⟨rfl, hrest⟩ := hinj s (.head _) (ht t (.head _)) h
      obtain ⟨rfl, hks⟩ := ih (fun s hs => hinj s (.tail _ hs)) (fun t h => ht t (.tail _ h))
        (Nat.succ.inj hlength) hrest
      exact ⟨rfl, hks⟩

/-- The keys of a tree are not the beginning of those of another one. -/
theorem keys_append_inj (hsymbols : symbols.Distinct) (hs : s.Proper symbols) :
    ∀ {t : Tree} {ks ls : List Key}, t.Proper symbols → keys symbols s ++ ks = keys symbols t ++ ls →
      s = t ∧ ks = ls := by
  induction hs with
  | var v =>
    rintro _ ks ls (w | hd | _) h
    · obtain ⟨hkey, hrest⟩ := List.cons.inj h
      obtain ⟨v⟩ := v
      obtain ⟨w⟩ := w
      exact ⟨by rw [show v = w from congrArg Key.word hkey], hrest⟩
    · have hrank := congrArg Key.rank (List.cons.inj h).1
      rename_i d
      cases d <;> cases hrank
    · cases congrArg Key.rank (List.cons.inj h).1
  | @const c hc =>
    rintro _ ks ls (w | hd | _) h
    · have hrank := congrArg Key.rank (List.cons.inj h).1
      cases c <;> cases hrank
    · obtain ⟨hkey, hrest⟩ := List.cons.inj h
      exact ⟨by rw [Constant.eq_of_key hsymbols hc hd hkey], hrest⟩
    · have hrank := congrArg Key.rank (List.cons.inj h).1
      cases c <;> cases hrank
  | @compound f ss hf hss hargs ih =>
    rintro _ ks ls (w | hd | ⟨hg, hts, hargs'⟩) h
    · cases congrArg Key.rank (List.cons.inj h).1
    · have hrank := congrArg Key.rank (List.cons.inj h).1
      rename_i d
      cases d <;> cases hrank
    · rename_i g ts
      obtain ⟨hkey, hrest⟩ := List.cons.inj h
      obtain rfl := Tag.eq_of_key hsymbols hf hg hkey
      -- the two functors are followed by the keys of equally many arguments
      obtain ⟨rfl, hks⟩ := keysAll_append_inj ih hargs' (hss.trans hts.symm) hrest
      exact ⟨rfl, hks⟩

/-- Trees of the same keys are the same. -/
theorem keys_inj (hsymbols : symbols.Distinct) (hs : s.Proper symbols) (ht : t.Proper symbols)
    (h : keys symbols s = keys symbols t) : s = t :=
  (keys_append_inj hsymbols hs ht (congrArg (· ++ []) h)).1

/-- The order of trees is that of their keys, the first difference deciding. -/
def order (symbols : Symbols) (s t : Tree) : Ordering :=
  List.compareLex Key.order (keys symbols s) (keys symbols t)

instance : Std.TransCmp (order symbols) where
  eq_swap := (inferInstance : Std.OrientedCmp (List.compareLex Key.order)).eq_swap
  isLE_trans := (inferInstance : Std.TransCmp (List.compareLex Key.order)).isLE_trans

theorem order_eq_iff (hsymbols : symbols.Distinct) (hs : s.Proper symbols) (ht : t.Proper symbols) :
    order symbols s t = .eq ↔ s = t := by
  refine ⟨fun h => keys_inj hsymbols hs ht ?_, fun h => h ▸ Std.ReflCmp.compare_self⟩
  exact (inferInstance : Std.LawfulEqCmp (List.compareLex Key.order)).eq_of_compare h

/-- Of three trees, of which none comes before the one ahead of it, the last is compared with the first as
the first two are, or else as the last two are. -/
theorem order_trans {u : Tree} (h : order symbols s t ≠ .gt) (h' : order symbols t u ≠ .gt) :
    order symbols s u = (order symbols s t).then (order symbols t u) := by
  cases hst : order symbols s t with
  | lt => exact Std.TransCmp.lt_of_lt_of_isLE hst (Ordering.isLE_iff_ne_gt.mpr h')
  | eq => exact Std.TransCmp.congr_left hst
  | gt => exact absurd hst h

end Tree

end Resolvent
