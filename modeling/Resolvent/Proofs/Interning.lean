import Resolvent.Proofs.Fitting
import Resolvent.Proofs.Keying

/-!
# Interning

Whatever a symbol table is asked, name by name, its two sides stay inverse to each other: a name is filed
under its position and the position holds the name, and the same for pairs of an atom and an arity
(`Symbols.Inverse`). `Symbols.Serves s l t` says that the table `s` has answered the calls `l` and has become
`t` by this. What it answered once it answers forever, without entering anything (`Call.Stands`), and its
names and pairs are those of the calls in order of first use: this fixes every position that it hands out.
-/

namespace Resolvent

namespace Symbols

variable {s t u : Symbols} {a : Atom} {f : Tag} {n : String} {k : Nat}

/-- What a symbol table is asked. -/
inductive Call where
  /-- The atom of a name. -/
  | atom (name : String)
  /-- The atom of a name, if it is known. -/
  | lookup (name : String)
  /-- The tag of an atom and an arity. -/
  | tag (a : Atom) (arity : Nat)
  /-- The tag of a name and an arity. -/
  | tagNamed (name : String) (arity : Nat)
deriving DecidableEq

/-- What a symbol table answers. -/
inductive Reply where
  /-- The atom of a name. -/
  | atom (a : Atom)
  /-- The atom of a name, if it is known. -/
  | found (a : Option Atom)
  /-- A tag. -/
  | tag (f : Tag)
deriving DecidableEq

namespace Call

/-- The answer to a call, and the table afterwards. -/
def serve : Call → Symbols → Reply × Symbols
  | atom n, s => let (a, s) := s.intern n; (.atom a, s)
  | lookup n, s => (.found (s.lookup? n), s)
  | tag a k, s => let (f, s) := s.tag a k; (.tag f, s)
  | tagNamed n k, s => let (f, s) := s.tagNamed n k; (.tag f, s)

/-- The atom is one of the table's own, and the arity a word of 32 bits. -/
def Admissible (s : Symbols) : Call → Prop
  | atom _ | lookup _ => True
  | tag a k => a.index < s.atomCount ∧ k < 2 ^ 32
  | tagNamed _ k => k < 2 ^ 32

instance (s : Symbols) : ∀ c : Call, Decidable (c.Admissible s)
  | atom _ | lookup _ => inferInstanceAs (Decidable True)
  | tag a k => inferInstanceAs (Decidable (a.index < s.atomCount ∧ k < 2 ^ 32))
  | tagNamed _ k => inferInstanceAs (Decidable (k < 2 ^ 32))

/-- The name that is entered. -/
def name? : Call → Option String
  | atom n | tagNamed n _ => some n
  | lookup _ | tag _ _ => none

/-- The pair that is entered, by the atoms of the table `s`. -/
def pair? (s : Symbols) : Call → Option (Atom × UInt32)
  | tag a k => some (a, .ofNat k)
  | tagNamed n k => (s.lookup? n).map fun a => (a, .ofNat k)
  | atom _ | lookup _ => none

/-- The answer holds in the table: it resolves back to what was asked, and the call gets the same answer
again and enters nothing. An answer that a name is not known makes no promise. -/
def Stands (s : Symbols) : Call → Reply → Prop
  | atom n, .atom a => a.index < s.atomCount ∧ s.name a = n ∧ s.intern n = (a, s)
  | lookup n, .found (some a) => a.index < s.atomCount ∧ s.name a = n ∧ s.lookup? n = some a
  | lookup _, .found none => True
  | tag a k, .tag f => f.index < s.tagCount ∧ s.parts f = (a, k) ∧ s.tag a k = (f, s)
  | tagNamed n k, .tag f =>
    f.index < s.tagCount ∧ s.tagName f = n ∧ s.arity f = k ∧ s.tagNamed n k = (f, s)
  | _, _ => False

end Call

/-- The first table answers the calls one after the other, as listed, and becomes the second. -/
inductive Serves (s : Symbols) : List (Call × Reply) → Symbols → Prop
  | start : Serves s [] s
  | call {t : Symbols} {l : List (Call × Reply)} (h : Serves s l t) {c : Call} (hc : c.Admissible t) :
    Serves s (l ++ [(c, (c.serve t).1)]) (c.serve t).2

/-! ### The two sides of a table -/

/-- Names and positions determine each other, and so do pairs and positions. -/
structure Inverse (s : Symbols) : Prop where
  /-- An atom is filed under a name if and only if its position holds the name. -/
  names : ∀ (n : String) (a : Atom), s.atoms[n]? = some a ↔ s.names[a.index]? = some n
  /-- A tag is filed under a pair if and only if its position holds the pair. -/
  pairs : ∀ (p : Atom × UInt32) (f : Tag), s.tags[p]? = some f ↔ s.pairs[f.index]? = some p
  /-- Tags have known names. -/
  known : ∀ (i : Nat) (p : Atom × UInt32), s.pairs[i]? = some p → p.1.index < s.atomCount

theorem intern_of_known (h : s.atoms[n]? = some a) : s.intern n = (a, s) := by
  simp only [intern, h]

theorem intern_of_new (h : s.atoms[n]? = none) :
    s.intern n = (⟨s.atomCount⟩, { s with names := s.names.push n, atoms := s.atoms.insert n ⟨s.atomCount⟩ }) := by
  simp only [intern, h, atomCount]

theorem tag_of_known (h : s.tags[(a, UInt32.ofNat k)]? = some f) : s.tag a k = (f, s) := by
  simp only [tag, h]

theorem tag_of_new (h : s.tags[(a, UInt32.ofNat k)]? = none) :
    s.tag a k = (⟨s.tagCount⟩, { s with
      pairs := s.pairs.push (a, .ofNat k), tags := s.tags.insert (a, .ofNat k) ⟨s.tagCount⟩ }) := by
  simp only [tag, h, tagCount]

/-- A name is filed under the position that holds it. -/
theorem Entered.named (h : s.Entered) :
    ∀ (n : String) (a : Atom), s.atoms[n]? = some a → s.names[a.index]? = some n := by
  induction h with
  | empty => exact fun n a ha => by simp [Symbols.empty] at ha
  | @intern s hs name ih =>
    cases hname : s.atoms[name]? with
    | some b => rwa [intern_of_known hname]
    | none =>
      rw [intern_of_new hname]
      intro n a ha
      rw [Std.TreeMap.getElem?_insert] at ha
      rw [Array.getElem?_push]
      split at ha
      · rename_i heq
        obtain rfl := Std.LawfulEqCmp.eq_of_compare heq
        obtain rfl := Option.some.inj ha
        exact if_pos rfl
      · exact (if_neg (hs.known n a ha).ne).trans (ih n a ha)
  | @tag s hs a ha arity ih =>
    cases hpair : s.tags[(a, UInt32.ofNat arity)]? with
    | some f => rwa [tag_of_known hpair]
    | none => rwa [tag_of_new hpair]

theorem Entered.filed (h : s.Entered) : s.Filed := by
  induction h with
  | empty => exact filed_empty
  | intern _ name ih => exact (Extends.intern name _).filed ih
  | tag _ _ arity ih => exact ih.tag _ arity

theorem Entered.inverse (h : s.Entered) : s.Inverse where
  names n a := ⟨h.named n a, h.distinct.names a.index n⟩
  pairs p f := ⟨h.filed p f, h.distinct.pairs f.index p⟩
  known := h.distinct.known

theorem Serves.entered {l : List (Call × Reply)} (h : s.Serves l t) (hs : s.Entered) : t.Entered := by
  induction h with
  | start => exact hs
  | @call t l h c hc ih =>
    cases c with
    | atom n => exact ih.intern n
    | lookup n => exact ih
    | tag a k => exact ih.tag hc.1 k
    | tagNamed n k => exact ih.tagNamed n k

namespace Inverse

theorem intern_eq (hs : s.Inverse) (h : s.names[a.index]? = some n) : s.intern n = (a, s) :=
  intern_of_known ((hs.names n a).mpr h)

theorem tag_eq (hs : s.Inverse) (h : s.pairs[f.index]? = some (a, .ofNat k)) : s.tag a k = (f, s) :=
  tag_of_known ((hs.pairs (a, .ofNat k) f).mpr h)

/-- A name is found exactly if it is the name of a known atom, and then this atom is found. -/
theorem lookup_iff (hs : s.Inverse) : s.lookup? n = some a ↔ a.index < s.atomCount ∧ s.name a = n := by
  rw [lookup?, hs.names, name, atomCount]
  constructor
  · intro h
    exact ⟨(Array.getElem?_eq_some_iff.mp h).1, by rw [h, Option.getD_some]⟩
  · rintro ⟨ha, hn⟩
    rwa [Array.getElem?_eq_getElem ha, Option.getD_some, ← Option.some_inj, ← Array.getElem?_eq_getElem ha] at hn

end Inverse

/-! ### What never changes -/

theorem getElem?_of_prefix {α : Type} {xs ys : Array α} (h : xs.toList <+: ys.toList) {i : Nat} {x : α}
    (hi : xs[i]? = some x) : ys[i]? = some x := by
  obtain ⟨hlt, rfl⟩ := Array.getElem?_eq_some_iff.mp hi
  rw [← Array.getElem?_toList]
  exact List.prefix_iff_getElem?.mp h i hlt

/-- New names and pairs are put after the old ones. -/
structure Grows (s t : Symbols) : Prop where
  /-- The names so far are the first ones. -/
  names : s.names.toList <+: t.names.toList
  /-- The pairs so far are the first ones. -/
  pairs : s.pairs.toList <+: t.pairs.toList

namespace Grows

theorem refl (s : Symbols) : s.Grows s :=
  ⟨List.prefix_refl _, List.prefix_refl _⟩

theorem trans (h : s.Grows t) (h' : t.Grows u) : s.Grows u :=
  ⟨h.names.trans h'.names, h.pairs.trans h'.pairs⟩

theorem names_eq (h : s.Grows t) {i : Nat} (hi : s.names[i]? = some n) : t.names[i]? = some n :=
  getElem?_of_prefix h.names hi

theorem pairs_eq (h : s.Grows t) {i : Nat} {p : Atom × UInt32} (hi : s.pairs[i]? = some p) :
    t.pairs[i]? = some p :=
  getElem?_of_prefix h.pairs hi

theorem intern (n : String) (s : Symbols) : s.Grows (s.intern n).2 := by
  cases hn : s.atoms[n]? with
  | some a =>
    rw [intern_of_known hn]
    exact refl s
  | none =>
    rw [intern_of_new hn]
    exact ⟨by simp, List.prefix_refl _⟩

theorem tag (a : Atom) (k : Nat) (s : Symbols) : s.Grows (s.tag a k).2 := by
  cases hp : s.tags[(a, UInt32.ofNat k)]? with
  | some f =>
    rw [tag_of_known hp]
    exact refl s
  | none =>
    rw [tag_of_new hp]
    exact ⟨List.prefix_refl _, by simp⟩

theorem serve (c : Call) (s : Symbols) : s.Grows (c.serve s).2 := by
  cases c with
  | atom n => exact intern n s
  | lookup n => exact refl s
  | tag a k => exact tag a k s
  | tagNamed n k => exact (intern n s).trans (tag _ k _)

end Grows

theorem Serves.grows {l : List (Call × Reply)} (h : s.Serves l t) : s.Grows t := by
  induction h with
  | start => exact .refl s
  | call h hc ih => exact ih.trans (.serve _ _)

/-- What the answer to a call says, by the positions of the table. -/
def Call.Denotes (s : Symbols) : Call → Reply → Prop
  | atom n, .atom a | lookup n, .found (some a) => s.names[a.index]? = some n
  | lookup _, .found none => True
  | tag a k, .tag f => k < 2 ^ 32 ∧ s.pairs[f.index]? = some (a, .ofNat k)
  | tagNamed n k, .tag f =>
    k < 2 ^ 32 ∧ ∃ a : Atom, s.names[a.index]? = some n ∧ s.pairs[f.index]? = some (a, .ofNat k)
  | _, _ => False

namespace Call.Denotes

variable {c : Call} {r : Reply}

theorem mono (h : c.Denotes s r) (hg : s.Grows t) : c.Denotes t r := by
  cases c with
  | atom n =>
    cases r with
    | atom a => exact hg.names_eq h
    | _ => cases h
  | lookup n =>
    cases r with
    | found a =>
      cases a with
      | none => trivial
      | some a => exact hg.names_eq h
    | _ => cases h
  | tag a k =>
    cases r with
    | tag f => exact ⟨h.1, hg.pairs_eq h.2⟩
    | _ => cases h
  | tagNamed n k =>
    cases r with
    | tag f =>
      obtain ⟨hk, a, ha, hf⟩ := h
      exact ⟨hk, a, hg.names_eq ha, hg.pairs_eq hf⟩
    | _ => cases h

theorem parts_eq (hk : k < 2 ^ 32) (hf : s.pairs[f.index]? = some (a, .ofNat k)) : s.parts f = (a, k) := by
  simp only [parts, hf, Option.getD_some, UInt32.toNat_ofNat_of_lt' hk]

theorem stands (h : c.Denotes s r) (hs : s.Inverse) : c.Stands s r := by
  have known {n : String} {a : Atom} (ha : s.names[a.index]? = some n) : a.index < s.atomCount ∧ s.name a = n :=
    hs.lookup_iff.mp ((hs.names n a).mpr ha)
  have filed {p : Atom × UInt32} {f : Tag} (hf : s.pairs[f.index]? = some p) : f.index < s.tagCount :=
    (Array.getElem?_eq_some_iff.mp hf).1
  cases c with
  | atom n =>
    cases r with
    | atom a => exact ⟨(known h).1, (known h).2, hs.intern_eq h⟩
    | _ => cases h
  | lookup n =>
    cases r with
    | found a =>
      cases a with
      | none => trivial
      | some a => exact ⟨(known h).1, (known h).2, (hs.names n a).mpr h⟩
    | _ => cases h
  | tag a k =>
    cases r with
    | tag f => exact ⟨filed h.2, parts_eq h.1 h.2, hs.tag_eq h.2⟩
    | _ => cases h
  | tagNamed n k =>
    cases r with
    | tag f =>
      obtain ⟨hk, a, ha, hf⟩ := h
      have hparts := parts_eq hk hf
      refine ⟨filed hf, ?_, congrArg Prod.snd hparts, ?_⟩
      · rw [tagName, hparts]
        exact (known ha).2
      · rw [Symbols.tagNamed, hs.intern_eq ha]
        exact hs.tag_eq hf
    | _ => cases h

/-- The pair that a call has entered stays the same pair. -/
theorem pair_eq (h : c.Denotes s r) (hs : s.Inverse) (ht : t.Inverse) (hg : s.Grows t) :
    c.pair? t = c.pair? s := by
  cases c with
  | tagNamed n k =>
    cases r with
    | tag f =>
      obtain ⟨-, a, ha, -⟩ := h
      simp only [Call.pair?, lookup?, (hs.names n a).mpr ha, (ht.names n a).mpr (hg.names_eq ha)]
    | _ => cases h
  | _ => rfl

end Call.Denotes

theorem Entered.names_index_intern (hs : s.Entered) (n : String) :
    (s.intern n).2.names[(s.intern n).1.index]? = some n := by
  cases hn : s.atoms[n]? with
  | some a =>
    rw [intern_of_known hn]
    exact hs.named n a hn
  | none =>
    rw [intern_of_new hn]
    exact Array.getElem?_push_size

/-- What is answered is right when it is answered. -/
theorem Entered.denotes (hs : s.Entered) {c : Call} (hc : c.Admissible s) :
    c.Denotes (c.serve s).2 (c.serve s).1 := by
  cases c with
  | atom n => exact hs.names_index_intern n
  | lookup n =>
    show Call.Denotes s (.lookup n) (.found (s.lookup? n))
    cases hn : s.lookup? n with
    | none => trivial
    | some a => exact hs.named n a hn
  | tag a k => exact ⟨hc.2, hs.filed.pairs_tag a k⟩
  | tagNamed n k =>
    exact ⟨hc, (s.intern n).1, (Grows.tag _ k _).names_eq (hs.names_index_intern n), (hs.intern n).filed.pairs_tag _ k⟩

/-- Whatever was answered once is right ever after. -/
theorem Serves.denotes {l : List (Call × Reply)} (h : s.Serves l t) (hs : s.Entered) :
    ∀ c r, (c, r) ∈ l → c.Denotes t r := by
  induction h with
  | start => exact fun c r hmem => absurd hmem List.not_mem_nil
  | call h hc ih =>
    intro c r hmem
    obtain hmem | hmem := List.mem_append.mp hmem
    · exact (ih c r hmem).mono (.serve _ _)
    · obtain ⟨rfl, rfl⟩ := Prod.mk.inj (List.mem_singleton.mp hmem)
      exact (h.entered hs).denotes hc

/-! ### The order of first use -/

/-- A list with one more element put at its end, unless the list has it. -/
def enter {α : Type} [BEq α] [LawfulBEq α] (seen : List α) : Option α → List α
  | none => seen
  | some x => if x ∈ seen then seen else seen ++ [x]

/-- To enter elements one after the other is to list them in order of first use. -/
theorem enter_eraseDups {α : Type} [BEq α] [LawfulBEq α] (l : List α) (x? : Option α) :
    enter l.eraseDups x? = (l ++ x?.toList).eraseDups := by
  cases x? with
  | none => rw [Option.toList_none, List.append_nil, enter]
  | some x =>
    rw [Option.toList_some, List.eraseDups_append, enter]
    by_cases h : x ∈ l
    · simp [List.removeAll, h]
    · simp [List.removeAll, h, List.eraseDups_cons]

namespace Inverse

theorem mem_names (hs : s.Inverse) : n ∈ s.names.toList ↔ ∃ a, s.atoms[n]? = some a := by
  rw [List.mem_iff_getElem?]
  simp only [Array.getElem?_toList, hs.names]
  exact ⟨fun ⟨i, hi⟩ => ⟨⟨i⟩, hi⟩, fun ⟨a, ha⟩ => ⟨a.index, ha⟩⟩

theorem mem_pairs (hs : s.Inverse) {p : Atom × UInt32} : p ∈ s.pairs.toList ↔ ∃ f, s.tags[p]? = some f := by
  rw [List.mem_iff_getElem?]
  simp only [Array.getElem?_toList, hs.pairs]
  exact ⟨fun ⟨i, hi⟩ => ⟨⟨i⟩, hi⟩, fun ⟨f, hf⟩ => ⟨f.index, hf⟩⟩

/-- A name is put after the others on first use, and nowhere after that. -/
theorem names_intern (hs : s.Inverse) (n : String) :
    (s.intern n).2.names.toList = enter s.names.toList (some n) := by
  rw [enter]
  cases hn : s.atoms[n]? with
  | some a => rw [intern_of_known hn, if_pos (hs.mem_names.mpr ⟨a, hn⟩)]
  | none =>
    have hnew : n ∉ s.names.toList := fun hmem => by
      obtain ⟨a, ha⟩ := hs.mem_names.mp hmem
      cases hn.symm.trans ha
    rw [intern_of_new hn, if_neg hnew, Array.toList_push]

/-- A pair is put after the others on first use, and nowhere after that. -/
theorem pairs_tag (hs : s.Inverse) (a : Atom) (k : Nat) :
    (s.tag a k).2.pairs.toList = enter s.pairs.toList (some (a, .ofNat k)) := by
  rw [enter]
  cases hp : s.tags[(a, UInt32.ofNat k)]? with
  | some f => rw [tag_of_known hp, if_pos (hs.mem_pairs.mpr ⟨f, hp⟩)]
  | none =>
    have hnew : (a, UInt32.ofNat k) ∉ s.pairs.toList := fun hmem => by
      obtain ⟨f, hf⟩ := hs.mem_pairs.mp hmem
      cases hp.symm.trans hf
    rw [tag_of_new hp, if_neg hnew, Array.toList_push]

end Inverse

theorem names_tag (a : Atom) (k : Nat) (s : Symbols) : (s.tag a k).2.names = s.names := by
  cases hp : s.tags[(a, UInt32.ofNat k)]? with
  | some f => rw [tag_of_known hp]
  | none => rw [tag_of_new hp]

theorem pairs_intern (n : String) (s : Symbols) : (s.intern n).2.pairs = s.pairs := by
  cases hn : s.atoms[n]? with
  | some a => rw [intern_of_known hn]
  | none => rw [intern_of_new hn]

namespace Entered

/-- A call enters its name. -/
theorem names_serve (hs : s.Entered) (c : Call) :
    (c.serve s).2.names.toList = enter s.names.toList c.name? := by
  cases c with
  | atom n => exact hs.inverse.names_intern n
  | lookup n => rfl
  | tag a k => exact congrArg Array.toList (names_tag a k s)
  | tagNamed n k => exact (congrArg Array.toList (names_tag _ k _)).trans (hs.inverse.names_intern n)

/-- A call enters its pair. -/
theorem pairs_serve (hs : s.Entered) {c : Call} (hc : c.Admissible s) :
    (c.serve s).2.pairs.toList = enter s.pairs.toList (c.pair? (c.serve s).2) := by
  cases c with
  | atom n => exact congrArg Array.toList (pairs_intern n s)
  | lookup n => rfl
  | tag a k => exact hs.inverse.pairs_tag a k
  | tagNamed n k =>
    have hlookup : (s.tagNamed n k).2.lookup? n = some (s.intern n).1 :=
      ((hs.tagNamed n k).inverse.names _ _).mpr ((Grows.tag _ k _).names_eq (hs.names_index_intern n))
    show (s.tagNamed n k).2.pairs.toList = enter s.pairs.toList (((s.tagNamed n k).2.lookup? n).map _)
    rw [hlookup, ← pairs_intern n s]
    exact (hs.intern n).inverse.pairs_tag (s.intern n).1 k

end Entered

namespace Serves

variable {l : List (Call × Reply)}

/-- The names of a table are those that have been asked for, in order of first use. -/
theorem names_eq (h : s.Serves l t) (hs : s.Entered) (hfirst : s.names.toList.eraseDups = s.names.toList) :
    t.names.toList = (s.names.toList ++ l.filterMap fun e => e.1.name?).eraseDups := by
  induction h with
  | start => rw [List.filterMap_nil, List.append_nil, hfirst]
  | @call t l h c hc ih =>
    rw [(h.entered hs).names_serve c, ih, enter_eraseDups, List.filterMap_append, List.append_assoc]
    cases hname : c.name? <;> simp [hname]

/-- The pairs of a table are those that have been asked for, in order of first use. -/
theorem pairs_eq (h : s.Serves l t) (hs : s.Entered) (hfirst : s.pairs.toList.eraseDups = s.pairs.toList) :
    t.pairs.toList = (s.pairs.toList ++ l.filterMap fun e => e.1.pair? t).eraseDups := by
  induction h with
  | start => rw [List.filterMap_nil, List.append_nil, hfirst]
  | @call t l h c hc ih =>
    have ht := h.entered hs
    have hu := (h.call hc).entered hs
    have hsame : (l.filterMap fun e => e.1.pair? (c.serve t).2) = l.filterMap fun e => e.1.pair? t :=
      List.filterMap_congr fun e he => (h.denotes hs e.1 e.2 he).pair_eq ht.inverse hu.inverse (.serve c t)
    rw [ht.pairs_serve hc, ih, enter_eraseDups, List.filterMap_append, hsame, List.append_assoc]
    cases hpair : c.pair? (c.serve t).2 <;> simp [hpair]

/-- However a table is used, it stays a bijection between names and atoms, and between tags and names with
arities. What it has answered holds in it: an atom resolves to its name and a tag to its atom and arity, and
the same call would get the same answer and enter nothing. Positions are numbers in the order of first use, a
name is found exactly if it is known, and nothing that is asked later changes a position. -/
theorem stable_bijection (h : initial.Serves l s) :
    s.Inverse ∧
    (∀ a b : Atom, a.index < s.atomCount → b.index < s.atomCount → (a = b ↔ s.name a = s.name b)) ∧
    (∀ f g : Tag, f.index < s.tagCount → g.index < s.tagCount →
      (f = g ↔ s.tagName f = s.tagName g ∧ s.arity f = s.arity g)) ∧
    (∀ c r, (c, r) ∈ l → c.Stands s r) ∧
    s.names.toList = (initial.names.toList ++ l.filterMap fun e => e.1.name?).eraseDups ∧
    s.pairs.toList = (initial.pairs.toList ++ l.filterMap fun e => e.1.pair? s).eraseDups ∧
    (∀ n a, s.lookup? n = some a ↔ a.index < s.atomCount ∧ s.name a = n) ∧
    ∀ l' t, s.Serves l' t → s.Grows t := by
  have hentered := h.entered entered_initial
  have hinverse := hentered.inverse
  refine ⟨hinverse, fun a b ha hb => ⟨congrArg s.name, hentered.distinct.atom_eq ha hb⟩, fun f g hf hg => ?_,
    fun c r hmem => (h.denotes entered_initial c r hmem).stands hinverse,
    h.names_eq entered_initial (by decide +kernel), h.pairs_eq entered_initial (by decide +kernel),
    fun n a => hinverse.lookup_iff, fun l' t ht => ht.grows⟩
  constructor
  · rintro rfl
    exact ⟨rfl, rfl⟩
  · rintro ⟨hname, harity⟩
    exact hentered.distinct.tag_eq hf hg harity hname

/-- One name with two arities, a name and a pair asked for again, and a pair that every table knows. -/
theorem stable_bijection_foo : ∃ (l : List (Call × Reply)) (s : Symbols), initial.Serves l s ∧
    l = [(.lookup "foo", .found none), (.tagNamed "foo" 2, .tag ⟨22⟩), (.atom "foo", .atom ⟨25⟩),
      (.tag ⟨25⟩ 3, .tag ⟨23⟩), (.tagNamed "," 2, .tag .conj), (.tagNamed "foo" 2, .tag ⟨22⟩)] ∧
    (∀ c r, (c, r) ∈ l → c.Stands s r) ∧
    s.names.toList = (initial.names.toList ++ ["foo", "foo", ",", "foo"]).eraseDups ∧
    s.parts ⟨22⟩ = (⟨25⟩, 2) ∧ s.parts ⟨23⟩ = (⟨25⟩, 3) := by
  have h := ((((((Serves.start (s := initial)).call (c := .lookup "foo") trivial).call (c := .tagNamed "foo" 2)
    (by decide)).call (c := .atom "foo") trivial).call (c := .tag ⟨25⟩ 3) (by decide +kernel)).call
    (c := .tagNamed "," 2) (by decide)).call (c := .tagNamed "foo" 2) (by decide)
  have hl := stable_bijection h
  exact ⟨_, _, h, by decide +kernel, hl.2.2.2.1, hl.2.2.2.2.1, by decide +kernel, by decide +kernel⟩

end Serves

end Symbols

end Resolvent
