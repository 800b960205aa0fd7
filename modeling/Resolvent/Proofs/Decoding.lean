import Resolvent.Chunk.Listing
import Resolvent.Proofs.Packing
import Mathlib.Data.Finset.Card
import Mathlib.Data.Finset.Dedup

/-!
# Packed code can be read back

Every instruction says how many bytes it takes, so packed code can be read from its beginning to its end:
`Chunk.decode`. What is read off the packed code of a program are the instructions of the program, in
order and at their offsets, with the constants, tags and places that the program names; a listing shows
them so (`Program.Represents`). A program that cannot be packed refers to a label that it never places,
needs more constants or tags than a table can have, or more bytes than an offset can count
(`Program.Exceeds`). `Program.represents_or_exceeds` says that one of the two is the case.
-/

namespace Resolvent

theorem Except.bind_eq_error {ε α β : Type} {x : Except ε α} {f : α → Except ε β} {e : ε} :
    x >>= f = .error e ↔ x = .error e ∨ ∃ a, x = .ok a ∧ f a = .error e := by
  cases x <;> simp [bind, Except.bind]

/-! ### Reading code -/

/-- Instructions one after the other, each with its offset. -/
def Instruction.locate {κ τ ℓ : Type} : Nat → List (Instruction κ τ ℓ) → List (Nat × Instruction κ τ ℓ)
  | _, [] => []
  | offset, i :: is => (offset, i) :: locate (offset + i.size) is

namespace Chunk

variable {c : Chunk} {offset next : Nat} {i : Instruction UInt16 UInt16 UInt32}

/-- How an instruction is read: the opcode says how many bytes of operand follow. -/
theorem fetch_eq_ok (h : c.fetch offset = .ok (i, next)) :
    ∃ op, c.opcode? offset = some op ∧ next = offset + (1 + op.operandSize) ∧
      (op.operandSize = 0 ∧ i = .ofOperand op 0 0 ∨
        (∃ n, op.operandSize = 2 ∧ c.read16? (offset + 1) = some n ∧ i = .ofOperand op n 0) ∨
        ∃ n, op.operandSize = 4 ∧ c.read32? (offset + 1) = some n ∧ i = .ofOperand op 0 n) := by
  unfold fetch at h
  unfold opcode?
  cases hb : c.code[offset]? with
  | none =>
    rw [hb] at h
    cases h
  | some b =>
    cases hop : Opcode.ofByte? b with
    | none =>
      simp only [hb, hop] at h
      cases h
    | some op =>
      simp only [hb, hop] at h
      refine ⟨op, hop, ?_⟩
      split at h
      · rename_i hsize
        cases h
        exact ⟨by rw [hsize], .inl ⟨hsize, rfl⟩⟩
      · rename_i hsize
        split at h
        · rename_i n hn
          cases h
          exact ⟨by rw [hsize], .inr (.inl ⟨n, hsize, hn, rfl⟩)⟩
        · cases h
      · rename_i hzero htwo
        have hsize : op.operandSize = 4 := by cases op <;> first | rfl | contradiction
        split at h
        · rename_i n hn
          cases h
          exact ⟨by rw [hsize], .inr (.inr ⟨n, hsize, hn, rfl⟩)⟩
        · cases h

/-- An instruction takes at least one byte, and lies in the code. -/
theorem lt_of_fetch (h : c.fetch offset = .ok (i, next)) : offset < next ∧ next ≤ c.code.size := by
  have hlt {k : Nat} {b : UInt8} (hb : c.code[k]? = some b) : k < c.code.size :=
    (Array.getElem?_eq_some_iff.mp hb).1
  obtain ⟨op, hop, rfl, hsize⟩ := fetch_eq_ok h
  refine ⟨by omega, ?_⟩
  obtain ⟨hsize, -⟩ | ⟨n, hsize, hread, -⟩ | ⟨n, hsize, hread, -⟩ := hsize <;> rw [hsize]
  · obtain ⟨b, hb, -⟩ := Option.bind_eq_some_iff.mp hop
    exact hlt hb
  · obtain ⟨_, -, hread⟩ := Option.bind_eq_some_iff.mp hread
    obtain ⟨_, hb, -⟩ := Option.bind_eq_some_iff.mp hread
    exact hlt hb
  · obtain ⟨_, -, hread⟩ := Option.bind_eq_some_iff.mp hread
    obtain ⟨_, -, hread⟩ := Option.bind_eq_some_iff.mp hread
    obtain ⟨_, -, hread⟩ := Option.bind_eq_some_iff.mp hread
    obtain ⟨_, hb, -⟩ := Option.bind_eq_some_iff.mp hread
    exact hlt hb

theorem lt_size_of_fetch (h : c.fetch offset = .ok (i, next)) : offset < c.code.size :=
  Nat.lt_of_lt_of_le (lt_of_fetch h).1 (lt_of_fetch h).2

/-- The instructions from an offset to the end of the code, each with its offset; a fault where there is
none. -/
def decode (c : Chunk) (offset : Nat) :
    Except Fault (List (Nat × Instruction UInt16 UInt16 UInt32)) :=
  if offset = c.code.size then .ok []
  else
    match _ : c.fetch offset with
    | .error f => .error f
    | .ok (i, next) => (decode c next).map ((offset, i) :: ·)
termination_by c.code.size - offset
decreasing_by
  have := lt_of_fetch ‹_›
  omega

/-- Instructions that have been written are read back. -/
theorem decode_of_code (is : List (Instruction UInt16 UInt16 UInt32)) :
    ∀ {before : List UInt8}, c.code.toList = before ++ is.flatMap (·.encode) →
      c.decode before.length = .ok (Instruction.locate before.length is) := by
  induction is with
  | nil =>
    intro before h
    rw [decode, if_pos]
    · rfl
    · simpa using (congrArg List.length h).symm
  | cons i is ih =>
    intro before h
    rw [List.flatMap_cons, ← List.append_assoc] at h
    have hfetch := fetch_append h
    have hrest := ih h
    rw [List.length_append, Instruction.length_encode] at hrest
    rw [decode, if_neg (Nat.ne_of_lt (lt_size_of_fetch hfetch))]
    split
    · rename_i f hf
      rw [hfetch] at hf
      cases hf
    · rename_i j next hj
      rw [hfetch] at hj
      cases hj
      rw [hrest]
      rfl

/-! ### Listings -/

/-- A constant in a listing: its index and the term. -/
def constantText (c : Chunk) (u : Universe) (n : UInt16) : String :=
  "#" ++ toString n.toNat ++ " (" ++ (c.constants[n.toNat]?.map u.render).getD "???" ++ ")"

/-- A tag in a listing: its index, its name and its arity. -/
def tagText (c : Chunk) (u : Universe) (n : UInt16) : String :=
  "#" ++ toString n.toNat ++ " (" ++ (c.tags[n.toNat]?.map u.symbols.indicator).getD "???" ++ ")"

/-- A place in a listing: its offset. -/
def placeText (n : UInt32) : String :=
  "-> " ++ hex4 n.toNat

/-- The line of a listing for an instruction at an offset. -/
def lineText (c : Chunk) (u : Universe) (x : Nat × Instruction UInt16 UInt16 UInt32) : String :=
  hex4 x.1 ++ " " ++ x.2.format (c.constantText u) (c.tagText u) placeText ++ "\n"

/-- What a listing says before the instructions: the name, the sizes and the handlers. -/
def heading (c : Chunk) : String :=
  c.handlers.foldl (fun out h =>
    out ++ "handler [" ++ hex4 h.start.toNat ++ ", " ++ hex4 h.stop.toNat ++ ") -> " ++
      hex4 h.target.toNat ++ " barrier=" ++ toString h.slot.toNat ++ "\n")
    ("=== " ++ c.name ++ " ===\n" ++ ("env: " ++ toString c.slots.toNat ++ ", arity: " ++
      toString c.arity.toNat ++ ", tags: " ++ toString c.tags.size ++ ", constants: " ++
      toString c.constants.size ++ "\n"))

/-- What is read at an offset is what a listing shows there. -/
theorem instructionText_eq (h : c.fetch offset = .ok (i, next)) (u : Universe) :
    c.instructionText u offset =
      (i.format (c.constantText u) (c.tagText u) placeText, next) := by
  obtain ⟨op, hop, rfl, hread⟩ := fetch_eq_ok h
  have hindex (name text : String) : name ++ (" #" ++ text) = name ++ (" " ++ ("#" ++ text)) := by
    rw [show (" #" : String) = " " ++ "#" from rfl, String.append_assoc]
  have hplace (name text : String) : name ++ (" -> " ++ text) = name ++ (" " ++ ("-> " ++ text)) := by
    rw [show (" -> " : String) = " " ++ "-> " from rfl, String.append_assoc]
  rw [instructionText, hop, ← Nat.add_assoc]
  refine Prod.ext ?_ rfl
  -- the operand is shown as the opcode says
  obtain ⟨hsize, rfl⟩ | ⟨n, hsize, hn, rfl⟩ | ⟨n, hsize, hn, rfl⟩ := hread
  · cases op <;> cases hsize <;> exact String.append_empty
  · cases op <;> cases hsize <;>
      simp only [operandText, Opcode.operandSize, hn, Option.getD_some, Opcode.usesTag, reduceCtorEq,
        Bool.false_eq_true, if_true, if_false, Instruction.ofOperand, Instruction.ofOperands,
        Instruction.format, Instruction.opcode, constantText, tagText, String.append_assoc, hindex]
  · cases op <;> cases hsize <;>
      simp only [operandText, Opcode.operandSize, hn, Option.getD_some, Instruction.ofOperand,
        Instruction.ofOperands, Instruction.format, Instruction.opcode, placeText,
        String.append_assoc, hplace]

/-- A listing shows what is read, in order. -/
theorem writeListing_eq {is : List (Nat × Instruction UInt16 UInt16 UInt32)} (u : Universe) :
    ∀ {offset : Nat} (out : String), c.decode offset = .ok is →
      c.writeListing u offset out = (is.map (c.lineText u)).foldl (· ++ ·) out := by
  induction is with
  | nil =>
    intro offset out h
    rw [decode] at h
    split at h
    · rename_i heq
      rw [writeListing, if_neg (by omega)]
      rfl
    · split at h
      · cases h
      · rename_i hfetch
        cases hrest : c.decode _ <;> rw [hrest] at h <;> cases h
  | cons x is ih =>
    intro offset out h
    rw [decode] at h
    split at h
    · cases h
    split at h
    · cases h
    · rename_i i next hfetch
      cases hrest : c.decode next with
      | error f =>
        rw [hrest] at h
        cases h
      | ok is' =>
        rw [hrest] at h
        cases h
        rw [writeListing, if_pos (lt_size_of_fetch hfetch), instructionText_eq hfetch, ih _ hrest,
          List.map_cons, List.foldl_cons, lineText]
        simp only [String.append_assoc]

theorem listing_eq {is : List (Nat × Instruction UInt16 UInt16 UInt32)} (u : Universe)
    (h : c.decode 0 = .ok is) :
    c.listing u = (is.map (c.lineText u)).foldl (· ++ ·) c.heading :=
  writeListing_eq u c.heading h

end Chunk

/-! ### What the tables hold -/

namespace Instruction

variable {κ τ ℓ : Type}

/-- The constant that an instruction names. -/
def constant? : Instruction κ τ ℓ → Option κ
  | pushConstant c => some c
  | _ => none

/-- The tag that an instruction names. -/
def tag? : Instruction κ τ ℓ → Option τ
  | createCompound t | call t => some t
  | _ => none

/-- The place that an instruction names. -/
def place? : Instruction κ τ ℓ → Option ℓ
  | jump l | tryMeElse l | retryMeElse l => some l
  | _ => none

end Instruction

namespace Chunk.Tables

/-- How many entries tags need: one for each tag. -/
def tagsNeeded (tags : List Tag) : Nat :=
  tags.toFinset.card

/-- How many entries constants need: one for each key, and one for each constant that has none. -/
def constantsNeeded (cs : List Term) : Nat :=
  (cs.filterMap key?).toFinset.card + cs.countP (key? · = none)

theorem tagsNeeded_append (tags : List Tag) (tag : Tag) : tagsNeeded (tags ++ [tag]) =
    if tag ∈ tags then tagsNeeded tags else tagsNeeded tags + 1 := by
  have hinsert : (tags ++ [tag]).toFinset = insert tag tags.toFinset := by
    rw [List.toFinset_append, Finset.union_comm]
    rfl
  rw [tagsNeeded, hinsert, Finset.card_insert_eq_ite]
  simp only [List.mem_toFinset]
  rfl

theorem constantsNeeded_append (cs : List Term) (c : Term) : constantsNeeded (cs ++ [c]) =
    if ∃ k ∈ cs.filterMap key?, key? c = some k then constantsNeeded cs
    else constantsNeeded cs + 1 := by
  unfold constantsNeeded
  rw [List.countP_append, List.filterMap_append]
  cases hkey : key? c with
  | none =>
    rw [if_neg (by simp)]
    simp [hkey, Nat.add_assoc]
  | some k =>
    have hinsert : (cs.filterMap key? ++ [c].filterMap key?).toFinset =
        insert k (cs.filterMap key?).toFinset := by
      rw [List.toFinset_append, Finset.union_comm]
      simp [hkey]
    rw [hinsert, Finset.card_insert_eq_ite]
    simp only [List.mem_toFinset, Option.some_inj, exists_eq_right', List.countP_singleton, hkey,
      reduceCtorEq, decide_false, Bool.false_eq_true, if_false, Nat.add_zero]
    split_ifs <;> omega

/-- The tables hold what has been named, each tag and each key once, and know where. -/
structure Lists (t : Tables) (tags : List Tag) (cs : List Term) : Prop where
  /-- As many tags as are needed. -/
  tagCount : t.tags.size = tagsNeeded tags
  /-- They are found again. -/
  tagKnown : ∀ tag : Tag, tag ∈ tags ↔ tag.index ∈ t.tagIndex
  /-- Not more than fit. -/
  tagLimit : t.tags.size ≤ maxEntries
  /-- As many constants as are needed. -/
  constantCount : t.constants.size = constantsNeeded cs
  /-- Those with keys are found again. -/
  constantKnown : ∀ k : Nat, k ∈ cs.filterMap key? ↔ k ∈ t.constantIndex
  /-- Not more than fit. -/
  constantLimit : t.constants.size ≤ maxEntries

variable {t t' : Tables} {tags : List Tag} {cs : List Term} {tag : Tag} {c : Term} {n : UInt16}

theorem lists_empty : empty.Lists [] [] where
  tagCount := rfl
  tagKnown := by simp [empty]
  tagLimit := by simp [empty]
  constantCount := rfl
  constantKnown := by simp [empty]
  constantLimit := by simp [empty]

theorem Lists.of_addTag (ht : t.Lists tags cs) (h : t.addTag tag = .ok (n, t')) :
    t'.Lists (tags ++ [tag]) cs := by
  unfold addTag at h
  split at h
  · rename_i m hm
    cases h
    have hmem : tag ∈ tags :=
      (ht.tagKnown tag).mpr (Std.TreeMap.mem_iff_isSome_getElem?.mpr (by rw [hm]; rfl))
    refine ⟨by rw [tagsNeeded_append, if_pos hmem, ht.tagCount], fun x => ?_, ht.tagLimit,
      ht.constantCount, ht.constantKnown, ht.constantLimit⟩
    rw [← ht.tagKnown, List.mem_append, List.mem_singleton, or_iff_left_of_imp fun h => h ▸ hmem]
  split at h
  · rename_i hnone hlt
    cases h
    have hmem : tag ∉ tags := by
      rw [ht.tagKnown, Std.TreeMap.mem_iff_isSome_getElem?, hnone]
      nofun
    refine ⟨?_, fun x => ?_, ?_, ht.constantCount, ht.constantKnown, ht.constantLimit⟩
    · rw [tagsNeeded_append, if_neg hmem, ← ht.tagCount, Array.size_push]
    · rw [Std.TreeMap.mem_insert, ← ht.tagKnown, List.mem_append, List.mem_singleton, or_comm,
        Std.LawfulEqCmp.compare_eq_iff_eq]
      exact or_congr_left ⟨fun h => h ▸ rfl, fun h => (congrArg Tag.mk h).symm⟩
    · rw [Array.size_push]
      exact hlt
  · cases h

theorem Lists.of_addTag_error {e : CompileError} (ht : t.Lists tags cs) (h : t.addTag tag = .error e) :
    e = .tooManyTags ∧ maxEntries < tagsNeeded (tags ++ [tag]) := by
  unfold addTag at h
  split at h
  · cases h
  split at h
  · cases h
  · rename_i hnone hlt
    cases h
    have hmem : tag ∉ tags := by
      rw [ht.tagKnown, Std.TreeMap.mem_iff_isSome_getElem?, hnone]
      nofun
    rw [tagsNeeded_append, if_neg hmem, ← ht.tagCount]
    exact ⟨rfl, by omega⟩

theorem mem_filterMap_key? (ht : t.Lists tags cs) {k : Nat} (hk : key? c = some k) :
    (∃ k ∈ cs.filterMap key?, key? c = some k) ↔ k ∈ t.constantIndex := by
  rw [← ht.constantKnown]
  simp [hk]

theorem Lists.of_addConstant (ht : t.Lists tags cs) (h : t.addConstant c = .ok (n, t')) :
    t'.Lists tags (cs ++ [c]) := by
  unfold addConstant at h
  split at h
  · rename_i m hm
    cases h
    obtain ⟨k, hk, hm⟩ := Option.bind_eq_some_iff.mp hm
    have hmem : k ∈ t.constantIndex := Std.TreeMap.mem_iff_isSome_getElem?.mpr (by rw [hm]; rfl)
    refine ⟨ht.tagCount, ht.tagKnown, ht.tagLimit, ?_, fun x => ?_, ht.constantLimit⟩
    · rw [constantsNeeded_append, if_pos ((mem_filterMap_key? ht hk).mpr hmem), ht.constantCount]
    · rw [← ht.constantKnown, List.filterMap_append, List.mem_append]
      refine or_iff_left_of_imp fun hx => ?_
      rw [show x = k by simpa [hk] using hx]
      exact (ht.constantKnown k).mpr hmem
  split at h
  · rename_i hnone hlt
    cases h
    refine ⟨ht.tagCount, ht.tagKnown, ht.tagLimit, ?_, fun x => ?_, ?_⟩
    · rw [constantsNeeded_append, if_neg, ← ht.constantCount, Array.size_push]
      rintro ⟨k, hmem, hk⟩
      rw [hk, Option.bind_some] at hnone
      rw [ht.constantKnown, Std.TreeMap.mem_iff_isSome_getElem?, hnone] at hmem
      cases hmem
    · rw [List.filterMap_append, List.mem_append, ht.constantKnown]
      cases hk : key? c with
      | none => simp [hk]
      | some k =>
        rw [Std.TreeMap.mem_insert, or_comm, Std.LawfulEqCmp.compare_eq_iff_eq]
        simp [hk, eq_comm]
    · rw [Array.size_push]
      exact hlt
  · cases h

theorem Lists.of_addConstant_error {e : CompileError} (ht : t.Lists tags cs)
    (h : t.addConstant c = .error e) :
    e = .tooManyConstants ∧ maxEntries < constantsNeeded (cs ++ [c]) := by
  unfold addConstant at h
  split at h
  · cases h
  split at h
  · cases h
  · rename_i hnone hlt
    cases h
    rw [constantsNeeded_append, if_neg, ← ht.constantCount]
    · exact ⟨rfl, by omega⟩
    · rintro ⟨k, hmem, hk⟩
      rw [hk, Option.bind_some] at hnone
      rw [ht.constantKnown, Std.TreeMap.mem_iff_isSome_getElem?, hnone] at hmem
      cases hmem

theorem tagsNeeded_le_append (tags more : List Tag) : tagsNeeded tags ≤ tagsNeeded (tags ++ more) := by
  unfold tagsNeeded
  rw [List.toFinset_append]
  exact Finset.card_le_card Finset.subset_union_left

theorem constantsNeeded_le_append (cs more : List Term) :
    constantsNeeded cs ≤ constantsNeeded (cs ++ more) := by
  unfold constantsNeeded
  rw [List.filterMap_append, List.toFinset_append, List.countP_append]
  exact Nat.add_le_add (Finset.card_le_card Finset.subset_union_left) (Nat.le_add_right _ _)

end Chunk.Tables

namespace Program

open Chunk.Tables

/-- The tags that instructions name. -/
def tagsOf (is : List (Instruction Term Tag Nat)) : List Tag :=
  is.filterMap Instruction.tag?

/-- The constants that instructions name. -/
def constantsOf (is : List (Instruction Term Tag Nat)) : List Term :=
  is.filterMap Instruction.constant?

theorem tagsOf_append (is is' : List (Instruction Term Tag Nat)) :
    tagsOf (is ++ is') = tagsOf is ++ tagsOf is' :=
  List.filterMap_append

theorem constantsOf_append (is is' : List (Instruction Term Tag Nat)) :
    constantsOf (is ++ is') = constantsOf is ++ constantsOf is' :=
  List.filterMap_append

/-- The labels that a program refers to. -/
def references (p : Program) : List Nat :=
  p.instructions.filterMap Instruction.place? ++
    p.handlers.toList.flatMap fun h => [h.start, h.stop, h.target]

/-- What keeps a program from being packed. -/
inductive Exceeds (p : Program) : CompileError → Prop
  /-- A label is referred to and never placed. -/
  | unboundLabel {n : Nat} (href : n ∈ p.references) (hplace : .label n ∉ p.lines.toList) :
    Exceeds p (.unboundLabel n)
  /-- There are more tags than a table can have. -/
  | tooManyTags (h : maxEntries < tagsNeeded (tagsOf p.instructions)) : Exceeds p .tooManyTags
  /-- There are more constants than a table can have. -/
  | tooManyConstants (h : maxEntries < constantsNeeded (constantsOf p.instructions)) :
    Exceeds p .tooManyConstants
  /-- A label is referred to and placed where no offset of 32 bits leads. -/
  | codeTooLarge {n o : Nat} (href : n ∈ p.references) (hplace : Places p.lines.toList n o)
    (hlarge : 0x100000000 ≤ o) : Exceeds p .codeTooLarge

namespace Layout

variable {is : List (Instruction Term Tag Nat)} {i : Instruction Term Tag Nat} {t t' : Chunk.Tables}
  {j : Instruction UInt16 UInt16 Nat} {e : CompileError}

theorem lists_of_enter (ht : t.Lists (tagsOf is) (constantsOf is)) (h : enter t i = .ok (j, t')) :
    t'.Lists (tagsOf (is ++ [i])) (constantsOf (is ++ [i])) := by
  rw [tagsOf_append, constantsOf_append]
  cases i with
  | pushConstant c =>
    obtain ⟨⟨n, t₁⟩, hn, hj⟩ := Except.bind_eq_ok.mp h
    cases hj
    rw [show tagsOf [.pushConstant c] = [] from rfl, List.append_nil]
    exact ht.of_addConstant hn
  | createCompound tag =>
    obtain ⟨⟨n, t₁⟩, hn, hj⟩ := Except.bind_eq_ok.mp h
    cases hj
    rw [show constantsOf [.createCompound tag] = [] from rfl, List.append_nil]
    exact ht.of_addTag hn
  | call tag =>
    obtain ⟨⟨n, t₁⟩, hn, hj⟩ := Except.bind_eq_ok.mp h
    cases hj
    rw [show constantsOf [.call tag] = [] from rfl, List.append_nil]
    exact ht.of_addTag hn
  | _ =>
    cases h
    change t.Lists (tagsOf is ++ []) (constantsOf is ++ [])
    rwa [List.append_nil, List.append_nil]

/-- A table that overflows while an instruction is entered. -/
theorem error_of_enter (ht : t.Lists (tagsOf is) (constantsOf is)) (h : enter t i = .error e) :
    (e = .tooManyTags ∧ maxEntries < tagsNeeded (tagsOf (is ++ [i]))) ∨
      (e = .tooManyConstants ∧ maxEntries < constantsNeeded (constantsOf (is ++ [i]))) := by
  rw [tagsOf_append, constantsOf_append]
  cases i with
  | pushConstant c =>
    obtain hn | ⟨_, -, hj⟩ := Except.bind_eq_error.mp h
    · exact .inr (ht.of_addConstant_error hn)
    · cases hj
  | createCompound tag | call tag =>
    obtain hn | ⟨_, -, hj⟩ := Except.bind_eq_error.mp h
    · exact .inl (ht.of_addTag_error hn)
    · cases hj
  | _ => cases h

variable {l l' : Layout}

theorem lists_of_addLine {x : Line} (hl : l.tables.Lists (tagsOf is) (constantsOf is))
    (h : l.addLine x = .ok l') : l'.tables.Lists (tagsOf (is ++ [x].filterMap Line.instruction?))
      (constantsOf (is ++ [x].filterMap Line.instruction?)) := by
  cases x with
  | label n =>
    cases h
    rwa [show [Line.label n].filterMap Line.instruction? = [] from rfl, List.append_nil]
  | instruction i =>
    obtain ⟨⟨j, t⟩, hi, hl'⟩ := Except.bind_eq_ok.mp h
    cases hl'
    exact lists_of_enter hl hi

theorem lists_nil : Layout.empty.tables.Lists (tagsOf []) (constantsOf []) :=
  lists_empty

/-- The tables of a layout list what its lines name. -/
theorem lists_of_foldlM (ls : List Line) : ∀ {is : List (Instruction Term Tag Nat)} {l : Layout},
    l.tables.Lists (tagsOf is) (constantsOf is) → ls.foldlM addLine l = .ok l' →
      l'.tables.Lists (tagsOf (is ++ ls.filterMap Line.instruction?))
        (constantsOf (is ++ ls.filterMap Line.instruction?)) := by
  induction ls with
  | nil =>
    intro is l hl h
    cases h
    simpa using hl
  | cons x ls ih =>
    intro is l hl h
    obtain ⟨l₁, hx, h⟩ := Except.bind_eq_ok.mp h
    rw [← List.singleton_append, List.filterMap_append, ← List.append_assoc]
    exact ih (lists_of_addLine hl hx) h

/-- A table that overflows while lines are laid out. -/
theorem error_of_foldlM (ls : List Line) : ∀ {is : List (Instruction Term Tag Nat)} {l : Layout},
    l.tables.Lists (tagsOf is) (constantsOf is) → ls.foldlM addLine l = .error e →
      (e = .tooManyTags ∧ maxEntries < tagsNeeded (tagsOf (is ++ ls.filterMap Line.instruction?))) ∨
        (e = .tooManyConstants ∧
          maxEntries < constantsNeeded (constantsOf (is ++ ls.filterMap Line.instruction?))) := by
  induction ls with
  | nil =>
    intro is l hl h
    cases h
  | cons x ls ih =>
    intro is l hl h
    obtain hx | ⟨l₁, hx, h⟩ := Except.bind_eq_error.mp h
    · cases x with
      | label n => cases hx
      | instruction i =>
        obtain hi | ⟨_, -, hl₁⟩ := Except.bind_eq_error.mp hx
        · -- what one more instruction exceeds, all of them exceed
          have hsplit : is ++ (Line.instruction i :: ls).filterMap Line.instruction? =
              is ++ [i] ++ ls.filterMap Line.instruction? := by simp [Line.instruction?]
          rw [hsplit, tagsOf_append _ (ls.filterMap _), constantsOf_append _ (ls.filterMap _)]
          obtain ⟨he, hlt⟩ | ⟨he, hlt⟩ := error_of_enter hl hi
          · exact .inl ⟨he, hlt.trans_le (tagsNeeded_le_append _ _)⟩
          · exact .inr ⟨he, hlt.trans_le (constantsNeeded_le_append _ _)⟩
        · cases hl₁
    · rw [← List.singleton_append, List.filterMap_append, ← List.append_assoc]
      exact ih (lists_of_addLine hl hx) h

theorem place_eq_error {n : Nat} (h : l.place n = .error e) :
    (e = .unboundLabel n ∧ l.places[n]? = none) ∨
      (e = .codeTooLarge ∧ ∃ o, l.places[n]? = some o ∧ 0x100000000 ≤ o) := by
  unfold place at h
  split at h
  · rename_i hn
    cases h
    exact .inl ⟨rfl, hn⟩
  · rename_i o ho
    split at h
    · cases h
    · rename_i hlt
      cases h
      exact .inr ⟨rfl, o, ho, by omega⟩

theorem resolve_eq_error {j : Instruction UInt16 UInt16 Nat} (h : l.resolve j = .error e) :
    ∃ n, j.place? = some n ∧ l.place n = .error e := by
  cases j with
  | jump n | tryMeElse n | retryMeElse n =>
    obtain hn | ⟨_, -, hj⟩ := Except.bind_eq_error.mp h
    · exact ⟨n, rfl, hn⟩
    · cases hj
  | _ => cases h

theorem resolveHandler_eq_error {h : Handler} (hr : l.resolveHandler h = .error e) :
    ∃ n ∈ [h.start, h.stop, h.target], l.place n = .error e := by
  obtain hstart | ⟨_, -, hr⟩ := Except.bind_eq_error.mp hr
  · exact ⟨_, by simp, hstart⟩
  obtain hstop | ⟨_, -, hr⟩ := Except.bind_eq_error.mp hr
  · exact ⟨_, by simp, hstop⟩
  obtain htarget | ⟨_, -, hr⟩ := Except.bind_eq_error.mp hr
  · exact ⟨_, by simp, htarget⟩
  · cases hr

theorem error_of_code (js : List (Instruction UInt16 UInt16 Nat)) : ∀ {code : Array UInt8},
    js.foldlM (fun (code : Array UInt8) i => do
      return (← l.resolve i).encode.foldl .push code) code = Except.error e →
    ∃ j ∈ js, l.resolve j = .error e := by
  induction js with
  | nil =>
    intro code h
    cases h
  | cons j js ih =>
    intro code h
    obtain hj | ⟨_, -, h⟩ := Except.bind_eq_error.mp h
    · obtain hj | ⟨_, -, hcode⟩ := Except.bind_eq_error.mp hj
      · exact ⟨j, List.mem_cons_self, hj⟩
      · cases hcode
    · obtain ⟨j', hj', h⟩ := ih h
      exact ⟨j', List.mem_cons_of_mem _ hj', h⟩

theorem error_of_handlers : ∀ {hs : List Handler}, hs.mapM l.resolveHandler = .error e →
    ∃ h ∈ hs, l.resolveHandler h = .error e
  | [], h => by cases h
  | h :: hs, hr => by
    rw [List.mapM_cons] at hr
    obtain hh | ⟨_, -, hr⟩ := Except.bind_eq_error.mp hr
    · exact ⟨h, List.mem_cons_self, hh⟩
    obtain hhs | ⟨_, -, hr⟩ := Except.bind_eq_error.mp hr
    · obtain ⟨h', hmem, hh'⟩ := error_of_handlers hhs
      exact ⟨h', List.mem_cons_of_mem _ hmem, hh'⟩
    · cases hr

end Layout

theorem exists_of_forall₂ {α β : Type} {R : α → β → Prop} {a : α} {as : List α} {bs : List β}
    (h : List.Forall₂ R as bs) (ha : a ∈ as) : ∃ b ∈ bs, R a b := by
  obtain ⟨before, after, rfl⟩ := List.append_of_mem ha
  obtain ⟨before', b, after', rfl, -, hab⟩ := forall₂_append_cons h
  exact ⟨b, by simp, hab⟩

theorem exists_places {ls : List Line} {n : Nat} (h : .label n ∈ ls) : ∃ o, Places ls n o := by
  induction ls using List.reverseRecOn with
  | nil => cases h
  | append_singleton ls x ih =>
    by_cases hx : x = .label n
    · exact ⟨_, places_concat.mpr (.inl ⟨hx, rfl⟩)⟩
    · obtain ⟨o, ho⟩ := ih ((List.mem_append.mp h).resolve_right fun h =>
        hx (List.mem_singleton.mp h).symm)
      exact ⟨o, places_concat.mpr (.inr ⟨hx, ho⟩)⟩

theorem Places.mem {ls : List Line} {n o : Nat} (h : Places ls n o) : .label n ∈ ls := by
  obtain ⟨before, after, rfl, -⟩ := h
  simp

theorem exceeds_of_place {p : Program} {l : Layout} (hl : l.Of p.lines.toList) {n : Nat}
    {e : CompileError} (href : n ∈ p.references) (h : l.place n = .error e) : p.Exceeds e := by
  obtain ⟨rfl, hn⟩ | ⟨rfl, o, ho, hlarge⟩ := Layout.place_eq_error h
  · refine .unboundLabel href fun hmem => ?_
    obtain ⟨o, ho⟩ := exists_places hmem
    rw [(hl.places n o).mp ho] at hn
    cases hn
  · exact .codeTooLarge href ((hl.places n o).mpr ho) hlarge

/-- A program that cannot be packed exceeds what packed code can hold. -/
theorem exceeds_of_assemble {p : Program} {e : CompileError} (h : p.assemble = .error e) :
    p.Exceeds e := by
  obtain hlayout | ⟨l, hlayout, h⟩ := Except.bind_eq_error.mp h
  · rw [← Array.foldlM_toList] at hlayout
    obtain ⟨rfl, hlt⟩ | ⟨rfl, hlt⟩ := Layout.error_of_foldlM _ Layout.lists_nil hlayout
    · exact .tooManyTags hlt
    · exact .tooManyConstants hlt
  rw [← Array.foldlM_toList] at hlayout
  have hl : l.Of p.lines.toList := by simpa using Layout.Of.empty.foldlM _ hlayout
  obtain hcode | ⟨code, -, h⟩ := Except.bind_eq_error.mp h
  · rw [← Array.foldlM_toList] at hcode
    obtain ⟨j, hj, hresolve⟩ := Layout.error_of_code _ hcode
    obtain ⟨n, hn, hplace⟩ := Layout.resolve_eq_error hresolve
    -- an entered instruction refers to the label of the instruction of the program
    obtain ⟨i, hi, hentered⟩ := exists_of_forall₂ hl.instructions.flip hj
    refine exceeds_of_place hl (List.mem_append_left _ (List.mem_filterMap.mpr ⟨i, hi, ?_⟩)) hplace
    cases hentered with
    | jump h | tryMeElse h | retryMeElse h => rw [← hn, h]; rfl
    | _ => cases hn
  obtain hhandlers | ⟨_, -, h⟩ := Except.bind_eq_error.mp h
  · have hlist : p.handlers.toList.mapM l.resolveHandler = .error e := by
      rw [← Array.toList_mapM, hhandlers]
      rfl
    obtain ⟨h', hmem, hresolve⟩ := Layout.error_of_handlers hlist
    obtain ⟨n, hn, hplace⟩ := Layout.resolveHandler_eq_error hresolve
    exact exceeds_of_place hl (List.mem_append_right _ (List.mem_flatMap.mpr ⟨h', hmem, hn⟩)) hplace
  · cases h

/-- Packed code represents a program. -/
structure Represents (p : Program) (c : Chunk) : Prop where
  /-- What is read are the instructions of the program at their offsets; a listing shows them. -/
  instructions : ∃ js, c.decode 0 = .ok js ∧
    List.Forall₂ (fun x y => y.1 = x.1 ∧ c.Packs (fun n o => Places p.lines.toList n o.toNat) x.2 y.2)
      (Instruction.locate 0 p.instructions) js ∧
    ∀ u, c.listing u = (js.map (c.lineText u)).foldl (· ++ ·) c.heading
  /-- The handlers, in order. -/
  handlers : List.Forall₂ (PackedHandler p.lines.toList) p.handlers.toList c.handlers.toList
  /-- The name. -/
  name : c.name = p.name
  /-- The number of arguments. -/
  arity : c.arity = p.arity
  /-- The number of slots. -/
  slots : c.slots = p.slots
  /-- Nothing is in the way. -/
  fits : ∀ e, ¬ p.Exceeds e

theorem forall₂_locate {ℓ : Type} {c : Chunk} {L : ℓ → UInt32 → Prop}
    {is : List (Instruction Term Tag ℓ)} {js : List (Instruction UInt16 UInt16 UInt32)}
    (h : List.Forall₂ (c.Packs L) is js) (offset : Nat) :
    List.Forall₂ (fun x y => y.1 = x.1 ∧ c.Packs L x.2 y.2)
      (Instruction.locate offset is) (Instruction.locate offset js) := by
  induction h generalizing offset with
  | nil => exact .nil
  | cons h _ ih =>
    refine .cons ⟨rfl, h⟩ ?_
    rw [h.size_eq]
    exact ih _

/-- What a packed program refers to has an offset. -/
theorem Stages.places_of_reference {p : Program} {c : Chunk} {l : Layout}
    {js : List (Instruction UInt16 UInt16 UInt32)} (h : p.Stages c l js) {n : Nat}
    (hn : n ∈ p.references) : ∃ o : UInt32, Places p.lines.toList n o.toNat := by
  obtain hn | hn := List.mem_append.mp hn
  · obtain ⟨i, hi, hplace⟩ := List.mem_filterMap.mp hn
    obtain ⟨j, -, hpacks⟩ := exists_of_forall₂ h.packs hi
    cases hpacks with
    | jump h | tryMeElse h | retryMeElse h =>
      cases hplace
      exact ⟨_, h⟩
    | _ => cases hplace
  · obtain ⟨x, hx, hn⟩ := List.mem_flatMap.mp hn
    obtain ⟨x', -, hpacked⟩ :=
      exists_of_forall₂ (Layout.forall₂_mapM_resolveHandler h.lines h.handlers) hx
    simp only [List.mem_cons, List.not_mem_nil, or_false] at hn
    obtain rfl | rfl | rfl := hn
    · exact ⟨_, hpacked.start⟩
    · exact ⟨_, hpacked.stop⟩
    · exact ⟨_, hpacked.target⟩

/-- A program that has been packed exceeds nothing. -/
theorem Stages.not_exceeds {p : Program} {c : Chunk} {l : Layout}
    {js : List (Instruction UInt16 UInt16 UInt32)} (h : p.Stages c l js) (e : CompileError) :
    ¬ p.Exceeds e := by
  have hlists := Layout.lists_of_foldlM p.lines.toList Layout.lists_nil h.layout
  intro he
  cases he with
  | unboundLabel hn hplace =>
    obtain ⟨o, ho⟩ := h.places_of_reference hn
    exact hplace ho.mem
  | tooManyTags hlt => exact absurd (hlists.tagCount ▸ hlists.tagLimit) (by exact Nat.not_le.mpr hlt)
  | tooManyConstants hlt =>
    exact absurd (hlists.constantCount ▸ hlists.constantLimit) (by exact Nat.not_le.mpr hlt)
  | codeTooLarge hn hplace hlarge =>
    obtain ⟨o, ho⟩ := h.places_of_reference hn
    rw [hplace.unique ho] at hlarge
    exact absurd o.toNat_lt (Nat.not_lt.mpr hlarge)

theorem represents_of_assemble {p : Program} {c : Chunk} (h : p.assemble = .ok c) :
    p.Represents c := by
  obtain ⟨l, js, hstages⟩ := stages_of_assemble h
  have hdecode : c.decode 0 = .ok (Instruction.locate 0 js) :=
    @Chunk.decode_of_code c js [] hstages.code
  have hrest := hstages.rest
  exact ⟨⟨_, hdecode, forall₂_locate hstages.packs 0, fun u => Chunk.listing_eq u hdecode⟩,
    Layout.forall₂_mapM_resolveHandler hstages.lines hstages.handlers, congrArg Chunk.name hrest,
    congrArg Chunk.arity hrest, congrArg Chunk.slots hrest, hstages.not_exceeds⟩

/-- Either a program is packed, and the packed code represents it, or it exceeds what packed code can
hold. -/
theorem represents_or_exceeds (p : Program) :
    (∃ c, p.assemble = .ok c ∧ p.Represents c) ∨ ∃ e, p.assemble = .error e ∧ p.Exceeds e := by
  cases h : p.assemble with
  | ok c => exact .inl ⟨c, rfl, represents_of_assemble h⟩
  | error e => exact .inr ⟨e, rfl, exceeds_of_assemble h⟩

end Program

end Resolvent
