import Resolvent.Chunk.Assemble
import Mathlib.Data.List.Forall2
import Mathlib.Data.List.Induction

/-!
# Packed code holds what was packed

The instruction at a place of a program is found in its packed code at the offset of that place, with
the constants, tags and offsets that it names: `Program.reads_assemble`. So a proof about packed code
can speak of the lines of the program, and of offsets of lines in the place of labels.
-/

namespace Resolvent

theorem Except.bind_eq_ok {ε α β : Type} {x : Except ε α} {f : α → Except ε β} {b : β} :
    x >>= f = .ok b ↔ ∃ a, x = .ok a ∧ f a = .ok b := by
  cases x <;> simp [bind, Except.bind]

/-! ### Bytes -/

namespace Instruction

/-- Bits put behind others are added to them. -/
theorem or_eq_add {i b : Nat} (a : Nat) (hb : b < 1 <<< i) :
    a * 1 <<< i ||| b = a * 1 <<< i + b := by
  rw [Nat.one_shiftLeft] at hb ⊢
  rw [← Nat.shiftLeft_eq, Nat.shiftLeft_add_eq_or_of_lt hb]

theorem ofBytes16_bytes16 (n : UInt16) : ofBytes16 (n >>> 8).toUInt8 n.toUInt8 = n := by
  have hn := n.toNat_lt
  have h := or_eq_add (i := 8) (n.toNat / 256) (Nat.mod_lt n.toNat (by decide))
  rw [ofBytes16, ← UInt16.toNat_inj]
  simp only [UInt16.toNat_or, UInt16.toNat_shiftLeft, UInt8.toNat_toUInt16, UInt16.toNat_toUInt8,
    UInt16.toNat_shiftRight, Nat.shiftLeft_eq, Nat.shiftRight_eq_div_pow, UInt16.reduceToNat,
    Nat.reduceMod, Nat.reducePow] at h hn ⊢
  rw [show n.toNat / 256 % 256 * 256 % 65536 = n.toNat / 256 * 256 by omega, h]
  omega

theorem ofBytes32_bytes32 (n : UInt32) :
    ofBytes32 (n >>> 24).toUInt8 (n >>> 16).toUInt8 (n >>> 8).toUInt8 n.toUInt8 = n := by
  have hn := n.toNat_lt
  have h₁ := or_eq_add (i := 24) (b := n.toNat / 65536 % 256 * 65536) (n.toNat / 16777216)
    (by omega)
  have h₂ := or_eq_add (i := 16) (b := n.toNat / 256 % 256 * 256) (n.toNat / 65536) (by omega)
  have h₃ := or_eq_add (i := 8) (n.toNat / 256) (Nat.mod_lt n.toNat (by decide))
  rw [ofBytes32, ← UInt32.toNat_inj]
  simp only [UInt32.toNat_or, UInt32.toNat_shiftLeft, UInt8.toNat_toUInt32, UInt32.toNat_toUInt8,
    UInt32.toNat_shiftRight, Nat.shiftLeft_eq, Nat.shiftRight_eq_div_pow, UInt32.reduceToNat,
    Nat.reduceMod, Nat.reducePow] at h₁ h₂ h₃ hn ⊢
  -- the four bytes are put together from the highest to the lowest
  rw [show n.toNat / 16777216 % 256 * 16777216 % 4294967296 = n.toNat / 16777216 * 16777216 by
      omega,
    show n.toNat / 65536 % 256 * 65536 % 4294967296 = n.toNat / 65536 % 256 * 65536 by omega,
    show n.toNat / 256 % 256 * 256 % 4294967296 = n.toNat / 256 % 256 * 256 by omega, h₁,
    show n.toNat / 16777216 * 16777216 + n.toNat / 65536 % 256 * 65536 =
      n.toNat / 65536 * 65536 by omega, h₂,
    show n.toNat / 65536 * 65536 + n.toNat / 256 % 256 * 256 = n.toNat / 256 * 256 by omega, h₃]
  omega

theorem length_encode (i : Instruction UInt16 UInt16 UInt32) : i.encode.length = i.size := by
  cases i <;> rfl

theorem length_flatMap_encode (is : List (Instruction UInt16 UInt16 UInt32)) :
    (is.flatMap (·.encode)).length = total (is.map (·.size)) := by
  induction is with
  | nil => rfl
  | cons i is ih => simp [length_encode, ih]

end Instruction

namespace Chunk

variable {c : Chunk} {offset : Nat} {op : Opcode}

theorem fetch_of_size_zero (hop : op.operandSize = 0) (h : c.code[offset]? = some op.toByte) :
    c.fetch offset = .ok (.ofOperand op 0 0, offset + 1) := by
  simp only [fetch, h, Opcode.ofByte?_toByte, hop]
  rfl

theorem fetch_of_size_two {n : UInt16} (hop : op.operandSize = 2)
    (h : c.code[offset]? = some op.toByte) (h₁ : c.code[offset + 1]? = some (n >>> 8).toUInt8)
    (h₂ : c.code[offset + 2]? = some n.toUInt8) :
    c.fetch offset = .ok (.ofOperand op n 0, offset + 3) := by
  have hread : c.read16? (offset + 1) = some n := by
    simp [read16?, Nat.add_assoc, h₁, h₂, Instruction.ofBytes16_bytes16]
  simp only [fetch, h, Opcode.ofByte?_toByte, hop, hread]
  rfl

theorem fetch_of_size_four {n : UInt32} (hop : op.operandSize = 4)
    (h : c.code[offset]? = some op.toByte) (h₁ : c.code[offset + 1]? = some (n >>> 24).toUInt8)
    (h₂ : c.code[offset + 2]? = some (n >>> 16).toUInt8)
    (h₃ : c.code[offset + 3]? = some (n >>> 8).toUInt8)
    (h₄ : c.code[offset + 4]? = some n.toUInt8) :
    c.fetch offset = .ok (.ofOperand op 0 n, offset + 5) := by
  have hread : c.read32? (offset + 1) = some n := by
    simp [read32?, Nat.add_assoc, h₁, h₂, h₃, h₄, Instruction.ofBytes32_bytes32]
  simp only [fetch, h, Opcode.ofByte?_toByte, hop, hread]
  rfl

/-- The instruction behind some bytes is read at their number. -/
theorem fetch_append {before after : List UInt8} {i : Instruction UInt16 UInt16 UInt32}
    (h : c.code.toList = before ++ i.encode ++ after) :
    c.fetch before.length = .ok (i, before.length + i.size) := by
  have hget (k : Nat) : c.code[before.length + k]? = (i.encode ++ after)[k]? := by
    rw [← Array.getElem?_toList, h, List.append_assoc, List.getElem?_append_right (by omega)]
    simp
  cases i with
  | pop | dup | createVariable | leave | succeed | unify | trustMe | fail | raise =>
    exact fetch_of_size_zero rfl (hget 0)
  | pushConstant n | pushArgument n | pushEnvironment n | createCompound n | allocate n
  | storeEnvironment n | call n | cut n | saveCut n =>
    exact fetch_of_size_two rfl (hget 0) (hget 1) (hget 2)
  | jump n | tryMeElse n | retryMeElse n =>
    exact fetch_of_size_four rfl (hget 0) (hget 1) (hget 2) (hget 3) (hget 4)

end Chunk

/-! ### Tables -/

namespace Chunk.Tables

/-- The index of every tag and constant leads to it. -/
structure Indexed (t : Tables) : Prop where
  /-- Tags. -/
  tags : ∀ (k : Nat) n, t.tagIndex[k]? = some n → t.tags[n.toNat]? = some ⟨k⟩
  /-- Constants. -/
  constants : ∀ (k : Nat) n, t.constantIndex[k]? = some n →
    ∃ c, t.constants[n.toNat]? = some c ∧ key? c = some k

/-- What has been entered keeps its index. -/
structure Extends (t t' : Tables) : Prop where
  /-- Tags. -/
  tags : ∀ (i : Nat) tag, t.tags[i]? = some tag → t'.tags[i]? = some tag
  /-- Constants. -/
  constants : ∀ (i : Nat) c, t.constants[i]? = some c → t'.constants[i]? = some c

theorem Extends.refl (t : Tables) : t.Extends t :=
  ⟨fun _ _ h => h, fun _ _ h => h⟩

theorem getElem?_push_of_some {α : Type} {xs : Array α} {x y : α} {i : Nat}
    (h : xs[i]? = some x) : (xs.push y)[i]? = some x := by
  obtain ⟨hi, rfl⟩ := Array.getElem?_eq_some_iff.mp h
  simp [Array.getElem?_push_lt hi]

/-- Constants with one key are equal. -/
theorem eq_of_key? {c d : Term} {k : Nat} (hc : key? c = some k) (hd : key? d = some k) :
    c = d := by
  unfold key? at hc hd
  -- constants of different kinds have keys of different remainders modulo 3
  split at hc <;> split at hd <;> simp only [Option.some.injEq, reduceCtorEq] at hc hd <;>
    try omega
  · rename_i a _ b
    obtain ⟨i⟩ := a
    obtain ⟨j⟩ := b
    simp only at hc hd
    obtain rfl : i = j := by omega
    rfl
  · rename_i m _ n
    obtain ⟨m⟩ := m
    obtain ⟨n⟩ := n
    have : m.toNat = n.toNat := by simp only at hc hd; omega
    rw [UInt64.toNat_inj.mp this]
  · rename_i x _ y
    obtain ⟨x⟩ := x
    obtain ⟨y⟩ := y
    have : x.toNat = y.toNat := by simp only at hc hd; omega
    rw [UInt64.toNat_inj.mp this]

theorem toNat_ofNat_of_lt_maxEntries {n : Nat} (h : n < maxEntries) :
    (UInt16.ofNat n).toNat = n :=
  UInt16.toNat_ofNat_of_lt' h

theorem addTag_eq_ok {t t' : Tables} {tag : Tag} {n : UInt16} (ht : t.Indexed)
    (h : t.addTag tag = .ok (n, t')) :
    t'.Indexed ∧ t.Extends t' ∧ t'.tags[n.toNat]? = some tag := by
  unfold addTag at h
  split at h
  · rename_i m hm
    cases h
    exact ⟨ht, .refl t, ht.tags _ _ hm⟩
  split at h
  · rename_i hlt
    cases h
    have hn := toNat_ofNat_of_lt_maxEntries hlt
    have hnew : (t.tags.push tag)[(UInt16.ofNat t.tags.size).toNat]? = some tag := by simp [hn]
    refine ⟨⟨fun k n hk => ?_, ht.constants⟩,
      ⟨fun i tag hi => getElem?_push_of_some hi, fun _ _ h => h⟩, hnew⟩
    rw [Std.TreeMap.getElem?_insert] at hk
    split at hk
    · rename_i heq
      obtain rfl := Std.LawfulEqCmp.eq_of_compare heq
      obtain rfl := Option.some.inj hk
      exact hnew
    · exact getElem?_push_of_some (ht.tags k n hk)
  · cases h

theorem addConstant_eq_ok {t t' : Tables} {c : Term} {n : UInt16} (ht : t.Indexed)
    (h : t.addConstant c = .ok (n, t')) :
    t'.Indexed ∧ t.Extends t' ∧ t'.constants[n.toNat]? = some c := by
  unfold addConstant at h
  split at h
  · rename_i m hm
    cases h
    obtain ⟨k, hk, hm⟩ := Option.bind_eq_some_iff.mp hm
    obtain ⟨d, hd, hkey⟩ := ht.constants _ _ hm
    exact ⟨ht, .refl t, eq_of_key? hk hkey ▸ hd⟩
  split at h
  · rename_i hlt
    cases h
    have hn := toNat_ofNat_of_lt_maxEntries hlt
    have hnew : (t.constants.push c)[(UInt16.ofNat t.constants.size).toNat]? = some c := by
      simp [hn]
    refine ⟨⟨ht.tags, fun k n hk => ?_⟩,
      ⟨fun _ _ h => h, fun i c hi => getElem?_push_of_some hi⟩, hnew⟩
    -- the index has grown by the constant's key, if it has one
    have hold (hk : t.constantIndex[k]? = some n) :
        ∃ d, (t.constants.push c)[n.toNat]? = some d ∧ key? d = some k := by
      obtain ⟨d, hd, hkey⟩ := ht.constants k n hk
      exact ⟨d, getElem?_push_of_some hd, hkey⟩
    simp only at hk
    split at hk
    · rename_i key hkey
      rw [Std.TreeMap.getElem?_insert] at hk
      split at hk
      · rename_i heq
        obtain rfl := Std.LawfulEqCmp.eq_of_compare heq
        obtain rfl := Option.some.inj hk
        exact ⟨c, hnew, hkey⟩
      · exact hold hk
    · exact hold hk
  · cases h

end Chunk.Tables

/-! ### Instructions -/

/-- The instructions are the same but for the constants, tags and places they name, which are
related. -/
inductive Instruction.Related {κ τ ℓ κ' τ' ℓ' : Type} (K : κ → κ' → Prop) (T : τ → τ' → Prop)
    (L : ℓ → ℓ' → Prop) : Instruction κ τ ℓ → Instruction κ' τ' ℓ' → Prop where
  | pop : Related K T L .pop .pop
  | dup : Related K T L .dup .dup
  | pushConstant {c : κ} {c' : κ'} (h : K c c') : Related K T L (.pushConstant c) (.pushConstant c')
  | pushArgument (n : UInt16) : Related K T L (.pushArgument n) (.pushArgument n)
  | pushEnvironment (n : UInt16) : Related K T L (.pushEnvironment n) (.pushEnvironment n)
  | createVariable : Related K T L .createVariable .createVariable
  | createCompound {t : τ} {t' : τ'} (h : T t t') :
    Related K T L (.createCompound t) (.createCompound t')
  | allocate (n : UInt16) : Related K T L (.allocate n) (.allocate n)
  | storeEnvironment (n : UInt16) : Related K T L (.storeEnvironment n) (.storeEnvironment n)
  | jump {l : ℓ} {l' : ℓ'} (h : L l l') : Related K T L (.jump l) (.jump l')
  | call {t : τ} {t' : τ'} (h : T t t') : Related K T L (.call t) (.call t')
  | leave : Related K T L .leave .leave
  | succeed : Related K T L .succeed .succeed
  | unify : Related K T L .unify .unify
  | tryMeElse {l : ℓ} {l' : ℓ'} (h : L l l') : Related K T L (.tryMeElse l) (.tryMeElse l')
  | retryMeElse {l : ℓ} {l' : ℓ'} (h : L l l') : Related K T L (.retryMeElse l) (.retryMeElse l')
  | trustMe : Related K T L .trustMe .trustMe
  | fail : Related K T L .fail .fail
  | cut (n : UInt16) : Related K T L (.cut n) (.cut n)
  | saveCut (n : UInt16) : Related K T L (.saveCut n) (.saveCut n)
  | raise : Related K T L .raise .raise

namespace Instruction.Related

variable {κ τ ℓ κ' τ' ℓ' κ'' τ'' ℓ'' : Type}

theorem comp {K : κ → κ' → Prop} {T : τ → τ' → Prop} {L : ℓ → ℓ' → Prop} {K' : κ' → κ'' → Prop}
    {T' : τ' → τ'' → Prop} {L' : ℓ' → ℓ'' → Prop} {K'' : κ → κ'' → Prop} {T'' : τ → τ'' → Prop}
    {L'' : ℓ → ℓ'' → Prop} (hK : ∀ c c' c'', K c c' → K' c' c'' → K'' c c'')
    (hT : ∀ t t' t'', T t t' → T' t' t'' → T'' t t'')
    (hL : ∀ l l' l'', L l l' → L' l' l'' → L'' l l'') {i : Instruction κ τ ℓ}
    {i' : Instruction κ' τ' ℓ'} {i'' : Instruction κ'' τ'' ℓ''} (h : Related K T L i i')
    (h' : Related K' T' L' i' i'') : Related K'' T'' L'' i i'' := by
  cases h with
  | pushConstant h => cases h' with | pushConstant h' => exact .pushConstant (hK _ _ _ h h')
  | createCompound h => cases h' with | createCompound h' => exact .createCompound (hT _ _ _ h h')
  | call h => cases h' with | call h' => exact .call (hT _ _ _ h h')
  | jump h => cases h' with | jump h' => exact .jump (hL _ _ _ h h')
  | tryMeElse h => cases h' with | tryMeElse h' => exact .tryMeElse (hL _ _ _ h h')
  | retryMeElse h => cases h' with | retryMeElse h' => exact .retryMeElse (hL _ _ _ h h')
  | _ => cases h'; constructor

theorem mono {K K' : κ → κ' → Prop} {T T' : τ → τ' → Prop} {L L' : ℓ → ℓ' → Prop}
    (hK : ∀ c c', K c c' → K' c c') (hT : ∀ t t', T t t' → T' t t')
    (hL : ∀ l l', L l l' → L' l l') {i : Instruction κ τ ℓ} {i' : Instruction κ' τ' ℓ'}
    (h : Related K T L i i') : Related K' T' L' i i' := by
  cases h with
  | pushConstant h => exact .pushConstant (hK _ _ h)
  | createCompound h => exact .createCompound (hT _ _ h)
  | call h => exact .call (hT _ _ h)
  | jump h => exact .jump (hL _ _ h)
  | tryMeElse h => exact .tryMeElse (hL _ _ h)
  | retryMeElse h => exact .retryMeElse (hL _ _ h)
  | _ => constructor

theorem size_eq {K : κ → κ' → Prop} {T : τ → τ' → Prop} {L : ℓ → ℓ' → Prop}
    {i : Instruction κ τ ℓ} {i' : Instruction κ' τ' ℓ'} (h : Related K T L i i') :
    i'.size = i.size := by
  cases h <;> rfl

end Instruction.Related

theorem Instruction.map_size_eq {κ τ ℓ κ' τ' ℓ' : Type}
    {K : κ → κ' → Prop} {T : τ → τ' → Prop} {L : ℓ → ℓ' → Prop} {is : List (Instruction κ τ ℓ)}
    {js : List (Instruction κ' τ' ℓ')} (h : List.Forall₂ (Instruction.Related K T L) is js) :
    js.map (·.size) = is.map (·.size) := by
  induction h with
  | nil => rfl
  | cons h _ ih => rw [List.map_cons, List.map_cons, h.size_eq, ih]

namespace Chunk

/-- An instruction with its constant and tag and the packed one that stands for it; places are
related by `L`. -/
def Packs {ℓ : Type} (c : Chunk) (L : ℓ → UInt32 → Prop) :
    Instruction Term Tag ℓ → Instruction UInt16 UInt16 UInt32 → Prop :=
  Instruction.Related (fun t n => c.constants[n.toNat]? = some t)
    (fun tag n => c.tags[n.toNat]? = some tag) L

end Chunk

/-! ### Lines -/

namespace Program

/-- How many bytes a line takes. -/
def Line.size : Line → Nat
  | .instruction i => i.size
  | .label _ => 0

/-- The offset behind lines. -/
def offset (ls : List Line) : Nat :=
  total (ls.map Line.size)

@[simp] theorem offset_nil : offset [] = 0 := rfl

@[simp] theorem offset_cons (l : Line) (ls : List Line) :
    offset (l :: ls) = l.size + offset ls := by
  simp [offset]

@[simp] theorem offset_append (ls ls' : List Line) :
    offset (ls ++ ls') = offset ls + offset ls' := by
  simp [offset]

theorem offset_eq_total (ls : List Line) :
    offset ls = total ((ls.filterMap Line.instruction?).map (·.size)) := by
  induction ls with
  | nil => rfl
  | cons l ls ih =>
    rw [offset_cons, ih, List.filterMap_cons]
    cases l <;> simp [Line.size, Line.instruction?]

/-- The label is placed at the offset, and not again behind it. -/
def Places (ls : List Line) (n o : Nat) : Prop :=
  ∃ before after, ls = before ++ .label n :: after ∧ .label n ∉ after ∧ o = offset before

/-- A label in lines of which the last is known. -/
theorem places_concat {ls : List Line} {x : Line} {n o : Nat} :
    Places (ls ++ [x]) n o ↔ (x = .label n ∧ o = offset ls) ∨ (x ≠ .label n ∧ Places ls n o) := by
  constructor
  · rintro ⟨before, after, hls, hafter, rfl⟩
    obtain rfl | ⟨after, y, rfl⟩ := List.eq_nil_or_concat after
    · obtain ⟨rfl, hx⟩ := List.append_inj' hls rfl
      exact .inl ⟨by simpa using hx, rfl⟩
    · rw [List.concat_eq_append, ← List.cons_append, ← List.append_assoc] at hls
      obtain ⟨rfl, hx⟩ := List.append_inj' hls rfl
      obtain rfl : x = y := by simpa using hx
      rw [List.concat_eq_append, List.mem_append, not_or, List.mem_singleton] at hafter
      exact .inr ⟨Ne.symm hafter.2, before, after, rfl, hafter.1, rfl⟩
  · rintro (⟨rfl, rfl⟩ | ⟨hx, before, after, rfl, hafter, rfl⟩)
    · exact ⟨ls, [], rfl, List.not_mem_nil, rfl⟩
    · refine ⟨before, after ++ [x], by simp, ?_, rfl⟩
      rw [List.mem_append, not_or, List.mem_singleton]
      exact ⟨hafter, Ne.symm hx⟩

/-- A label is placed at one offset only. -/
theorem Places.unique {n o o' : Nat} {ls : List Line} (h : Places ls n o) (h' : Places ls n o') :
    o = o' := by
  induction ls using List.reverseRecOn with
  | nil =>
    obtain ⟨before, after, h, -⟩ := h
    simp at h
  | append_singleton ls x ih =>
    obtain ⟨hx, rfl⟩ | ⟨hx, h⟩ := places_concat.mp h
    · obtain ⟨-, rfl⟩ | ⟨hx', -⟩ := places_concat.mp h'
      · rfl
      · exact absurd hx hx'
    · obtain ⟨hx', -⟩ | ⟨-, h'⟩ := places_concat.mp h'
      · exact absurd hx' hx
      · exact ih h h'

namespace Layout

/-- An instruction with its constant and tag entered. -/
def Entered (t : Chunk.Tables) :
    Instruction Term Tag Nat → Instruction UInt16 UInt16 Nat → Prop :=
  Instruction.Related (fun c n => t.constants[n.toNat]? = some c)
    (fun tag n => t.tags[n.toNat]? = some tag) Eq

theorem Entered.mono {t t' : Chunk.Tables} (h : t.Extends t') {i : Instruction Term Tag Nat}
    {j : Instruction UInt16 UInt16 Nat} (hi : Entered t i j) : Entered t' i j :=
  Instruction.Related.mono (fun _ _ hc => h.constants _ _ hc) (fun _ _ ht => h.tags _ _ ht)
    (fun _ _ hl => hl) hi

theorem enter_eq_ok {t t' : Chunk.Tables} {i : Instruction Term Tag Nat}
    {j : Instruction UInt16 UInt16 Nat} (ht : t.Indexed) (h : enter t i = .ok (j, t')) :
    t'.Indexed ∧ t.Extends t' ∧ Entered t' i j := by
  cases i with
  | pushConstant c =>
    obtain ⟨⟨n, t₁⟩, hn, hj⟩ := Except.bind_eq_ok.mp h
    cases hj
    obtain ⟨h₁, h₂, h₃⟩ := Chunk.Tables.addConstant_eq_ok ht hn
    exact ⟨h₁, h₂, .pushConstant h₃⟩
  | createCompound tag =>
    obtain ⟨⟨n, t₁⟩, hn, hj⟩ := Except.bind_eq_ok.mp h
    cases hj
    obtain ⟨h₁, h₂, h₃⟩ := Chunk.Tables.addTag_eq_ok ht hn
    exact ⟨h₁, h₂, .createCompound h₃⟩
  | call tag =>
    obtain ⟨⟨n, t₁⟩, hn, hj⟩ := Except.bind_eq_ok.mp h
    cases hj
    obtain ⟨h₁, h₂, h₃⟩ := Chunk.Tables.addTag_eq_ok ht hn
    exact ⟨h₁, h₂, .call h₃⟩
  | jump l => cases h; exact ⟨ht, .refl t, .jump rfl⟩
  | tryMeElse l => cases h; exact ⟨ht, .refl t, .tryMeElse rfl⟩
  | retryMeElse l => cases h; exact ⟨ht, .refl t, .retryMeElse rfl⟩
  | _ => cases h; exact ⟨ht, .refl t, by constructor⟩

/-- The layout of some lines. -/
structure Of (ls : List Line) (l : Layout) : Prop where
  /-- The tables are indexed. -/
  indexed : l.tables.Indexed
  /-- The offset behind the lines. -/
  offset : l.offset = Program.offset ls
  /-- The instructions of the lines, entered. -/
  instructions : List.Forall₂ (Entered l.tables) (ls.filterMap Line.instruction?)
    l.instructions.toList
  /-- The places of the labels. -/
  places : ∀ n o, Places ls n o ↔ l.places[n]? = some o

theorem Of.empty : Of [] empty where
  indexed := ⟨fun k n h => by simp [Layout.empty, Chunk.Tables.empty] at h,
    fun k n h => by simp [Layout.empty, Chunk.Tables.empty] at h⟩
  offset := rfl
  instructions := .nil
  places := fun n o => ⟨fun ⟨before, after, h, _⟩ => by simp at h, fun h => by simp [Layout.empty] at h⟩

theorem Of.addLine {ls : List Line} {l l' : Layout} {x : Line} (hl : Of ls l)
    (h : l.addLine x = .ok l') : Of (ls ++ [x]) l' := by
  cases x with
  | label n =>
    cases h
    refine ⟨hl.indexed, by simpa [Line.size] using hl.offset, ?_, fun m o => ?_⟩
    · simpa only [List.filterMap_append, List.filterMap_cons, Line.instruction?, List.filterMap_nil,
        List.append_nil] using hl.instructions
    · rw [places_concat, hl.places m o]
      by_cases hne : n = m
      · subst hne
        simp [hl.offset, eq_comm]
      · simp [Std.TreeMap.getElem?_insert, hne]
  | instruction i =>
    obtain ⟨⟨j, tables⟩, hi, hj⟩ := Except.bind_eq_ok.mp h
    cases hj
    obtain ⟨hindexed, hext, hentered⟩ := enter_eq_ok hl.indexed hi
    refine ⟨hindexed, by simp [hl.offset, Line.size, hentered.size_eq], ?_, fun m o => ?_⟩
    · simp only [List.filterMap_append, Array.toList_push]
      exact List.rel_append (hl.instructions.imp fun _ _ h => h.mono hext) (.cons hentered .nil)
    · rw [places_concat, hl.places m o]
      simp

theorem Of.foldlM (ls' : List Line) : ∀ {ls : List Line} {l l' : Layout}, Of ls l →
    ls'.foldlM Layout.addLine l = .ok l' → Of (ls ++ ls') l' := by
  induction ls' with
  | nil =>
    intro ls l l' hl h
    cases h
    rwa [List.append_nil]
  | cons x ls' ih =>
    intro ls l l' hl h
    obtain ⟨l₁, hx, h⟩ := Except.bind_eq_ok.mp h
    simpa using ih (hl.addLine hx) h

/-- An instruction with its place given by an offset. -/
def Resolved (l : Layout) :
    Instruction UInt16 UInt16 Nat → Instruction UInt16 UInt16 UInt32 → Prop :=
  Instruction.Related Eq Eq fun n o => l.places[n]? = some o.toNat

theorem place_eq_ok {l : Layout} {n : Nat} {o : UInt32} (h : l.place n = .ok o) :
    l.places[n]? = some o.toNat := by
  unfold place at h
  split at h
  · cases h
  · rename_i m hm
    split at h
    · rename_i hlt
      cases h
      rw [hm, UInt32.toNat_ofNat_of_lt' hlt]
    · cases h

theorem resolve_eq_ok {l : Layout} {i : Instruction UInt16 UInt16 Nat}
    {j : Instruction UInt16 UInt16 UInt32} (h : l.resolve i = .ok j) : Resolved l i j := by
  cases i with
  | jump n =>
    obtain ⟨o, hn, hj⟩ := Except.bind_eq_ok.mp h
    cases hj
    exact .jump (place_eq_ok hn)
  | tryMeElse n =>
    obtain ⟨o, hn, hj⟩ := Except.bind_eq_ok.mp h
    cases hj
    exact .tryMeElse (place_eq_ok hn)
  | retryMeElse n =>
    obtain ⟨o, hn, hj⟩ := Except.bind_eq_ok.mp h
    cases hj
    exact .retryMeElse (place_eq_ok hn)
  | pushConstant n => cases h; exact .pushConstant rfl
  | createCompound n => cases h; exact .createCompound rfl
  | call n => cases h; exact .call rfl
  | _ => cases h; constructor

end Layout

/-! ### Packing -/

/-- The bytes of the instructions are those of their resolved forms. -/
theorem Layout.toList_code (l : Layout) (is : List (Instruction UInt16 UInt16 Nat)) :
    ∀ {code code' : Array UInt8},
      is.foldlM (fun (code : Array UInt8) i => do
        return (← l.resolve i).encode.foldl .push code) code = Except.ok code' →
      ∃ js, List.Forall₂ l.Resolved is js ∧ code'.toList = code.toList ++ js.flatMap (·.encode) := by
  induction is with
  | nil =>
    intro code code' h
    cases h
    exact ⟨[], .nil, by simp⟩
  | cons i is ih =>
    intro code code' h
    obtain ⟨code₁, hi, h⟩ := Except.bind_eq_ok.mp h
    obtain ⟨j, hj, hcode₁⟩ := Except.bind_eq_ok.mp hi
    cases hcode₁
    obtain ⟨js, hjs, hcode⟩ := ih h
    exact ⟨j :: js, .cons (Layout.resolve_eq_ok hj) hjs, by simp [hcode]⟩

theorem forall₂_append_cons {α β : Type} {R : α → β → Prop} {i : α} {after : List α} :
    ∀ {before : List α} {js : List β}, List.Forall₂ R (before ++ i :: after) js →
      ∃ before' j after', js = before' ++ j :: after' ∧ List.Forall₂ R before before' ∧ R i j
  | [], _ :: js, .cons h _ => ⟨[], _, js, rfl, .nil, h⟩
  | _ :: _, _ :: _, .cons h hs => by
    obtain ⟨before', j, after', rfl, hbefore, hij⟩ := forall₂_append_cons hs
    exact ⟨_ :: before', j, after', rfl, .cons h hbefore, hij⟩

/-- The handlers of packed code are those of the program, with their places given by offsets. -/
structure PackedHandler (ls : List Line) (h : Handler) (h' : Chunk.Handler) : Prop where
  /-- The start of the range. -/
  start : Places ls h.start h'.start.toNat
  /-- The end of the range. -/
  stop : Places ls h.stop h'.stop.toNat
  /-- The place that balls go to. -/
  target : Places ls h.target h'.target.toNat
  /-- The slot. -/
  slot : h'.slot = h.slot

/-- Packed code holds the lines of its program. -/
structure Packing (p : Program) (c : Chunk) : Prop where
  /-- Every instruction is read at the offset of its line. -/
  fetch : ∀ before i after, p.lines.toList = before ++ .instruction i :: after →
    ∃ j, c.fetch (offset before) = .ok (j, offset before + i.size) ∧
      c.Packs (fun n o => ∀ o', Places p.lines.toList n o' → o.toNat = o') i j
  /-- The handlers, in order. -/
  handlers : List.Forall₂ (PackedHandler p.lines.toList) p.handlers.toList c.handlers.toList
  /-- The number of arguments. -/
  arity : c.arity = p.arity
  /-- The number of slots. -/
  slots : c.slots = p.slots

theorem Layout.resolveHandler_eq_ok {ls : List Line} {l : Layout} (hl : l.Of ls) {h : Handler}
    {h' : Chunk.Handler} (hr : l.resolveHandler h = .ok h') : PackedHandler ls h h' := by
  obtain ⟨start, hstart, hr⟩ := Except.bind_eq_ok.mp hr
  obtain ⟨stop, hstop, hr⟩ := Except.bind_eq_ok.mp hr
  obtain ⟨target, htarget, hr⟩ := Except.bind_eq_ok.mp hr
  cases hr
  exact ⟨(hl.places _ _).mpr (place_eq_ok hstart), (hl.places _ _).mpr (place_eq_ok hstop),
    (hl.places _ _).mpr (place_eq_ok htarget), rfl⟩

theorem Layout.forall₂_mapM_resolveHandler {ls : List Line} {l : Layout} (hl : l.Of ls) :
    ∀ {hs : List Handler} {hs' : List Chunk.Handler}, hs.mapM l.resolveHandler = .ok hs' →
      List.Forall₂ (PackedHandler ls) hs hs'
  | [], _, h => by
    cases h
    exact .nil
  | _ :: _, _, h => by
    rw [List.mapM_cons] at h
    obtain ⟨h', hh', h⟩ := Except.bind_eq_ok.mp h
    obtain ⟨hs', hhs', h⟩ := Except.bind_eq_ok.mp h
    cases h
    exact .cons (resolveHandler_eq_ok hl hh') (forall₂_mapM_resolveHandler hl hhs')

/-- What packing a program goes through: the layout of its lines, and the instructions with their places
given by offsets. -/
structure Stages (p : Program) (c : Chunk) (l : Layout) (js : List (Instruction UInt16 UInt16 UInt32)) :
    Prop where
  /-- The lines are laid out. -/
  layout : p.lines.toList.foldlM Layout.addLine .empty = .ok l
  /-- So the layout is that of the lines. -/
  lines : l.Of p.lines.toList
  /-- The labels are replaced by offsets. -/
  resolved : List.Forall₂ l.Resolved l.instructions.toList js
  /-- The instructions are written one after the other. -/
  code : c.code.toList = js.flatMap (·.encode)
  /-- The labels of the handlers are replaced by offsets. -/
  handlers : p.handlers.toList.mapM l.resolveHandler = .ok c.handlers.toList
  /-- The rest is taken over. -/
  rest : c = ⟨p.name, p.arity, p.slots, c.code, l.tables.tags, l.tables.constants, c.handlers⟩

theorem stages_of_assemble {p : Program} {c : Chunk} (h : p.assemble = .ok c) :
    ∃ l js, p.Stages c l js := by
  obtain ⟨l, hlayout, h⟩ := Except.bind_eq_ok.mp h
  obtain ⟨code, hcode, h⟩ := Except.bind_eq_ok.mp h
  obtain ⟨handlers, hhandlers, h⟩ := Except.bind_eq_ok.mp h
  cases h
  rw [← Array.foldlM_toList] at hlayout hcode
  obtain ⟨js, hjs, hbytes⟩ := l.toList_code _ hcode
  refine ⟨l, js, hlayout, by simpa using Layout.Of.empty.foldlM _ hlayout, hjs, by simpa using hbytes, ?_,
    rfl⟩
  rw [← Array.toList_mapM, hhandlers]
  rfl

/-- The instructions of a program and those of its packed code, in order. -/
theorem Stages.packs {p : Program} {c : Chunk} {l : Layout}
    {js : List (Instruction UInt16 UInt16 UInt32)} (h : p.Stages c l js) :
    List.Forall₂ (c.Packs fun n o => Places p.lines.toList n o.toNat) p.instructions js := by
  have hpacks {i : Instruction Term Tag Nat} {i' : Instruction UInt16 UInt16 Nat}
      {j : Instruction UInt16 UInt16 UInt32} (hi : Layout.Entered l.tables i i') (hj : l.Resolved i' j) :
      c.Packs (fun n o => Places p.lines.toList n o.toNat) i j := by
    rw [h.rest]
    exact hi.comp (fun _ _ _ hc hc' => hc' ▸ hc) (fun _ _ _ ht ht' => ht' ▸ ht)
      (fun _ _ _ hn ho => (h.lines.places _ _).mpr (hn ▸ ho)) hj
  have hentered := h.lines.instructions
  have hresolved := h.resolved
  clear h
  unfold instructions
  generalize p.lines.toList.filterMap Line.instruction? = is at hentered
  generalize l.instructions.toList = is' at hentered hresolved
  induction hentered generalizing js with
  | nil =>
    cases hresolved
    exact .nil
  | cons hi _ ih =>
    cases hresolved with
    | cons hj hrest => exact .cons (hpacks hi hj) (ih hrest)

/-- What is packed holds the lines of the program. -/
theorem packing_of_assemble {p : Program} {c : Chunk} (h : p.assemble = .ok c) : p.Packing c := by
  obtain ⟨l, js, hstages⟩ := stages_of_assemble h
  have hrest := hstages.rest
  refine ⟨fun before i after hlines => ?_, Layout.forall₂_mapM_resolveHandler hstages.lines
    hstages.handlers, congrArg Chunk.arity hrest, congrArg Chunk.slots hrest⟩
  -- the instruction stands in both lists at the same place
  have hpacks := hstages.packs
  rw [instructions, hlines, List.filterMap_append, List.filterMap_cons] at hpacks
  obtain ⟨before', j, after', hjs, hbefore', hj⟩ := forall₂_append_cons hpacks
  have hoffset : (before'.flatMap (·.encode)).length = offset before := by
    rw [Instruction.length_flatMap_encode, Instruction.map_size_eq hbefore', ← offset_eq_total]
  have hsplit : c.code.toList = before'.flatMap (·.encode) ++ j.encode ++
      after'.flatMap (·.encode) := by simp [hstages.code, hjs]
  refine ⟨j, ?_, hj.mono (fun _ _ h => h) (fun _ _ h => h) fun n o hn o' ho' => ?_⟩
  · rw [← hoffset, ← hj.size_eq]
    exact Chunk.fetch_append hsplit
  · rw [← hlines] at hn
    exact hn.unique ho'

end Program

end Resolvent
