import Resolvent.Proofs.Goals
import Resolvent.Proofs.Standing

/-!
# The compiler writes the code of the goals

The second pass of the compiler writes lines and handlers behind those written before, so what it
writes for a goal stands in the program at the end, and in the packed code. `Emits` says of two
states of the pass which labels have been placed in between and what stands in the code there; it is
put together along the steps of the pass (`Emits.seq`). A label is placed once, because it is new
when it is made; so the places in the packed code are those of the labels.

Handlers are looked for from the first to the last. The handlers written before some code end before
it, and those written behind it and not around it start behind it, so the first one that covers the
code is the innermost one around it.
-/

namespace Resolvent

namespace Program

/-- The labels that lines place. -/
def labels (ls : List Line) : List Nat :=
  ls.filterMap fun
    | .label n => some n
    | .instruction _ => none

@[simp] theorem labels_append (ls ls' : List Line) : labels (ls ++ ls') = labels ls ++ labels ls' :=
  List.filterMap_append

@[simp] theorem labels_instruction (i : Instruction Term Tag Nat) : labels [.instruction i] = [] :=
  rfl

@[simp] theorem labels_label (n : Nat) : labels [.label n] = [n] := rfl

theorem mem_labels {ls : List Line} {n : Nat} : n ∈ labels ls ↔ .label n ∈ ls := by
  simp only [labels, List.mem_filterMap]
  constructor
  · rintro ⟨l, hl, h⟩
    cases l with
    | instruction i => cases h
    | label m => exact Option.some.inj h ▸ hl
  · exact fun h => ⟨_, h, rfl⟩

theorem offset_instruction (i : Instruction Term Tag Nat) : offset [.instruction i] = i.size := rfl

/-- Where every label is placed once, it is placed where it stands. -/
theorem places_of_nodup {before after : List Line} {n : Nat}
    (h : (labels (before ++ .label n :: after)).Nodup) :
    Places (before ++ .label n :: after) n (offset before) := by
  refine ⟨before, after, rfl, fun hn => ?_, rfl⟩
  rw [labels_append, List.nodup_append] at h
  have hafter : labels (.label n :: after) = n :: labels after := rfl
  rw [hafter, List.nodup_cons] at h
  exact h.2.1.1 (mem_labels.mpr hn)

namespace Emitter

/-- The offset behind the lines. -/
def pc (e : Emitter) : Nat :=
  offset e.lines.toList

/-- The state is one on the way to the program, whose labels are placed once each. -/
structure Within (e : Emitter) (p : Program) : Prop where
  /-- The lines stand in the program. -/
  lines : e.lines.toList <+: p.lines.toList
  /-- The handlers stand in the program. -/
  handlers : e.handlers.toList <+: p.handlers.toList
  /-- Every label is placed once. -/
  nodup : (labels p.lines.toList).Nodup

end Emitter

namespace Emit

variable {p : Program} {c : Chunk} {G : Nat → Prop}

/-- Handlers before number `k` end before `pc`; those from number `k'` on cover all offsets from `pc` up
to `pc'` or none, and the first one that covers them is `h`. -/
structure Surrounds (c : Chunk) (h : Option Chunk.Handler) (pc k pc' k' : Nat) : Prop where
  /-- Those before. -/
  before : ∀ x ∈ c.handlers.toList.take k, x.stop.toNat ≤ pc
  /-- Those behind. -/
  after : ∀ o, pc ≤ o → o < pc' → (c.handlers.toList.drop k').find? (·.covers o) = h
  /-- They cover all offsets or none. -/
  uniform : ∀ x ∈ c.handlers.toList.drop k', x.Uniform pc pc'

/-- Handlers from number `k` up to number `k'` have their ranges between the offsets. -/
def Encloses (c : Chunk) (pc k pc' k' : Nat) : Prop :=
  ∀ x ∈ (c.handlers.toList.take k').drop k, pc ≤ x.start.toNat ∧ x.stop.toNat ≤ pc'

/-- Between two states of the pass the labels `ls` have been placed; `P h` holds of the code between
them where balls go to `h`, and `G` of the numbers of its handlers. -/
structure Emits (p : Program) (c : Chunk) (G : Nat → Prop) (e e' : Emitter) (ls : List Nat)
    (P : Option Chunk.Handler → Prop) : Prop where
  /-- Lines have been written behind the others. -/
  lines : e.lines.toList <+: e'.lines.toList
  /-- Handlers have been written behind the others. -/
  handlers : e.handlers.toList <+: e'.handlers.toList
  /-- Labels have been placed. -/
  labels : labels e'.lines.toList = labels e.lines.toList ++ ls
  /-- What stands in the code. -/
  code : e'.Within p → Encloses c e.pc e.handlers.size e'.pc e'.handlers.size ∧
    ∀ h, Surrounds c h e.pc e.handlers.size e'.pc e'.handlers.size →
      P h ∧ ∀ j, e.handlers.size ≤ j → j < e'.handlers.size → G j

theorem Emits.within {e e' : Emitter} {ls : List Nat} {P : Option Chunk.Handler → Prop}
    (h : Emits p c G e e' ls P) (h' : e'.Within p) : e.Within p :=
  ⟨h.lines.trans h'.lines, h.handlers.trans h'.handlers, h'.nodup⟩

theorem Emits.pc_le {e e' : Emitter} {ls : List Nat} {P : Option Chunk.Handler → Prop}
    (h : Emits p c G e e' ls P) : e.pc ≤ e'.pc := by
  obtain ⟨l, hl⟩ := h.lines
  rw [Emitter.pc, Emitter.pc, ← hl, offset_append]
  omega

theorem Emits.size_le {e e' : Emitter} {ls : List Nat} {P : Option Chunk.Handler → Prop}
    (h : Emits p c G e e' ls P) : e.handlers.size ≤ e'.handlers.size := by
  simpa using h.handlers.length_le

theorem Emits.imp {e e' : Emitter} {ls : List Nat} {P Q : Option Chunk.Handler → Prop}
    (h : Emits p c G e e' ls P) (hPQ : ∀ k, P k → Q k) : Emits p c G e e' ls Q :=
  ⟨h.lines, h.handlers, h.labels, fun hw =>
    ⟨(h.code hw).1, fun k hk => ((h.code hw).2 k hk).imp_left (hPQ k)⟩⟩

/-- The elements up to number `k` are those up to number `j` and those from there on. -/
theorem take_eq_append {α : Type} (l : List α) {j k : Nat} (h : j ≤ k) :
    l.take k = l.take j ++ (l.take k).drop j := by
  have hsplit := List.take_append_drop j (l.take k)
  rw [List.take_take, Nat.min_eq_left h] at hsplit
  exact hsplit.symm

/-- The elements from number `j` on are those up to number `k` and those from there on. -/
theorem drop_eq_append {α : Type} (l : List α) {j k : Nat} (h : j ≤ k) :
    l.drop j = (l.take k).drop j ++ l.drop k := by
  have hsplit := List.take_append_drop (k - j) (l.drop j)
  rw [List.drop_drop, Nat.add_sub_cancel' h] at hsplit
  rw [List.drop_take, hsplit]

theorem mem_drop_take_of_le {α : Type} {l : List α} {i j k : Nat} {x : α} (h : j ≤ k)
    (hx : x ∈ (l.take k).drop i) : x ∈ (l.take j).drop i ∨ x ∈ (l.take k).drop j := by
  rw [take_eq_append l h, List.drop_append] at hx
  obtain hx | hx := List.mem_append.mp hx
  · exact .inl hx
  · exact .inr (List.mem_of_mem_drop hx)

/-- One piece of code behind another. -/
theorem Emits.seq {e₁ e₂ e₃ : Emitter} {ls ls' : List Nat} {P Q : Option Chunk.Handler → Prop}
    (h : Emits p c G e₁ e₂ ls P) (h' : Emits p c G e₂ e₃ ls' Q) :
    Emits p c G e₁ e₃ (ls ++ ls') fun k => P k ∧ Q k := by
  refine ⟨h.lines.trans h'.lines, h.handlers.trans h'.handlers, by
    rw [h'.labels, h.labels, List.append_assoc], fun hw => ?_⟩
  obtain ⟨henclosed, hP⟩ := h.code (h'.within hw)
  obtain ⟨henclosed', hQ⟩ := h'.code hw
  refine ⟨fun x hx => ?_, fun k hk => ?_⟩
  · obtain hx | hx := mem_drop_take_of_le h'.size_le hx
    · exact ⟨(henclosed x hx).1, Nat.le_trans (henclosed x hx).2 h'.pc_le⟩
    · exact ⟨Nat.le_trans h.pc_le (henclosed' x hx).1, (henclosed' x hx).2⟩
  have hfirst : Surrounds c k e₁.pc e₁.handlers.size e₂.pc e₂.handlers.size := by
    refine ⟨hk.before, fun o hlo hhi => ?_, fun x hx => ?_⟩
    · -- the handlers of the second piece start behind the first one
      rw [← hk.after o hlo (Nat.lt_of_lt_of_le hhi h'.pc_le), drop_eq_append _ h'.size_le,
        List.find?_append, List.find?_eq_none.mpr, Option.none_or]
      intro x hx
      have := (henclosed' x hx).1
      simp only [Chunk.Handler.covers, Bool.and_eq_true, decide_eq_true_eq]
      omega
    · rw [drop_eq_append _ h'.size_le] at hx
      obtain hx | hx := List.mem_append.mp hx
      · exact Chunk.Handler.uniform_of_le_start (henclosed' x hx).1
      · exact (hk.uniform x hx).mono (Nat.le_refl _) h'.pc_le
  have hsecond : Surrounds c k e₂.pc e₂.handlers.size e₃.pc e₃.handlers.size := by
    refine ⟨fun x hx => ?_, fun o hlo hhi => hk.after o (Nat.le_trans h.pc_le hlo) hhi,
      fun x hx => (hk.uniform x hx).mono h.pc_le (Nat.le_refl _)⟩
    rw [take_eq_append _ h.size_le] at hx
    obtain hx | hx := List.mem_append.mp hx
    · exact Nat.le_trans (hk.before x hx) h.pc_le
    · exact (henclosed x hx).2
  obtain ⟨hP, hcatches⟩ := hP k hfirst
  obtain ⟨hQ, hcatches'⟩ := hQ k hsecond
  refine ⟨⟨hP, hQ⟩, fun j hlo hhi => ?_⟩
  obtain hj | hj := Nat.lt_or_ge j e₂.handlers.size
  · exact hcatches j hlo hj
  · exact hcatches' j hj hhi

/-! ### Single steps -/

/-- The instruction is read at `pc` of packed code, where places stand for labels of the program. -/
structure StandsLine (p : Program) (c : Chunk) (h : Option Chunk.Handler) (pc : Nat)
    (i : Instruction Term Tag Nat) (next : Nat) : Prop where
  /-- It is read there. -/
  fetch : ∃ j, c.fetch pc = .ok (j, next) ∧
    c.Packs (fun n o => ∀ o', Places p.lines.toList n o' → o.toNat = o') i j
  /-- Balls go to the handler. -/
  handler : c.handlerFor? pc = h

/-- Code without handlers of its own has the handler that surrounds it. -/
theorem Surrounds.handlerFor? {h : Option Chunk.Handler} {pc k pc' o : Nat}
    (hk : Surrounds c h pc k pc' k) (hlo : pc ≤ o) (hhi : o < pc') : c.handlerFor? o = h := by
  rw [← hk.after o hlo hhi, Chunk.handlerFor?, ← Array.find?_toList]
  conv_lhs => rw [← List.take_append_drop k c.handlers.toList]
  rw [List.find?_append, List.find?_eq_none.mpr, Option.none_or]
  intro x hx
  have := hk.before x hx
  simp only [Chunk.Handler.covers, Bool.and_eq_true, decide_eq_true_eq]
  omega

theorem size_pos (i : Instruction Term Tag Nat) : 0 < i.size := by
  rw [Instruction.size]
  omega

/-- Lines written without labels and handlers. -/
theorem emits_of_wrote {e e' : Emitter} {ls : List Line} {P : Option Chunk.Handler → Prop}
    (h : Wrote e e' ls) (hls : labels ls = [])
    (hP : ∀ before after, p.lines.toList = before ++ ls ++ after → e.pc = offset before →
      ∀ k, Surrounds c k e.pc e.handlers.size e'.pc e.handlers.size → P k) :
    Emits p c G e e' [] P := by
  have hhandlers : e'.handlers = e.handlers := by rw [h.rest]
  refine ⟨⟨ls, h.lines.symm⟩, hhandlers ▸ List.prefix_refl _, by simp [h.lines, hls],
    fun hw => ⟨?_, fun k hk => ⟨?_, fun j hlo hhi => ?_⟩⟩⟩
  · intro x hx
    simp [hhandlers] at hx
  · obtain ⟨after, hafter⟩ := hw.lines
    rw [hhandlers] at hk
    exact hP e.lines.toList after (by rw [← hafter, h.lines]) rfl k hk
  · rw [hhandlers] at hhi
    omega

/-- The counters stand still. -/
structure Still (e e' : Emitter) : Prop where
  /-- No slot has been taken. -/
  nextSlot : e'.nextSlot = e.nextSlot
  /-- The last slot is kept. -/
  lastSlot : e'.lastSlot = e.lastSlot
  /-- No label has been made. -/
  nextLabel : e'.nextLabel = e.nextLabel

theorem Wrote.still {e e' : Emitter} {ls : List Line} (h : Wrote e e' ls) : Still e e' := by
  rw [h.rest]
  exact ⟨rfl, rfl, rfl⟩

/-- The labels are new ones, placed once each. -/
structure Fresh (e e' : Emitter) (ls : List Nat) : Prop where
  /-- Each once. -/
  nodup : ls.Nodup
  /-- They are new. -/
  mem : ∀ n ∈ ls, e.nextLabel ≤ n ∧ n < e'.nextLabel
  /-- Labels have been made. -/
  nextLabel : e.nextLabel ≤ e'.nextLabel
  /-- The last slot is kept. -/
  lastSlot : e'.lastSlot = e.lastSlot

theorem Fresh.perm {e e' : Emitter} {ls ls' : List Nat} (h : Fresh e e' ls) (hp : ls'.Perm ls) :
    Fresh e e' ls' :=
  ⟨hp.nodup_iff.mpr h.nodup, fun n hn => h.mem n (hp.mem_iff.mp hn), h.nextLabel, h.lastSlot⟩

theorem Fresh.congr {e e' e'' : Emitter} {ls : List Nat} (h : Fresh e e' ls)
    (hnext : e''.nextLabel = e'.nextLabel) (hlast : e''.lastSlot = e'.lastSlot) :
    Fresh e e'' ls :=
  ⟨h.nodup, fun n hn => hnext ▸ h.mem n hn, hnext ▸ h.nextLabel, hlast.trans h.lastSlot⟩

theorem Still.trans {e₁ e₂ e₃ : Emitter} (h : Still e₁ e₂) (h' : Still e₂ e₃) : Still e₁ e₃ :=
  ⟨h'.nextSlot.trans h.nextSlot, h'.lastSlot.trans h.lastSlot, h'.nextLabel.trans h.nextLabel⟩

theorem Still.fresh {e e' : Emitter} (h : Still e e') : Fresh e e' [] :=
  ⟨List.nodup_nil, nofun, Nat.le_of_eq h.nextLabel.symm, h.lastSlot⟩

theorem Fresh.append {e₁ e₂ e₃ : Emitter} {ls ls' : List Nat} (h : Fresh e₁ e₂ ls)
    (h' : Fresh e₂ e₃ ls') : Fresh e₁ e₃ (ls ++ ls') := by
  refine ⟨List.nodup_append.mpr ⟨h.nodup, h'.nodup, fun m hm n hn he => ?_⟩, fun n hn => ?_,
    Nat.le_trans h.nextLabel h'.nextLabel, h'.lastSlot.trans h.lastSlot⟩
  · have := h.mem m hm
    have := h'.mem n hn
    omega
  · obtain hn | hn := List.mem_append.mp hn
    · exact ⟨(h.mem n hn).1, Nat.lt_of_lt_of_le (h.mem n hn).2 h'.nextLabel⟩
    · exact ⟨Nat.le_trans h.nextLabel (h'.mem n hn).1, (h'.mem n hn).2⟩

theorem emits_of_emit (G : Nat → Prop) (hp : p.Packing c) {i : Instruction Term Tag Nat} {e e' : Emitter}
    (h : emit i e = .ok () e') :
    Emits p c G e e' [] (fun k => StandsLine p c k e.pc i e'.pc) ∧ Still e e' := by
  cases h
  have hwrote := wrote_emit i e
  refine ⟨emits_of_wrote hwrote rfl fun before after hlines hpc k hk => ?_, hwrote.still⟩
  obtain ⟨j, hfetch, hpacks⟩ := hp.fetch before i after (by simpa using hlines)
  have hpc' : ({ e with lines := e.lines.push (.instruction i) } : Emitter).pc =
      offset before + i.size := by
    rw [← hpc, Emitter.pc, hwrote.lines, offset_append, offset_instruction]
    rfl
  have hsize := size_pos i
  rw [hpc, hpc'] at hk ⊢
  exact ⟨⟨j, hfetch, hpacks⟩, hk.handlerFor? (Nat.le_refl _) (by omega)⟩

/-- A label is placed where it stands. -/
theorem places_of_place {n : Nat} {e e' : Emitter} (h : place n e = .ok () e')
    (hw : e'.Within p) : Places p.lines.toList n e.pc := by
  cases h
  obtain ⟨after, hafter⟩ := hw.lines
  have hlines : p.lines.toList = e.lines.toList ++ .label n :: after := by
    rw [← hafter]
    simp
  have hnodup := hw.nodup
  rw [hlines] at hnodup ⊢
  exact places_of_nodup hnodup

theorem pc_of_place {n : Nat} {e e' : Emitter} (h : place n e = .ok () e') : e'.pc = e.pc := by
  cases h
  simp [Emitter.pc, Line.size]

theorem emits_of_place (G : Nat → Prop) {n : Nat} {e e' : Emitter} (h : place n e = .ok () e') :
    Emits p c G e e' [n] (fun _ => Places p.lines.toList n e.pc ∧ e'.pc = e.pc) ∧ Still e e' := by
  have hplaces := places_of_place (p := p) h
  have hpc := pc_of_place h
  cases h
  refine ⟨⟨⟨[.label n], by simp⟩, List.prefix_refl _, by simp, fun hw => ⟨fun x hx => ?_, fun _ _ =>
    ⟨⟨hplaces hw, hpc⟩, fun j hlo hhi => ?_⟩⟩⟩, ⟨rfl, rfl, rfl⟩⟩
  · simp at hx
  · exact absurd hhi (Nat.not_lt_of_le hlo)

/-- Steps that write nothing. -/
theorem emits_of_eq {e e' : Emitter} (hlines : e'.lines = e.lines)
    (hhandlers : e'.handlers = e.handlers) : Emits p c G e e' [] fun _ => e'.pc = e.pc := by
  refine ⟨hlines ▸ List.prefix_refl _, hhandlers ▸ List.prefix_refl _, by simp [hlines],
    fun _ => ⟨fun x hx => ?_, fun _ _ => ⟨by rw [Emitter.pc, hlines]; rfl, fun j hlo hhi => ?_⟩⟩⟩
  · simp [hhandlers] at hx
  · rw [hhandlers] at hhi
    omega

theorem emits_of_label (G : Nat → Prop) {n : Nat} {e e' : Emitter} (h : label e = .ok n e') :
    Emits p c G e e' [] (fun _ => e'.pc = e.pc) ∧ e'.nextSlot = e.nextSlot ∧ Fresh e e' [n] := by
  cases h
  refine ⟨emits_of_eq rfl rfl, rfl, by simp, fun n hn => ?_, Nat.le_succ _, rfl⟩
  obtain rfl := List.mem_singleton.mp hn
  exact ⟨Nat.le_refl _, Nat.lt_succ_self _⟩

theorem emits_of_reserve (G : Nat → Prop) {n : UInt16} {e e' : Emitter} (hlast : e.lastSlot < 65536)
    (h : reserve e = .ok n e') :
    Emits p c G e e' [] (fun _ => e'.pc = e.pc) ∧ n.toNat = e.nextSlot ∧
      e'.nextSlot = e.nextSlot + 1 ∧ Fresh e e' [] := by
  obtain ⟨e₁, e₂, h₁, h₂⟩ := bind_eq_ok.mp h
  cases h₁
  split at h₂
  · cases h₂
    refine ⟨emits_of_eq rfl rfl, UInt16.toNat_ofNat_of_lt' ?_, rfl, List.nodup_nil, nofun,
      Nat.le_refl _, rfl⟩
    exact Nat.lt_of_le_of_lt ‹_› hlast
  · cases h₂

/-- A slot is one of those set apart. -/
theorem le_of_reserve {n : UInt16} {e e' : Emitter} (h : reserve e = .ok n e') :
    e.nextSlot ≤ e.lastSlot := by
  obtain ⟨e₁, e₂, h₁, h₂⟩ := bind_eq_ok.mp h
  cases h₁
  split at h₂
  · assumption
  · cases h₂

/-- An instruction that stands in the code with labels stands there with the places of these. -/
theorem StandsLine.stands {h : Option Chunk.Handler} {pc next : Nat}
    {i i' : Instruction Term Tag Nat} (hs : StandsLine p c h pc i next)
    (hi : Instruction.Related Eq Eq (fun o n => Places p.lines.toList n o) i' i) :
    c.Stands h pc i' next := by
  obtain ⟨j, hj, hpacks⟩ := hs.fetch
  exact ⟨⟨j, hj, hi.comp (fun _ _ _ h h' => h ▸ h') (fun _ _ _ h h' => h ▸ h')
    (fun o n a h h' => h' o h) hpacks⟩, hs.handler⟩

/-! ### Trees -/

section Trees

variable {slots : Slots} {h : Option Chunk.Handler}

/-- The instruction of a line, if it names no place, stands in the code. -/
theorem stands_of_lines (hp : p.Packing c) {i : Instruction Term Tag Nat} {l r : List Line}
    (hlines : p.lines.toList = l ++ .instruction i :: r)
    (hh : c.handlerFor? (offset l) = h) (hi : i.opcode.isJump = false) :
    c.Stands h (offset l) i (offset l + i.size) := by
  obtain ⟨j, hfetch, hpacks⟩ := hp.fetch l i r hlines
  refine StandsLine.stands (p := p) (i := i) ⟨⟨j, hfetch, hpacks⟩, hh⟩ ?_
  cases i with
  | jump l => cases hi
  | tryMeElse l => cases hi
  | retryMeElse l => cases hi
  | pushConstant c => exact .pushConstant rfl
  | createCompound t => exact .createCompound rfl
  | call t => exact .call rfl
  | _ => constructor

mutual

theorem builds_of_writes (hp : p.Packing c) : ∀ {t : Tree} {ls : List Line}, Writes slots t ls →
    ∀ {l r : List Line}, p.lines.toList = l ++ ls ++ r →
      (∀ o, offset l ≤ o → o < offset l + offset ls → c.handlerFor? o = h) →
      c.Builds slots h t (offset l) (offset l + offset ls)
  | _, _, @Writes.var _ v n hn, l, r, hlines, hh => by
    rw [offset_instruction] at hh ⊢
    have hsize := size_pos (.pushEnvironment n)
    exact .var hn (stands_of_lines hp (by simpa using hlines) (hh _ (Nat.le_refl _) (by omega)) rfl)
  | _, _, @Writes.constant _ t ht, l, r, hlines, hh => by
    rw [offset_instruction] at hh ⊢
    have hsize := size_pos (.pushConstant t)
    exact .constant ht
      (stands_of_lines hp (by simpa using hlines) (hh _ (Nat.le_refl _) (by omega)) rfl)
  | _, _, @Writes.compound _ tag _ ls hargs, l, r, hlines, hh => by
    rw [offset_append, offset_instruction] at hh ⊢
    have hsize := size_pos (.createCompound tag)
    have hlines' : p.lines.toList = l ++ ls ++ .instruction (.createCompound tag) :: r := by
      simpa using hlines
    refine .compound (buildsAll_of_writes hp hargs hlines' fun o hlo hhi => hh o hlo (by omega)) ?_
    rw [← Nat.add_assoc, ← offset_append]
    refine stands_of_lines hp hlines' (hh _ ?_ ?_) rfl <;> rw [offset_append] <;> omega

theorem buildsAll_of_writes (hp : p.Packing c) : ∀ {ts : List Tree} {ls : List Line},
    WritesAll slots ts ls → ∀ {l r : List Line}, p.lines.toList = l ++ ls ++ r →
      (∀ o, offset l ≤ o → o < offset l + offset ls → c.handlerFor? o = h) →
      c.BuildsAll slots h ts (offset l) (offset l + offset ls)
  | _, _, .nil, _, _, _, _ => .nil
  | _, _, @WritesAll.cons _ _ _ ls ls' ht hts, l, r, hlines, hh => by
    rw [offset_append] at hh
    have hlines' : p.lines.toList = l ++ ls ++ (ls' ++ r) := by simpa using hlines
    have hlines'' : p.lines.toList = (l ++ ls) ++ ls' ++ r := by simpa using hlines
    refine .cons (builds_of_writes hp ht hlines' fun o hlo hhi => hh o hlo (by omega)) ?_
    have hrest := buildsAll_of_writes hp hts hlines'' fun o hlo hhi => by
      rw [offset_append] at hlo hhi
      exact hh o (by omega) (by omega)
    rwa [offset_append, Nat.add_assoc, ← offset_append ls ls'] at hrest

end

mutual

theorem Writes.labels_eq : ∀ {t : Tree} {ls : List Line}, Writes slots t ls → labels ls = []
  | _, _, .var _ => rfl
  | _, _, .constant _ => rfl
  | _, _, @Writes.compound _ _ _ ls h => by
    rw [labels_append, WritesAll.labels_eq h]
    rfl

theorem WritesAll.labels_eq : ∀ {ts : List Tree} {ls : List Line}, WritesAll slots ts ls →
    labels ls = []
  | _, _, .nil => rfl
  | _, _, .cons h hs => by rw [labels_append, Writes.labels_eq h, WritesAll.labels_eq hs]; rfl

end

theorem emits_of_build (hp : p.Packing c) {t : Tree} {e e' : Emitter}
    (ht : build slots t e = .ok () e') :
    Emits p c G e e' [] (fun h => c.Builds slots h t e.pc e'.pc) ∧ Still e e' := by
  obtain ⟨ls, he, hls⟩ := writes_of_build ht
  refine ⟨emits_of_wrote he hls.labels_eq fun l r hlines hpc k hk => ?_, he.still⟩
  have hpc' : e'.pc = offset l + offset ls := by rw [← hpc, Emitter.pc, he.lines, offset_append]; rfl
  rw [hpc, hpc'] at hk ⊢
  exact builds_of_writes hp hls hlines fun o hlo hhi => hk.handlerFor? hlo hhi

theorem emits_of_buildAll (hp : p.Packing c) {ts : List Tree} {e e' : Emitter}
    (hts : ts.forM (build slots) e = .ok () e') :
    Emits p c G e e' [] (fun h => c.BuildsAll slots h ts e.pc e'.pc) ∧ Still e e' := by
  obtain ⟨ls, he, hls⟩ := writesAll_of_build hts
  refine ⟨emits_of_wrote he hls.labels_eq fun l r hlines hpc k hk => ?_, he.still⟩
  have hpc' : e'.pc = offset l + offset ls := by rw [← hpc, Emitter.pc, he.lines, offset_append]; rfl
  rw [hpc, hpc'] at hk ⊢
  exact buildsAll_of_writes hp hls hlines fun o hlo hhi => hk.handlerFor? hlo hhi

end Trees

/-! ### Handlers -/

/-- A handler around the second of three pieces of code, written behind them, the code of a goal
`catch(g, catcher, r)`. -/
theorem Emits.around (hp : p.Packing c) {e e₁ e₂ e₃ : Emitter} {ls₁ ls₂ ls₃ : List Nat}
    {P X Q : Option Chunk.Handler → Prop} (a : Emits p c G e e₁ ls₁ P)
    (x : Emits p c G e₁ e₂ ls₂ X) (b : Emits p c G e₂ e₃ ls₃ Q) {h : Handler} {o : Nat}
    (hstart : e₁.Within p → Places p.lines.toList h.start e₁.pc)
    (hstop : e₃.Within p → Places p.lines.toList h.stop e₂.pc)
    (htarget : e₃.Within p → Places p.lines.toList h.target o)
    {slots : Slots} {T : Tree → Prop} {g : List Goal} {catcher : Tree} {r : List Goal} {n n' : Nat}
    (hG : ∀ j, c.Catches slots T j → G j) (hcatcher : T catcher)
    (hn : ∀ (i : Nat) s, slots[i]? = some s → n < s.toNat)
    (hguards : ∀ (k : Option Chunk.Handler) (h' : Chunk.Handler), h'.start.toNat = e₁.pc →
      h'.stop.toNat = e₂.pc → h'.target.toNat = o → h'.slot = h.slot → P k → X (some h') → Q k →
        c.Guards slots k h' g catcher r e.pc n e₃.pc n') :
    Emits p c G e { e₃ with handlers := e₃.handlers.push h } (ls₁ ++ (ls₂ ++ ls₃)) fun k =>
      ∃ h', c.Guards slots k h' g catcher r e.pc n e₃.pc n' := by
  have code := a.seq (x.seq b)
  refine ⟨code.lines, ?_, code.labels, fun hw => ?_⟩
  · simp only [Array.toList_push]
    exact code.handlers.trans (List.prefix_append _ _)
  have hw₃ : e₃.Within p := by
    refine ⟨hw.lines, .trans ?_ hw.handlers, hw.nodup⟩
    simp
  have hw₂ := b.within hw₃
  have hw₁ := x.within hw₂
  -- the packed handler
  obtain ⟨h', hh', hpacked⟩ : ∃ h', c.handlers.toList[e₃.handlers.size]? = some h' ∧
      PackedHandler p.lines.toList h h' := by
    obtain ⟨rest, hrest⟩ := hw.handlers
    have hall := hp.handlers
    rw [← hrest, Array.toList_push, List.append_assoc] at hall
    obtain ⟨before, h', after, hlist, hbefore, hh'⟩ := forall₂_append_cons hall
    refine ⟨h', ?_, hh'⟩
    rw [hlist, Array.size_eq_length_toList, hbefore.length_eq]
    simp
  have hstart' := hpacked.start.unique (hstart hw₁)
  have hstop' := hpacked.stop.unique (hstop hw₃)
  have hdrop : c.handlers.toList.drop e₃.handlers.size =
      h' :: c.handlers.toList.drop (e₃.handlers.size + 1) := by
    obtain ⟨hlt, hget⟩ := List.getElem?_eq_some_iff.mp hh'
    rw [List.drop_eq_getElem_cons hlt, hget]
  obtain ⟨ea, hP⟩ := a.code hw₁
  obtain ⟨ex, hX⟩ := x.code hw₂
  obtain ⟨eb, hQ⟩ := b.code hw₃
  have hall := (code.code hw₃).1
  have lea := a.pc_le
  have lex := x.pc_le
  have leb := b.pc_le
  simp only [Array.size_push]
  have uncovered {l : List Chunk.Handler} {o : Nat} (hl : ∀ x ∈ l, o < x.start.toNat) :
      l.find? (·.covers o) = none := by
    refine List.find?_eq_none.mpr fun x hx => ?_
    have := hl x hx
    simp only [Chunk.Handler.covers, Bool.and_eq_true, decide_eq_true_eq]
    omega
  refine ⟨fun y hy => ?_, fun k hk => ?_⟩
  · obtain hy | hy := mem_drop_take_of_le (Nat.le_succ e₃.handlers.size) hy
    · exact hall y hy
    · rw [List.drop_take, hdrop] at hy
      obtain rfl : y = h' := by simpa using hy
      rw [hstart', hstop']
      exact ⟨lea, leb⟩
  -- what surrounds the three pieces together with the new handler
  have hlast : Surrounds c k e₂.pc e₂.handlers.size e₃.pc e₃.handlers.size := by
    refine ⟨fun y hy => ?_, fun o hlo hhi => ?_, ?_⟩
    · rw [take_eq_append _ (Nat.le_trans a.size_le x.size_le)] at hy
      obtain hy | hy := List.mem_append.mp hy
      · exact Nat.le_trans (hk.before y hy) (Nat.le_trans lea lex)
      · obtain hy | hy := mem_drop_take_of_le x.size_le hy
        · exact Nat.le_trans (ea y hy).2 lex
        · exact (ex y hy).2
    · rw [← hk.after o (by omega) hhi, hdrop, List.find?_cons_of_neg]
      simp only [Chunk.Handler.covers, Bool.and_eq_true, decide_eq_true_eq]
      omega
    · rw [hdrop]
      exact List.forall_mem_cons.mpr ⟨Chunk.Handler.uniform_of_stop_le (Nat.le_of_eq hstop'),
        fun y hy => (hk.uniform y hy).mono (Nat.le_trans lea lex) (Nat.le_refl _)⟩
  have hmiddle : Surrounds c (some h') e₁.pc e₁.handlers.size e₂.pc e₂.handlers.size := by
    refine ⟨fun y hy => ?_, fun o hlo hhi => ?_, fun y hy => ?_⟩
    · rw [take_eq_append _ a.size_le] at hy
      obtain hy | hy := List.mem_append.mp hy
      · exact Nat.le_trans (hk.before y hy) lea
      · exact (ea y hy).2
    · -- those of the last piece start behind the second one, which the new one covers
      rw [drop_eq_append _ b.size_le, hdrop, List.find?_append, uncovered, Option.none_or,
        List.find?_cons_of_pos]
      · simp only [Chunk.Handler.covers, Bool.and_eq_true, decide_eq_true_eq]
        omega
      · exact fun y hy => Nat.lt_of_lt_of_le hhi (eb y hy).1
    · rw [drop_eq_append _ b.size_le, hdrop, List.mem_append, List.mem_cons] at hy
      obtain hy | rfl | hy := hy
      · exact Chunk.Handler.uniform_of_le_start (eb y hy).1
      · refine .inl fun o hlo hhi => ?_
        simp only [Chunk.Handler.covers, Bool.and_eq_true, decide_eq_true_eq]
        omega
      · exact (hk.uniform y hy).mono lea leb
  have hfirst : Surrounds c k e.pc e.handlers.size e₁.pc e₁.handlers.size := by
    refine ⟨hk.before, fun o hlo hhi => ?_, fun y hy => ?_⟩
    · -- the handlers of the last two pieces, and the new one, start behind the first one
      have hk := hk.after o hlo (show o < e₃.pc by omega)
      rw [← hk, drop_eq_append _ (Nat.le_trans x.size_le b.size_le), hdrop, List.find?_append,
        List.find?_cons_of_neg, uncovered, Option.none_or]
      · intro y hy
        obtain hy | hy := mem_drop_take_of_le b.size_le hy
        · exact Nat.lt_of_lt_of_le hhi (ex y hy).1
        · exact Nat.lt_of_lt_of_le hhi (Nat.le_trans lex (eb y hy).1)
      · simp only [Chunk.Handler.covers, Bool.and_eq_true, decide_eq_true_eq]
        omega
    · rw [drop_eq_append _ (Nat.le_trans x.size_le b.size_le), hdrop, List.mem_append,
        List.mem_cons] at hy
      obtain hy | rfl | hy := hy
      · obtain hy | hy := mem_drop_take_of_le b.size_le hy
        · exact Chunk.Handler.uniform_of_le_start (ex y hy).1
        · exact Chunk.Handler.uniform_of_le_start (Nat.le_trans lex (eb y hy).1)
      · exact Chunk.Handler.uniform_of_le_start (Nat.le_of_eq hstart'.symm)
      · exact (hk.uniform y hy).mono (Nat.le_refl _) (Nat.le_trans lex leb)
  obtain ⟨hP, hcatchesP⟩ := hP k hfirst
  obtain ⟨hX, hcatchesX⟩ := hX _ hmiddle
  obtain ⟨hQ, hcatchesQ⟩ := hQ k hlast
  have hcode := hguards k h' hstart' hstop' (hpacked.target.unique (htarget hw₃)) hpacked.slot hP hX hQ
  refine ⟨⟨h', hcode⟩, fun j hlo hhi => ?_⟩
  obtain hj | hj := Nat.lt_or_ge j e₁.handlers.size
  · exact hcatchesP j hlo hj
  obtain hj' | hj' := Nat.lt_or_ge j e₂.handlers.size
  · exact hcatchesX j hj hj'
  obtain hlt | hge := Nat.lt_or_ge j e₃.handlers.size
  · exact hcatchesQ j hj' hlt
  · obtain rfl : j = e₃.handlers.size := by omega
    exact hG _ ⟨h', k, g, catcher, r, _, _, _, _, hh', hcatcher, hcode, hn, by omega, by omega,
      hk.uniform⟩

/-! ### Goals -/

section Goals

variable {slots : Slots}

/-- What the pass writes for code of its own labels. -/
def Compiles (p : Program) (c : Chunk) (G : Nat → Prop) (e e' : Emitter)
    (P : Option Chunk.Handler → Prop) : Prop :=
  ∃ ls, Emits p c G e e' ls P ∧ Fresh e e' ls

/-- The pass writes the code of the goal wherever it is asked to. -/
def CompilesGoal (p : Program) (c : Chunk) (G : Nat → Prop) (slots : Slots) (b : UInt16)
    (g : Goal) : Prop :=
  ∀ {e e' : Emitter}, slots.Behind e.lastSlot → goal slots b g e = .ok () e' →
    Compiles p c G e e' fun h => g.Stands c slots h b e.pc e.nextSlot e'.pc e'.nextSlot

/-- The pass writes the code of the goals wherever it is asked to. -/
def CompilesBody (p : Program) (c : Chunk) (G : Nat → Prop) (slots : Slots) (b : UInt16)
    (gs : List Goal) : Prop :=
  ∀ {e e' : Emitter}, slots.Behind e.lastSlot → body slots b gs e = .ok () e' →
    Compiles p c G e e' fun h => Body.Stands c slots h b gs e.pc e.nextSlot e'.pc e'.nextSlot

-- one equation for each kind of goal, for the cases below
attribute [grind =] goal body Goal.Stands Body.Stands

variable {b : UInt16} {x y z : List Goal}

theorem compiles_either (hp : p.Packing c) (hx : CompilesBody p c G slots b x)
    (hy : CompilesBody p c G slots b y) : CompilesGoal p c G slots b (.either x y) := by
  intro e e' hlast h
  rw [goal] at h
  obtain ⟨alternative, e₁, h₁, h⟩ := bind_eq_ok.mp h
  obtain ⟨done, e₂, h₂, h⟩ := bind_eq_ok.mp h
  obtain ⟨⟨⟩, e₃, h₃, h⟩ := bind_eq_ok.mp h
  obtain ⟨⟨⟩, e₄, h₄, h⟩ := bind_eq_ok.mp h
  obtain ⟨⟨⟩, e₅, h₅, h⟩ := bind_eq_ok.mp h
  obtain ⟨⟨⟩, e₆, h₆, h⟩ := bind_eq_ok.mp h
  obtain ⟨⟨⟩, e₇, h₇, h⟩ := bind_eq_ok.mp h
  obtain ⟨⟨⟩, e₈, h₈, h₉⟩ := bind_eq_ok.mp h
  obtain ⟨s₁, n₁, f₁⟩ := emits_of_label G (p := p) (c := c) h₁
  obtain ⟨s₂, n₂, f₂⟩ := emits_of_label G (p := p) (c := c) h₂
  obtain ⟨s₃, k₃⟩ := emits_of_emit G hp h₃
  have f := f₁.append (f₂.append k₃.fresh)
  obtain ⟨lx, s₄, f₄⟩ := hx (f.lastSlot ▸ hlast) h₄
  obtain ⟨s₅, k₅⟩ := emits_of_emit G hp h₅
  obtain ⟨s₆, k₆⟩ := emits_of_place G (p := p) (c := c) h₆
  obtain ⟨s₇, k₇⟩ := emits_of_emit G hp h₇
  have f := f.append (f₄.append (k₅.fresh.append (k₆.fresh.append k₇.fresh)))
  obtain ⟨ly, s₈, f₈⟩ := hy (f.lastSlot ▸ hlast) h₈
  obtain ⟨s₉, k₉⟩ := emits_of_place G (p := p) (c := c) h₉
  have code := s₁.seq (s₂.seq (s₃.seq (s₄.seq (s₅.seq (s₆.seq (s₇.seq (s₈.seq s₉)))))))
  refine ⟨_, code.imp fun k hk => ?_, (f.append (f₈.append k₉.fresh)).perm ?_⟩
  · obtain ⟨p₁, p₂, c₃, c₄, c₅, ⟨c₆, p₆⟩, c₇, c₈, c₉, p₉⟩ := hk
    rw [p₂, p₁] at c₃
    rw [k₃.nextSlot, n₂, n₁] at c₄
    rw [p₆] at c₇
    rw [k₇.nextSlot, k₆.nextSlot, k₅.nextSlot] at c₈
    rw [Goal.Stands, p₉, k₉.nextSlot]
    exact ⟨_, _, _, _, _, c₃.stands (.tryMeElse c₆), c₄, c₅.stands (.jump c₉), c₇.stands .trustMe, c₈⟩
  · refine List.perm_iff_count.mpr fun n => ?_
    simp only [List.count_append, List.count_nil, Nat.zero_add, Nat.add_zero]
    ac_rfl

theorem compiles_ifThenElse (hp : p.Packing c) (hx : ∀ b, CompilesBody p c G slots b x)
    (hy : CompilesBody p c G slots b y) (hz : CompilesBody p c G slots b z) :
    CompilesGoal p c G slots b (.ifThenElse x y z) := by
  intro e e' hlast h
  rw [goal] at h
  obtain ⟨inner, e₁, h₁, h⟩ := bind_eq_ok.mp h
  obtain ⟨alternative, e₂, h₂, h⟩ := bind_eq_ok.mp h
  obtain ⟨done, e₃, h₃, h⟩ := bind_eq_ok.mp h
  obtain ⟨⟨⟩, e₄, h₄, h⟩ := bind_eq_ok.mp h
  obtain ⟨⟨⟩, e₅, h₅, h⟩ := bind_eq_ok.mp h
  obtain ⟨⟨⟩, e₆, h₆, h⟩ := bind_eq_ok.mp h
  obtain ⟨⟨⟩, e₇, h₇, h⟩ := bind_eq_ok.mp h
  obtain ⟨⟨⟩, e₈, h₈, h⟩ := bind_eq_ok.mp h
  obtain ⟨⟨⟩, e₉, h₉, h⟩ := bind_eq_ok.mp h
  obtain ⟨⟨⟩, e₁₀, h₁₀, h⟩ := bind_eq_ok.mp h
  obtain ⟨⟨⟩, e₁₁, h₁₁, h⟩ := bind_eq_ok.mp h
  obtain ⟨⟨⟩, e₁₂, h₁₂, h⟩ := bind_eq_ok.mp h
  obtain ⟨⟨⟩, e₁₃, h₁₃, h₁₄⟩ := bind_eq_ok.mp h
  obtain ⟨s₁, hinner, n₁, f₁⟩ := emits_of_reserve G (p := p) (c := c) hlast.lt h₁
  obtain ⟨s₂, n₂, f₂⟩ := emits_of_label G (p := p) (c := c) h₂
  obtain ⟨s₃, n₃, f₃⟩ := emits_of_label G (p := p) (c := c) h₃
  obtain ⟨s₄, k₄⟩ := emits_of_emit G hp h₄
  obtain ⟨s₅, k₅⟩ := emits_of_emit G hp h₅
  have f := f₁.append (f₂.append (f₃.append (k₄.fresh.append k₅.fresh)))
  obtain ⟨lx, s₆, f₆⟩ := hx inner (f.lastSlot ▸ hlast) h₆
  obtain ⟨s₇, k₇⟩ := emits_of_emit G hp h₇
  obtain ⟨s₈, k₈⟩ := emits_of_emit G hp h₈
  have f := f.append (f₆.append (k₇.fresh.append k₈.fresh))
  obtain ⟨ly, s₉, f₉⟩ := hy (f.lastSlot ▸ hlast) h₉
  obtain ⟨s₁₀, k₁₀⟩ := emits_of_emit G hp h₁₀
  obtain ⟨s₁₁, k₁₁⟩ := emits_of_place G (p := p) (c := c) h₁₁
  obtain ⟨s₁₂, k₁₂⟩ := emits_of_emit G hp h₁₂
  have f := f.append (f₉.append (k₁₀.fresh.append (k₁₁.fresh.append k₁₂.fresh)))
  obtain ⟨lz, s₁₃, f₁₃⟩ := hz (f.lastSlot ▸ hlast) h₁₃
  obtain ⟨s₁₄, k₁₄⟩ := emits_of_place G (p := p) (c := c) h₁₄
  have code := s₁.seq (s₂.seq (s₃.seq (s₄.seq (s₅.seq (s₆.seq (s₇.seq (s₈.seq (s₉.seq (s₁₀.seq
    (s₁₁.seq (s₁₂.seq (s₁₃.seq s₁₄))))))))))))
  refine ⟨_, code.imp fun k hk => ?_, (f.append (f₁₃.append k₁₄.fresh)).perm ?_⟩
  · obtain ⟨p₁, p₂, p₃, c₄, c₅, c₆, c₇, c₈, c₉, c₁₀, ⟨c₁₁, p₁₁⟩, c₁₂, c₁₃, c₁₄, p₁₄⟩ := hk
    rw [p₃, p₂, p₁] at c₄
    rw [k₅.nextSlot, k₄.nextSlot, n₃, n₂, n₁] at c₆
    rw [k₈.nextSlot, k₇.nextSlot] at c₉
    rw [p₁₁] at c₁₂
    rw [k₁₂.nextSlot, k₁₁.nextSlot, k₁₀.nextSlot] at c₁₃
    rw [Goal.Stands, p₁₄, k₁₄.nextSlot]
    exact ⟨inner, _, _, _, _, _, _, _, _, _, _, hinner, c₄.stands (.tryMeElse c₁₁),
      c₅.stands (.saveCut _), c₆, c₇.stands (.cut _), c₈.stands .trustMe, c₉,
      c₁₀.stands (.jump c₁₄), c₁₂.stands .trustMe, c₁₃⟩
  · refine List.perm_iff_count.mpr fun n => ?_
    simp only [List.count_append, List.count_nil, Nat.zero_add, Nat.add_zero]
    ac_rfl

theorem compiles_ifThen (hp : p.Packing c) (hx : ∀ b, CompilesBody p c G slots b x)
    (hy : CompilesBody p c G slots b y) : CompilesGoal p c G slots b (.ifThen x y) := by
  intro e e' hlast h
  rw [goal] at h
  obtain ⟨inner, e₁, h₁, h⟩ := bind_eq_ok.mp h
  obtain ⟨alternative, e₂, h₂, h⟩ := bind_eq_ok.mp h
  obtain ⟨done, e₃, h₃, h⟩ := bind_eq_ok.mp h
  obtain ⟨⟨⟩, e₄, h₄, h⟩ := bind_eq_ok.mp h
  obtain ⟨⟨⟩, e₅, h₅, h⟩ := bind_eq_ok.mp h
  obtain ⟨⟨⟩, e₆, h₆, h⟩ := bind_eq_ok.mp h
  obtain ⟨⟨⟩, e₇, h₇, h⟩ := bind_eq_ok.mp h
  obtain ⟨⟨⟩, e₈, h₈, h⟩ := bind_eq_ok.mp h
  obtain ⟨⟨⟩, e₉, h₉, h⟩ := bind_eq_ok.mp h
  obtain ⟨⟨⟩, e₁₀, h₁₀, h⟩ := bind_eq_ok.mp h
  obtain ⟨⟨⟩, e₁₁, h₁₁, h⟩ := bind_eq_ok.mp h
  obtain ⟨⟨⟩, e₁₂, h₁₂, h⟩ := bind_eq_ok.mp h
  obtain ⟨⟨⟩, e₁₃, h₁₃, h₁₄⟩ := bind_eq_ok.mp h
  obtain ⟨s₁, hinner, n₁, f₁⟩ := emits_of_reserve G (p := p) (c := c) hlast.lt h₁
  obtain ⟨s₂, n₂, f₂⟩ := emits_of_label G (p := p) (c := c) h₂
  obtain ⟨s₃, n₃, f₃⟩ := emits_of_label G (p := p) (c := c) h₃
  obtain ⟨s₄, k₄⟩ := emits_of_emit G hp h₄
  obtain ⟨s₅, k₅⟩ := emits_of_emit G hp h₅
  have f := f₁.append (f₂.append (f₃.append (k₄.fresh.append k₅.fresh)))
  obtain ⟨lx, s₆, f₆⟩ := hx inner (f.lastSlot ▸ hlast) h₆
  obtain ⟨s₇, k₇⟩ := emits_of_emit G hp h₇
  obtain ⟨s₈, k₈⟩ := emits_of_emit G hp h₈
  have f := f.append (f₆.append (k₇.fresh.append k₈.fresh))
  obtain ⟨ly, s₉, f₉⟩ := hy (f.lastSlot ▸ hlast) h₉
  obtain ⟨s₁₀, k₁₀⟩ := emits_of_emit G hp h₁₀
  obtain ⟨s₁₁, k₁₁⟩ := emits_of_place G (p := p) (c := c) h₁₁
  obtain ⟨s₁₂, k₁₂⟩ := emits_of_emit G hp h₁₂
  obtain ⟨s₁₃, k₁₃⟩ := emits_of_emit G hp h₁₃
  obtain ⟨s₁₄, k₁₄⟩ := emits_of_place G (p := p) (c := c) h₁₄
  have f := f.append (f₉.append (k₁₀.fresh.append (k₁₁.fresh.append (k₁₂.fresh.append
    (k₁₃.fresh.append k₁₄.fresh)))))
  have code := s₁.seq (s₂.seq (s₃.seq (s₄.seq (s₅.seq (s₆.seq (s₇.seq (s₈.seq (s₉.seq (s₁₀.seq
    (s₁₁.seq (s₁₂.seq (s₁₃.seq s₁₄))))))))))))
  refine ⟨_, code.imp fun k hk => ?_, f.perm ?_⟩
  · obtain ⟨p₁, p₂, p₃, c₄, c₅, c₆, c₇, c₈, c₉, c₁₀, ⟨c₁₁, p₁₁⟩, c₁₂, c₁₃, c₁₄, p₁₄⟩ := hk
    rw [p₃, p₂, p₁] at c₄
    rw [k₅.nextSlot, k₄.nextSlot, n₃, n₂, n₁] at c₆
    rw [k₈.nextSlot, k₇.nextSlot] at c₉
    rw [p₁₁] at c₁₂
    rw [Goal.Stands, p₁₄, k₁₄.nextSlot, k₁₃.nextSlot, k₁₂.nextSlot, k₁₁.nextSlot, k₁₀.nextSlot]
    exact ⟨inner, _, _, _, _, _, _, _, _, _, hinner, c₄.stands (.tryMeElse c₁₁),
      c₅.stands (.saveCut _), c₆, c₇.stands (.cut _), c₈.stands .trustMe, c₉,
      c₁₀.stands (.jump c₁₄), c₁₂.stands .trustMe, c₁₃.stands .fail⟩
  · refine List.perm_iff_count.mpr fun n => ?_
    simp only [List.count_append, List.count_nil, Nat.zero_add, Nat.add_zero]
    ac_rfl

theorem compiles_negation (hp : p.Packing c) (hx : ∀ b, CompilesBody p c G slots b x) :
    CompilesGoal p c G slots b (.negation x) := by
  intro e e' hlast h
  rw [goal] at h
  obtain ⟨inner, e₁, h₁, h⟩ := bind_eq_ok.mp h
  obtain ⟨alternative, e₂, h₂, h⟩ := bind_eq_ok.mp h
  obtain ⟨⟨⟩, e₃, h₃, h⟩ := bind_eq_ok.mp h
  obtain ⟨⟨⟩, e₄, h₄, h⟩ := bind_eq_ok.mp h
  obtain ⟨⟨⟩, e₅, h₅, h⟩ := bind_eq_ok.mp h
  obtain ⟨⟨⟩, e₆, h₆, h⟩ := bind_eq_ok.mp h
  obtain ⟨⟨⟩, e₇, h₇, h⟩ := bind_eq_ok.mp h
  obtain ⟨⟨⟩, e₈, h₈, h⟩ := bind_eq_ok.mp h
  obtain ⟨⟨⟩, e₉, h₉, h₁₀⟩ := bind_eq_ok.mp h
  obtain ⟨s₁, hinner, n₁, f₁⟩ := emits_of_reserve G (p := p) (c := c) hlast.lt h₁
  obtain ⟨s₂, n₂, f₂⟩ := emits_of_label G (p := p) (c := c) h₂
  obtain ⟨s₃, k₃⟩ := emits_of_emit G hp h₃
  obtain ⟨s₄, k₄⟩ := emits_of_emit G hp h₄
  have f := f₁.append (f₂.append (k₃.fresh.append k₄.fresh))
  obtain ⟨lx, s₅, f₅⟩ := hx inner (f.lastSlot ▸ hlast) h₅
  obtain ⟨s₆, k₆⟩ := emits_of_emit G hp h₆
  obtain ⟨s₇, k₇⟩ := emits_of_emit G hp h₇
  obtain ⟨s₈, k₈⟩ := emits_of_emit G hp h₈
  obtain ⟨s₉, k₉⟩ := emits_of_place G (p := p) (c := c) h₉
  obtain ⟨s₁₀, k₁₀⟩ := emits_of_emit G hp h₁₀
  have f := f.append (f₅.append (k₆.fresh.append (k₇.fresh.append (k₈.fresh.append
    (k₉.fresh.append k₁₀.fresh)))))
  have code := s₁.seq (s₂.seq (s₃.seq (s₄.seq (s₅.seq (s₆.seq (s₇.seq (s₈.seq (s₉.seq s₁₀))))))))
  refine ⟨_, code.imp fun k hk => ?_, f.perm ?_⟩
  · obtain ⟨p₁, p₂, c₃, c₄, c₅, c₆, c₇, c₈, ⟨c₉, p₉⟩, c₁₀⟩ := hk
    rw [p₂, p₁] at c₃
    rw [k₄.nextSlot, k₃.nextSlot, n₂, n₁] at c₅
    rw [p₉] at c₁₀
    rw [Goal.Stands, k₁₀.nextSlot, k₉.nextSlot, k₈.nextSlot, k₇.nextSlot, k₆.nextSlot]
    exact ⟨inner, _, _, _, _, _, _, hinner, c₃.stands (.tryMeElse c₉), c₄.stands (.saveCut _), c₅,
      c₆.stands (.cut _), c₇.stands .trustMe, c₈.stands .fail, c₁₀.stands .trustMe⟩
  · refine List.perm_iff_count.mpr fun n => ?_
    simp only [List.count_append, List.count_nil, Nat.zero_add, Nat.add_zero]
    ac_rfl

theorem compiles_callVar (hp : p.Packing c) (v : Var) : CompilesGoal p c G slots b (.callVar v) := by
  intro e e' hlast h
  rw [goal] at h
  obtain ⟨n, e₁, h₁, h⟩ := bind_eq_ok.mp h
  obtain ⟨⟨⟩, e₂, h₂, h₃⟩ := bind_eq_ok.mp h
  obtain ⟨hn, rfl⟩ := slot_eq_ok h₁
  obtain ⟨s₂, k₂⟩ := emits_of_emit G hp h₂
  obtain ⟨s₃, k₃⟩ := emits_of_emit G hp h₃
  refine ⟨_, (s₂.seq s₃).imp fun k hk => ?_, k₂.fresh.append k₃.fresh⟩
  rw [Goal.Stands, k₃.nextSlot, k₂.nextSlot]
  exact ⟨rfl, n, _, hn, hk.1.stands (.pushEnvironment _), hk.2.stands (.call rfl)⟩

theorem compiles_unify (hp : p.Packing c) (s t : Tree) :
    CompilesGoal p c G slots b (.unify s t) := by
  intro e e' hlast h
  rw [goal] at h
  obtain ⟨⟨⟩, e₁, h₁, h⟩ := bind_eq_ok.mp h
  obtain ⟨⟨⟩, e₂, h₂, h₃⟩ := bind_eq_ok.mp h
  obtain ⟨s₁, k₁⟩ := emits_of_build hp h₁
  obtain ⟨s₂, k₂⟩ := emits_of_build hp h₂
  obtain ⟨s₃, k₃⟩ := emits_of_emit G hp h₃
  refine ⟨_, (s₁.seq (s₂.seq s₃)).imp fun k hk => ?_, k₁.fresh.append (k₂.fresh.append k₃.fresh)⟩
  rw [Goal.Stands, k₃.nextSlot, k₂.nextSlot, k₁.nextSlot]
  exact ⟨rfl, _, _, hk.1, hk.2.1, hk.2.2.stands .unify⟩

theorem compiles_raise (hp : p.Packing c) (t : Tree) : CompilesGoal p c G slots b (.raise t) := by
  intro e e' hlast h
  rw [goal] at h
  obtain ⟨⟨⟩, e₁, h₁, h₂⟩ := bind_eq_ok.mp h
  obtain ⟨s₁, k₁⟩ := emits_of_build hp h₁
  obtain ⟨s₂, k₂⟩ := emits_of_emit G hp h₂
  refine ⟨_, (s₁.seq s₂).imp fun k hk => ?_, k₁.fresh.append k₂.fresh⟩
  rw [Goal.Stands, k₂.nextSlot, k₁.nextSlot]
  exact ⟨rfl, _, hk.1, hk.2.stands .raise⟩

theorem compiles_call (hp : p.Packing c) (tag : Tag) (args : List Tree) :
    CompilesGoal p c G slots b (.call tag args) := by
  intro e e' hlast h
  rw [goal] at h
  obtain ⟨⟨⟩, e₁, h₁, h₂⟩ := bind_eq_ok.mp h
  obtain ⟨s₁, k₁⟩ := emits_of_buildAll hp h₁
  obtain ⟨s₂, k₂⟩ := emits_of_emit G hp h₂
  refine ⟨_, (s₁.seq s₂).imp fun k hk => ?_, k₁.fresh.append k₂.fresh⟩
  rw [Goal.Stands, k₂.nextSlot, k₁.nextSlot]
  exact ⟨rfl, _, hk.1, hk.2.stands (.call rfl)⟩

theorem compiles_guard (hp : p.Packing c) {T : Tree → Prop} (hG : ∀ j, c.Catches slots T j → G j)
    {catcher : Tree} (hcatcher : T catcher) (hx : ∀ b, CompilesBody p c G slots b x)
    (hy : ∀ b, CompilesBody p c G slots b y) : CompilesGoal p c G slots b (.guard x catcher y) := by
  intro e e' hlast h
  rw [goal] at h
  obtain ⟨ball, e₁, h₁, h⟩ := bind_eq_ok.mp h
  obtain ⟨inner, e₂, h₂, h⟩ := bind_eq_ok.mp h
  obtain ⟨start, e₃, h₃, h⟩ := bind_eq_ok.mp h
  obtain ⟨stop, e₄, h₄, h⟩ := bind_eq_ok.mp h
  obtain ⟨target, e₅, h₅, h⟩ := bind_eq_ok.mp h
  obtain ⟨rethrow, e₆, h₆, h⟩ := bind_eq_ok.mp h
  obtain ⟨done, e₇, h₇, h⟩ := bind_eq_ok.mp h
  obtain ⟨⟨⟩, e₈, h₈, h⟩ := bind_eq_ok.mp h
  obtain ⟨⟨⟩, e₉, h₉, h⟩ := bind_eq_ok.mp h
  obtain ⟨⟨⟩, e₁₀, h₁₀, h⟩ := bind_eq_ok.mp h
  obtain ⟨⟨⟩, e₁₁, h₁₁, h⟩ := bind_eq_ok.mp h
  obtain ⟨⟨⟩, e₁₂, h₁₂, h⟩ := bind_eq_ok.mp h
  obtain ⟨⟨⟩, e₁₃, h₁₃, h⟩ := bind_eq_ok.mp h
  obtain ⟨⟨⟩, e₁₄, h₁₄, h⟩ := bind_eq_ok.mp h
  obtain ⟨⟨⟩, e₁₅, h₁₅, h⟩ := bind_eq_ok.mp h
  obtain ⟨⟨⟩, e₁₆, h₁₆, h⟩ := bind_eq_ok.mp h
  obtain ⟨⟨⟩, e₁₇, h₁₇, h⟩ := bind_eq_ok.mp h
  obtain ⟨⟨⟩, e₁₈, h₁₈, h⟩ := bind_eq_ok.mp h
  obtain ⟨⟨⟩, e₁₉, h₁₉, h⟩ := bind_eq_ok.mp h
  obtain ⟨⟨⟩, e₂₀, h₂₀, h⟩ := bind_eq_ok.mp h
  obtain ⟨⟨⟩, e₂₁, h₂₁, h⟩ := bind_eq_ok.mp h
  obtain ⟨⟨⟩, e₂₂, h₂₂, h⟩ := bind_eq_ok.mp h
  obtain ⟨⟨⟩, e₂₃, h₂₃, h⟩ := bind_eq_ok.mp h
  obtain ⟨⟨⟩, e₂₄, h₂₄, h⟩ := bind_eq_ok.mp h
  obtain ⟨⟨⟩, e₂₅, h₂₅, h⟩ := bind_eq_ok.mp h
  obtain ⟨⟨⟩, e₂₆, h₂₆, h⟩ := bind_eq_ok.mp h
  cases h
  obtain ⟨s₁, hball, n₁, f₁⟩ := emits_of_reserve G (p := p) (c := c) hlast.lt h₁
  obtain ⟨s₂, hinner, n₂, f₂⟩ := emits_of_reserve G (p := p) (c := c) (f₁.lastSlot ▸ hlast.lt) h₂
  obtain ⟨s₃, n₃, f₃⟩ := emits_of_label G (p := p) (c := c) h₃
  obtain ⟨s₄, n₄, f₄⟩ := emits_of_label G (p := p) (c := c) h₄
  obtain ⟨s₅, n₅, f₅⟩ := emits_of_label G (p := p) (c := c) h₅
  obtain ⟨s₆, n₆, f₆⟩ := emits_of_label G (p := p) (c := c) h₆
  obtain ⟨s₇, n₇, f₇⟩ := emits_of_label G (p := p) (c := c) h₇
  obtain ⟨s₈, k₈⟩ := emits_of_emit G hp h₈
  obtain ⟨s₉, k₉⟩ := emits_of_place G (p := p) (c := c) h₉
  have f := f₁.append (f₂.append (f₃.append (f₄.append (f₅.append (f₆.append (f₇.append
    (k₈.fresh.append k₉.fresh)))))))
  obtain ⟨lx, s₁₀, f₁₀⟩ := hx inner (f.lastSlot ▸ hlast) h₁₀
  obtain ⟨s₁₁, k₁₁⟩ := emits_of_place G (p := p) (c := c) h₁₁
  obtain ⟨s₁₂, k₁₂⟩ := emits_of_emit G hp h₁₂
  obtain ⟨s₁₃, k₁₃⟩ := emits_of_place G (p := p) (c := c) h₁₃
  obtain ⟨s₁₄, k₁₄⟩ := emits_of_emit G hp h₁₄
  obtain ⟨s₁₅, k₁₅⟩ := emits_of_emit G hp h₁₅
  obtain ⟨s₁₆, k₁₆⟩ := emits_of_build hp h₁₆
  obtain ⟨s₁₇, k₁₇⟩ := emits_of_emit G hp h₁₇
  obtain ⟨s₁₈, k₁₈⟩ := emits_of_emit G hp h₁₈
  obtain ⟨s₁₉, k₁₉⟩ := emits_of_emit G hp h₁₉
  have f := f.append (f₁₀.append (k₁₁.fresh.append (k₁₂.fresh.append (k₁₃.fresh.append
    (k₁₄.fresh.append (k₁₅.fresh.append (k₁₆.fresh.append (k₁₇.fresh.append (k₁₈.fresh.append
      k₁₉.fresh)))))))))
  obtain ⟨ly, s₂₀, f₂₀⟩ := hy inner (f.lastSlot ▸ hlast) h₂₀
  obtain ⟨s₂₁, k₂₁⟩ := emits_of_emit G hp h₂₁
  obtain ⟨s₂₂, k₂₂⟩ := emits_of_place G (p := p) (c := c) h₂₂
  obtain ⟨s₂₃, k₂₃⟩ := emits_of_emit G hp h₂₃
  obtain ⟨s₂₄, k₂₄⟩ := emits_of_emit G hp h₂₄
  obtain ⟨s₂₅, k₂₅⟩ := emits_of_emit G hp h₂₅
  obtain ⟨s₂₆, k₂₆⟩ := emits_of_place G (p := p) (c := c) h₂₆
  have f := f.append (f₂₀.append (k₂₁.fresh.append (k₂₂.fresh.append (k₂₃.fresh.append
    (k₂₄.fresh.append (k₂₅.fresh.append k₂₆.fresh))))))
  -- the code in front of the goal, and the code behind it
  have front := s₁.seq (s₂.seq (s₃.seq (s₄.seq (s₅.seq (s₆.seq (s₇.seq (s₈.seq s₉)))))))
  have back₁₄ := s₁₄.seq (s₁₅.seq (s₁₆.seq (s₁₇.seq (s₁₈.seq (s₁₉.seq (s₂₀.seq (s₂₁.seq (s₂₂.seq
    (s₂₃.seq (s₂₄.seq (s₂₅.seq s₂₆)))))))))))
  have back₁₂ := s₁₂.seq (s₁₃.seq back₁₄)
  have hstart (hw : e₉.Within p) : Places p.lines.toList start e₉.pc :=
    pc_of_place h₉ ▸ places_of_place h₉ hw
  have hstop (hw : e₂₆.Within p) : Places p.lines.toList stop e₁₀.pc :=
    places_of_place h₁₁ (back₁₂.within hw)
  have htarget (hw : e₂₆.Within p) : Places p.lines.toList target e₁₂.pc :=
    places_of_place h₁₃ (back₁₄.within hw)
  refine ⟨_, Emits.imp
    (P := fun k => ∃ h', c.Guards slots k h' x catcher y e.pc e.nextSlot e₂₆.pc e₂₆.nextSlot)
    (front.around hp s₁₀ (s₁₁.seq back₁₂) (h := ⟨start, stop, target, inner⟩) hstart hstop htarget hG
      hcatcher (fun i s hs => Nat.lt_of_le_of_lt (le_of_reserve h₁) (hlast.behind i s hs)) ?_)
    fun k hk => hk.elim fun h' hh' => hh'.stands, ?_⟩
  · rintro k h' hh'start hh'stop hh'target rfl ⟨p₁, p₂, p₃, p₄, p₅, p₆, p₇, c₈, c₉, p₉⟩ c₁₀
      ⟨⟨c₁₁, p₁₁⟩, c₁₂, ⟨c₁₃, p₁₃⟩, c₁₄, c₁₅, c₁₆, c₁₇, c₁₈, c₁₉, c₂₀, c₂₁, ⟨c₂₂, p₂₂⟩, c₂₃, c₂₄, c₂₅,
        c₂₆, p₂₆⟩
    rw [p₇, p₆, p₅, p₄, p₃, p₂, p₁, ← p₉] at c₈
    rw [n₁] at hinner
    rw [k₉.nextSlot, k₈.nextSlot, n₇, n₆, n₅, n₄, n₃, n₂, n₁] at c₁₀
    rw [p₁₁] at c₁₂
    rw [p₁₃] at c₁₄
    rw [k₁₉.nextSlot, k₁₈.nextSlot, k₁₇.nextSlot, k₁₆.nextSlot, k₁₅.nextSlot, k₁₄.nextSlot,
      k₁₃.nextSlot, k₁₂.nextSlot, k₁₁.nextSlot] at c₂₀
    rw [p₂₂] at c₂₃
    rw [← p₂₆] at c₂₅ c₂₆
    have hslots : e₂₆.nextSlot = e₂₀.nextSlot := by
      rw [k₂₆.nextSlot, k₂₅.nextSlot, k₂₄.nextSlot, k₂₃.nextSlot, k₂₂.nextSlot, k₂₁.nextSlot]
    exact ⟨ball, _, _, _, _, _, _, _, _, _, _, _, _, _, _, hball, hinner, hh'start, hh'stop,
      hh'target, c₈.stands (.saveCut _), c₁₀, c₁₂.stands (.jump c₂₆),
      c₁₄.stands (.storeEnvironment _), c₁₅.stands (.tryMeElse c₂₂), c₁₆,
      c₁₇.stands (.pushEnvironment _), c₁₈.stands .unify, c₁₉.stands .trustMe, hslots ▸ c₂₀,
      c₂₁.stands (.jump c₂₆), c₂₃.stands .trustMe, c₂₄.stands (.pushEnvironment _),
      c₂₅.stands .raise⟩
  · refine (f.perm ?_).congr rfl rfl
    refine List.perm_iff_count.mpr fun n => ?_
    simp only [List.count_append, List.count_nil, Nat.zero_add, Nat.add_zero]
    ac_rfl

theorem compiles_succeed (hp : p.Packing c) : CompilesGoal p c G slots b .succeed := by
  intro e e' hlast h
  rw [goal] at h
  obtain ⟨s, k⟩ := emits_of_emit G hp h
  refine ⟨_, s.imp fun _ hs => ?_, k.fresh⟩
  rw [Goal.Stands]
  exact ⟨k.nextSlot, hs.stands .succeed⟩

theorem compiles_fail (hp : p.Packing c) : CompilesGoal p c G slots b .fail := by
  intro e e' hlast h
  rw [goal] at h
  obtain ⟨s, k⟩ := emits_of_emit G hp h
  refine ⟨_, s.imp fun _ hs => ?_, k.fresh⟩
  rw [Goal.Stands]
  exact ⟨k.nextSlot, hs.stands .fail⟩

theorem compiles_cut (hp : p.Packing c) : CompilesGoal p c G slots b .cut := by
  intro e e' hlast h
  rw [goal] at h
  obtain ⟨s, k⟩ := emits_of_emit G hp h
  refine ⟨_, s.imp fun _ hs => ?_, k.fresh⟩
  rw [Goal.Stands]
  exact ⟨k.nextSlot, hs.stands (.cut b)⟩

theorem compiles_nil : CompilesBody p c G slots b [] := by
  intro e e' hlast h
  rw [body] at h
  cases h
  refine ⟨[], (emits_of_eq rfl rfl).imp fun _ _ => ?_, Still.fresh ⟨rfl, rfl, rfl⟩⟩
  rw [Body.Stands]
  exact ⟨rfl, rfl⟩

theorem compiles_cons {g : Goal} (hg : CompilesGoal p c G slots b g) (hx : CompilesBody p c G slots b x) :
    CompilesBody p c G slots b (g :: x) := by
  intro e e' hlast h
  rw [body] at h
  obtain ⟨⟨⟩, e₁, h₁, h₂⟩ := bind_eq_ok.mp h
  obtain ⟨ls, s₁, f₁⟩ := hg hlast h₁
  obtain ⟨ls', s₂, f₂⟩ := hx (f₁.lastSlot ▸ hlast) h₂
  refine ⟨_, (s₁.seq s₂).imp fun k hk => ?_, f₁.append f₂⟩
  rw [Body.Stands]
  exact ⟨_, _, hk.1, hk.2⟩

mutual

theorem compiles_goal (hp : p.Packing c) {T : Tree → Prop} (hG : ∀ j, c.Catches slots T j → G j) :
    ∀ (g : Goal) (b : UInt16), g.Each T → CompilesGoal p c G slots b g
  | .callVar v, _, _ => compiles_callVar hp v
  | .succeed, _, _ => compiles_succeed hp
  | .fail, _, _ => compiles_fail hp
  | .cut, _, _ => compiles_cut hp
  | .either x y, b, hg => by
    rw [Goal.Each] at hg
    exact compiles_either hp (compiles_body hp hG x b hg.1) (compiles_body hp hG y b hg.2)
  | .ifThenElse x y z, b, hg => by
    rw [Goal.Each] at hg
    exact compiles_ifThenElse hp (fun b => compiles_body hp hG x b hg.1)
      (compiles_body hp hG y b hg.2.1) (compiles_body hp hG z b hg.2.2)
  | .ifThen x y, b, hg => by
    rw [Goal.Each] at hg
    exact compiles_ifThen hp (fun b => compiles_body hp hG x b hg.1) (compiles_body hp hG y b hg.2)
  | .negation x, _, hg => by
    rw [Goal.Each] at hg
    exact compiles_negation hp fun b => compiles_body hp hG x b hg
  | .unify s t, _, _ => compiles_unify hp s t
  | .raise t, _, _ => compiles_raise hp t
  | .guard x catcher y, _, hg => by
    rw [Goal.Each] at hg
    exact compiles_guard hp hG hg.2.1 (fun b => compiles_body hp hG x b hg.1)
      fun b => compiles_body hp hG y b hg.2.2
  | .call tag args, _, _ => compiles_call hp tag args

/-- The pass writes the code of goals. -/
theorem compiles_body (hp : p.Packing c) {T : Tree → Prop} (hG : ∀ j, c.Catches slots T j → G j) :
    ∀ (gs : List Goal) (b : UInt16), Body.Each T gs → CompilesBody p c G slots b gs
  | [], _, _ => compiles_nil
  | g :: gs, b, hg => by
    rw [Body.Each] at hg
    exact compiles_cons (compiles_goal hp hG g b hg.1) (compiles_body hp hG gs b hg.2)

end

/-! ### Clauses -/

/-- Whether a head argument stores a variable. -/
theorem contains_storedVariables (direct : List (Option Var)) (v : Var) :
    (storedVariables direct).contains v.id = decide (some v ∈ direct) := by
  have grown (t : Std.TreeMap Nat Unit) : (direct.foldl addStored t).contains v.id =
      (t.contains v.id || decide (some v ∈ direct)) := by
    induction direct generalizing t with
    | nil => simp
    | cons d direct ih =>
      rw [List.foldl_cons, ih]
      cases d with
      | none => simp [addStored]
      | some w =>
        obtain ⟨i⟩ := v
        obtain ⟨j⟩ := w
        simp only [addStored, Std.TreeMap.contains_insert, List.mem_cons, Option.some.injEq, Var.mk.injEq]
        grind
  exact (grown ∅).trans (by simp)

theorem emits_of_variables (hp : p.Packing c) {direct : List (Option Var)} : ∀ {vars : List Var}
    {e e' : Emitter}, makeVariables slots direct vars e = .ok () e' →
      Emits p c G e e' [] (fun k => k = none →
        c.StandsVariables slots (vars.filter fun v => some v ∉ direct) e.pc e'.pc) ∧ Still e e'
  | [], e, e', h => by
    cases h
    exact ⟨(emits_of_eq rfl rfl).imp fun _ _ _ => rfl, rfl, rfl, rfl⟩
  | v :: vars, e, e', h => by
    obtain ⟨⟨⟩, e₁, h₁, h₂⟩ := bind_eq_ok.mp h
    obtain ⟨s, k⟩ := emits_of_variables hp h₂
    by_cases hv : some v ∈ direct
    · simp only [contains_storedVariables, hv, decide_true, Bool.not_true, Bool.false_eq_true,
        if_false] at h₁
      cases h₁
      rw [List.filter_cons_of_neg (by simpa using hv)]
      exact ⟨s, k⟩
    · simp only [contains_storedVariables, hv, decide_false, Bool.not_false, if_true] at h₁
      obtain ⟨n, e₂, h₃, h₁⟩ := bind_eq_ok.mp h₁
      obtain ⟨⟨⟩, e₄, h₄, h₅⟩ := bind_eq_ok.mp h₁
      obtain ⟨hn, rfl⟩ := slot_eq_ok h₃
      obtain ⟨s₄, k₄⟩ := emits_of_emit G hp h₄
      obtain ⟨s₅, k₅⟩ := emits_of_emit G hp h₅
      rw [List.filter_cons_of_pos (by simpa using hv)]
      refine ⟨(s₄.seq (s₅.seq s)).imp fun k hk hnone => ?_, ?_⟩
      · subst hnone
        exact ⟨n, _, _, hn, hk.1.stands .createVariable, hk.2.1.stands (.storeEnvironment _),
          hk.2.2 rfl⟩
      · exact k₄.trans (k₅.trans k)

theorem emits_of_headArguments (hp : p.Packing c) : ∀ {args : List (Tree × Option Var)} {n : Nat}
    {e e' : Emitter}, headArguments slots n args e = .ok () e' →
      Emits p c G e e' [] (fun k => k = none → c.StandsHead slots n args e.pc e'.pc) ∧ Still e e'
  | [], n, e, e', h => by
    cases h
    exact ⟨(emits_of_eq rfl rfl).imp fun _ _ _ => rfl, rfl, rfl, rfl⟩
  | (t, direct) :: args, n, e, e', h => by
    rw [headArguments] at h
    split at h
    · cases h
    rename_i hlt
    have hn : (UInt16.ofNat n).toNat = n := UInt16.toNat_ofNat_of_lt' (Nat.lt_of_not_le hlt)
    obtain ⟨⟨⟩, e₁, h₁, h⟩ := bind_eq_ok.mp h
    obtain ⟨s₁, k₁⟩ := emits_of_emit G hp h₁
    cases direct with
    | some v =>
      obtain ⟨m, e₂, h₂, h⟩ := bind_eq_ok.mp h
      obtain ⟨⟨⟩, e₃, h₃, h₄⟩ := bind_eq_ok.mp h
      obtain ⟨hm, rfl⟩ := slot_eq_ok h₂
      obtain ⟨s₃, k₃⟩ := emits_of_emit G hp h₃
      obtain ⟨s₄, k₄⟩ := emits_of_headArguments hp h₄
      refine ⟨(s₁.seq (s₃.seq s₄)).imp fun k hk hnone => ?_, k₁.trans (k₃.trans k₄)⟩
      subst hnone
      exact ⟨_, m, _, _, hn, hm, hk.1.stands (.pushArgument _), hk.2.1.stands (.storeEnvironment _),
        hk.2.2 rfl⟩
    | none =>
      obtain ⟨⟨⟩, e₂, h₂, h⟩ := bind_eq_ok.mp h
      obtain ⟨⟨⟩, e₃, h₃, h₄⟩ := bind_eq_ok.mp h
      obtain ⟨s₂, k₂⟩ := emits_of_build hp h₂
      obtain ⟨s₃, k₃⟩ := emits_of_emit G hp h₃
      obtain ⟨s₄, k₄⟩ := emits_of_headArguments hp h₄
      refine ⟨(s₁.seq (s₂.seq (s₃.seq s₄))).imp fun k hk hnone => ?_,
        k₁.trans (k₂.trans (k₃.trans k₄))⟩
      subst hnone
      exact ⟨_, _, _, _, hn, hk.1.stands (.pushArgument _), hk.2.1, hk.2.2.1.stands .unify,
        hk.2.2.2 rfl⟩

/-- The pass writes the code of a clause. -/
theorem compiles_rule (hp : p.Packing c) {T : Tree → Prop} (hG : ∀ j, c.Catches slots T j → G j)
    {r : Rule} (hr : Body.Each T r.body) {e e' : Emitter} (hlast : slots.Behind e.lastSlot)
    (h : rule slots r e = .ok () e') :
    Compiles p c G e e' fun k => k = none → r.Stands c slots e.pc e.nextSlot e'.pc e'.nextSlot := by
  rw [rule] at h
  obtain ⟨⟨⟩, e₁, h₁, h⟩ := bind_eq_ok.mp h
  obtain ⟨⟨⟩, e₂, h₂, h⟩ := bind_eq_ok.mp h
  obtain ⟨⟨⟩, e₃, h₃, h₄⟩ := bind_eq_ok.mp h
  obtain ⟨s₁, k₁⟩ := emits_of_variables hp h₁
  obtain ⟨s₂, k₂⟩ := emits_of_headArguments hp h₂
  have f := k₁.fresh.append k₂.fresh
  obtain ⟨ls, s₃, f₃⟩ := compiles_body hp hG r.body 0 hr (f.lastSlot ▸ hlast) h₃
  obtain ⟨s₄, k₄⟩ := emits_of_emit G hp h₄
  refine ⟨_, (s₁.seq (s₂.seq (s₃.seq s₄))).imp fun k hk hnone => ?_, f.append (f₃.append k₄.fresh)⟩
  subst hnone
  rw [k₂.nextSlot, k₁.nextSlot] at hk
  rw [k₄.nextSlot]
  exact ⟨_, _, _, hk.1 rfl, hk.2.1 rfl, hk.2.2.1, hk.2.2.2.stands .leave⟩

/-- The pass writes the code of the clauses behind the first one; `n` is the label that leads to
them, made before. -/
theorem compiles_rest (hp : p.Packing c) {T : Tree → Prop} (hG : ∀ j, c.Catches slots T j → G j) :
    ∀ {rs : List Rule} {r : Rule} {n : Nat} {e e' : Emitter},
    (∀ r' ∈ r :: rs, Body.Each T r'.body) → slots.Behind e.lastSlot →
    rules slots (r :: rs) (some n) e = .ok () e' →
      ∃ ls ls', Emits p c G e e' ls (fun k => k = none → Places p.lines.toList n e.pc ∧
        r.StandsRest c slots rs e.pc e.nextSlot) ∧ ls.Perm ([n] ++ ls') ∧ Fresh e e' ls'
  | [], r, n, e, e', hr, hlast, h => by
    rw [rules] at h
    obtain ⟨⟨⟩, e₁, h₁, h⟩ := bind_eq_ok.mp h
    obtain ⟨⟨⟩, e₂, h₂, h⟩ := bind_eq_ok.mp h
    obtain ⟨m, e₃, h₃, h⟩ := bind_eq_ok.mp h
    cases h₃
    obtain ⟨⟨⟩, e₄, h₄, h₅⟩ := bind_eq_ok.mp h
    rw [rules] at h₅
    cases h₅
    obtain ⟨s₁, k₁⟩ := emits_of_place G (p := p) (c := c) h₁
    obtain ⟨s₂, k₂⟩ := emits_of_emit G hp h₂
    have f := k₁.fresh.append k₂.fresh
    obtain ⟨ls, s₄, f₄⟩ := compiles_rule hp hG (hr r (List.mem_singleton_self r)) (f.lastSlot ▸ hlast) h₄
    refine ⟨_, ls, (s₁.seq (s₂.seq s₄)).imp fun k hk hnone => ?_, .refl _, f.append f₄⟩
    subst hnone
    rw [k₂.nextSlot, k₁.nextSlot, hk.1.2] at hk
    exact ⟨hk.1.1, _, _, _, hk.2.1.stands .trustMe, hk.2.2 rfl⟩
  | r' :: rs, r, n, e, e', hr, hlast, h => by
    rw [List.forall_mem_cons] at hr
    rw [rules] at h
    obtain ⟨⟨⟩, e₁, h₁, h⟩ := bind_eq_ok.mp h
    obtain ⟨m, e₂, h₂, h⟩ := bind_eq_ok.mp h
    obtain ⟨⟨⟩, e₃, h₃, h⟩ := bind_eq_ok.mp h
    obtain ⟨m', e₄, h₄, h⟩ := bind_eq_ok.mp h
    cases h₄
    obtain ⟨⟨⟩, e₅, h₅, h₆⟩ := bind_eq_ok.mp h
    obtain ⟨s₁, k₁⟩ := emits_of_place G (p := p) (c := c) h₁
    obtain ⟨s₂, n₂, f₂⟩ := emits_of_label G (p := p) (c := c) h₂
    obtain ⟨s₃, k₃⟩ := emits_of_emit G hp h₃
    have f := k₁.fresh.append (f₂.append k₃.fresh)
    obtain ⟨ls, s₅, f₅⟩ := compiles_rule hp hG hr.1 (f.lastSlot ▸ hlast) h₅
    have f := f.append f₅
    obtain ⟨l, ls', s₆, hl, f₆⟩ := compiles_rest hp hG hr.2 (f.lastSlot ▸ hlast) h₆
    refine ⟨_, _, (s₁.seq (s₂.seq (s₃.seq (s₅.seq s₆)))).imp fun k hk hnone => ?_, ?_, f.append f₆⟩
    · subst hnone
      obtain ⟨⟨c₁, p₁⟩, p₂, c₃, c₅, c₆⟩ := hk
      obtain ⟨c₆, c₇⟩ := c₆ rfl
      rw [k₃.nextSlot, n₂, k₁.nextSlot] at c₅
      rw [p₂, p₁] at c₃
      exact ⟨c₁, _, _, _, c₃.stands (.retryMeElse c₆), c₅ rfl, c₇⟩
    · refine List.perm_iff_count.mpr fun i => ?_
      have hcount := List.perm_iff_count.mp hl i
      rw [List.count_append] at hcount
      simp only [List.count_append, List.count_nil, Nat.zero_add, Nat.add_zero, hcount]
      ac_rfl

/-- The pass writes the code of clauses. -/
theorem compiles_rules (hp : p.Packing c) {T : Tree → Prop} (hG : ∀ j, c.Catches slots T j → G j)
    {r : Rule} {rs : List Rule} (hr : ∀ r' ∈ r :: rs, Body.Each T r'.body) {e e' : Emitter}
    (hlast : slots.Behind e.lastSlot) (h : rules slots (r :: rs) none e = .ok () e') :
    Compiles p c G e e' fun k => k = none → Rule.StandsAll c slots (r :: rs) e.pc e.nextSlot := by
  cases rs with
  | nil =>
    rw [rules] at h
    obtain ⟨m, e₁, h₁, h⟩ := bind_eq_ok.mp h
    cases h₁
    obtain ⟨⟨⟩, e₂, h₂, h₃⟩ := bind_eq_ok.mp h
    rw [rules] at h₃
    cases h₃
    obtain ⟨ls, s₂, f₂⟩ := compiles_rule hp hG (hr r (List.mem_singleton_self r)) hlast h₂
    exact ⟨ls, s₂.imp fun k hk hnone => ⟨_, _, hk hnone⟩, f₂⟩
  | cons r' rs =>
    rw [rules] at h
    obtain ⟨m, e₁, h₁, h⟩ := bind_eq_ok.mp h
    obtain ⟨⟨⟩, e₂, h₂, h⟩ := bind_eq_ok.mp h
    obtain ⟨m', e₃, h₃, h⟩ := bind_eq_ok.mp h
    cases h₃
    obtain ⟨⟨⟩, e₄, h₄, h₅⟩ := bind_eq_ok.mp h
    obtain ⟨s₁, n₁, f₁⟩ := emits_of_label G (p := p) (c := c) h₁
    obtain ⟨s₂, k₂⟩ := emits_of_emit G hp h₂
    have f := f₁.append k₂.fresh
    obtain ⟨ls, s₄, f₄⟩ := compiles_rule hp hG (hr r List.mem_cons_self) (f.lastSlot ▸ hlast) h₄
    have f := f.append f₄
    obtain ⟨l, ls', s₅, hl, f₅⟩ := compiles_rest hp hG
      (fun r hr' => hr r (List.mem_cons_of_mem _ hr')) (f.lastSlot ▸ hlast) h₅
    refine ⟨_, (s₁.seq (s₂.seq (s₄.seq s₅))).imp fun k hk hnone => ?_, (f.append f₅).perm ?_⟩
    · subst hnone
      obtain ⟨p₁, c₂, c₄, c₅⟩ := hk
      obtain ⟨c₅, c₆⟩ := c₅ rfl
      rw [k₂.nextSlot, n₁] at c₄
      rw [p₁] at c₂
      exact ⟨_, _, _, c₂.stands (.tryMeElse c₅), c₄ rfl, c₆⟩
    · refine List.perm_iff_count.mpr fun i => ?_
      have hcount := List.perm_iff_count.mp hl i
      rw [List.count_append] at hcount
      simp only [List.count_append, List.count_nil, Nat.zero_add, Nat.add_zero, hcount]
      ac_rfl

end Goals

end Emit

end Program

/-! ### Predicates -/

/-- The chunk is the code of clauses taken apart. -/
structure Chunk.Holds (c : Chunk) (rules : List Rule) : Prop where
  /-- The slots have numbers. -/
  size_le : (Program.variableSlots (1 + total (rules.map fun r => Body.slots r.body)) rules).2 ≤
    Program.maxOperand
  /-- Without clauses, a call fails. -/
  fail : rules = [] → c.Stands none 0 .fail 1
  /-- The handlers are those of `catch/3`. -/
  catches : ∀ T : Tree → Prop, (∀ r ∈ rules, Body.Each T r.body) → ∀ j, j < c.handlers.size →
    c.Catches (Program.variableSlots (1 + total (rules.map fun r => Body.slots r.body)) rules).1 T j
  /-- With clauses, slots are made, the height of the choice stack is saved and the clauses are
  tried. -/
  rules : rules ≠ [] → ∃ pc₁ pc₂, c.Stands none 0 (.allocate
      (.ofNat (Program.variableSlots (1 + total (rules.map fun r => Body.slots r.body)) rules).2)) pc₁ ∧
    c.Stands none pc₁ (.saveCut 0) pc₂ ∧ Rule.StandsAll c
      (Program.variableSlots (1 + total (rules.map fun r => Body.slots r.body)) rules).1 rules pc₂ 1

namespace Program

theorem onSymbols_eq_ok {ε α : Type} {x : EStateM ε Symbols α} {a : α} {u u' : Universe}
    (h : onSymbols x u = .ok a u') : x u.symbols = .ok a u'.symbols ∧ u'.store = u.store := by
  rw [onSymbols] at h
  cases hx : x u.symbols with
  | error e s =>
    rw [hx] at h
    cases h
  | ok b s =>
    rw [hx] at h
    cases h
    exact ⟨rfl, rfl⟩

/-- The slots of variables are numbers from `first` on, different ones for different variables. -/
structure Slots.Numbered (first : Nat) (acc : Slots × Nat) : Prop where
  /-- No number is below the first one. -/
  le : first ≤ acc.2
  /-- The slots are numbers from the first one on. -/
  range : ∀ (i : Nat) s, acc.1[i]? = some s → ∃ n, first ≤ n ∧ n < acc.2 ∧ s = UInt16.ofNat n
  /-- Variables do not share slots. -/
  injective : acc.2 ≤ 65536 → ∀ (i j : Nat) s, acc.1[i]? = some s → acc.1[j]? = some s → i = j

theorem Slots.Numbered.insert {first : Nat} {acc : Slots × Nat} (h : Slots.Numbered first acc)
    (v : Nat) : Slots.Numbered first (acc.1.insert v (UInt16.ofNat acc.2), acc.2 + 1) := by
  refine ⟨Nat.le_succ_of_le h.le, fun i s hi => ?_, fun hle i j s hi hj => ?_⟩
  · rw [Std.TreeMap.getElem?_insert] at hi
    split at hi
    · cases hi
      exact ⟨acc.2, h.le, Nat.lt_succ_self _, rfl⟩
    · obtain ⟨n, hfirst, hn, hs⟩ := h.range i s hi
      exact ⟨n, hfirst, Nat.lt_succ_of_lt hn, hs⟩
  · simp only at hle
    have hnew (i : Nat) (hi : acc.1[i]? = some (UInt16.ofNat acc.2)) : False := by
      obtain ⟨n, -, hn, hs⟩ := h.range i _ hi
      have := congrArg UInt16.toNat hs
      rw [UInt16.toNat_ofNat_of_lt' (show acc.2 < 65536 by omega),
        UInt16.toNat_ofNat_of_lt' (show n < 65536 by omega)] at this
      omega
    rw [Std.TreeMap.getElem?_insert] at hi hj
    split at hi <;> split at hj
    · rename_i hi' hj'
      exact (Std.LawfulEqCmp.eq_of_compare hi').symm.trans (Std.LawfulEqCmp.eq_of_compare hj')
    · cases hi
      exact (hnew j hj).elim
    · cases hj
      exact (hnew i hi).elim
    · exact h.injective (by omega) i j s hi hj

/-- The slots of variables are numbered. -/
theorem numbered_variableSlots (first : Nat) (rules : List Rule) :
    Slots.Numbered first (variableSlots first rules) := by
  rw [variableSlots]
  refine List.foldlRecOn rules _ ⟨Nat.le_refl _, fun i s h => ?_, fun _ i j s h => ?_⟩
    fun acc hacc r _ => List.foldlRecOn r.vars _ hacc fun acc hacc v _ => ?_
  · rw [Std.TreeMap.getElem?_emptyc] at h
    cases h
  · rw [Std.TreeMap.getElem?_emptyc] at h
    cases h
  · simp only
    split
    · exact hacc
    · exact hacc.insert v.id

/-- Slots that are numbers from the first one on lie behind those before it. -/
theorem Slots.Numbered.behind {last : Nat} {acc : Slots × Nat} (h : Slots.Numbered (1 + last) acc)
    (hle : acc.2 ≤ 65536) : acc.1.Behind last := by
  have hfirst := h.le
  refine ⟨by omega, fun i s hi => ?_⟩
  obtain ⟨n, hn, hn', rfl⟩ := h.range i s hi
  rw [UInt16.toNat_ofNat_of_lt' (show n < 65536 by omega)]
  omega

/-- The lines of the second pass are packed as the clauses' code. -/
theorem Packing.standsAll {p : Program} {c : Chunk} (hp : p.Packing c) {slots : Slots}
    {rules : List Rule} {T : Tree → Prop} (hT : ∀ r ∈ rules, Body.Each T r.body) {size : UInt16}
    {first e : Emitter} (hrules : rules ≠ [])
    (hfirst : first.lines = #[.instruction (.allocate size), .instruction (.saveCut 0)])
    (hhandlers : first.handlers = #[]) (hnext : first.nextSlot = 1) (hlast : slots.Behind first.lastSlot)
    (h : Emit.rules slots rules none first = .ok () e) (hlines : p.lines = e.lines)
    (hphandlers : p.handlers = e.handlers) :
    (∃ pc₁ pc₂, c.Stands none 0 (.allocate size) pc₁ ∧ c.Stands none pc₁ (.saveCut 0) pc₂ ∧
      Rule.StandsAll c slots rules pc₂ 1) ∧ ∀ j, j < c.handlers.size → c.Catches slots T j := by
  obtain ⟨r, rs, rfl⟩ := List.exists_cons_of_ne_nil hrules
  obtain ⟨ls, hemits, hfresh⟩ := Emit.compiles_rules hp (fun _ => id) hT hlast h
  have hlabels := hemits.labels
  rw [hfirst] at hlabels
  have hwithin : e.Within p := by
    refine ⟨hlines ▸ List.prefix_refl _, hphandlers ▸ List.prefix_refl _, ?_⟩
    rw [hlines, hlabels]
    exact hfresh.nodup
  obtain ⟨hencloses, hcode⟩ := hemits.code hwithin
  have hsize : c.handlers.toList.length = e.handlers.size := by
    rw [← hp.handlers.length_eq, hphandlers]
    rfl
  have hnil := List.drop_of_length_le (Nat.le_of_eq hsize)
  obtain ⟨hall, hcatches⟩ := hcode none ⟨by simp [hhandlers], fun o _ _ => by rw [hnil]; rfl,
    fun x hx => absurd (hnil ▸ hx) List.not_mem_nil⟩
  have hall := hall rfl
  -- handlers start behind the first two instructions
  have hnone (o : Nat) (ho : o < first.pc) : c.handlerFor? o = none := by
    rw [Chunk.handlerFor?, ← Array.find?_toList, List.find?_eq_none]
    intro x hx
    have := (hencloses x (by rwa [hhandlers, Array.size_empty, List.drop_zero,
      List.take_of_length_le (Nat.le_of_eq hsize)])).1
    simp only [Chunk.Handler.covers, Bool.and_eq_true, decide_eq_true_eq]
    omega
  have hpc : first.pc = 6 := by
    rw [Emitter.pc, hfirst]
    rfl
  obtain ⟨rest, hrest⟩ := hemits.lines
  rw [hfirst] at hrest
  rw [hpc, hnext] at hall
  refine ⟨⟨3, 6, ?_, ?_, hall⟩, fun j hj => hcatches j (by simp [hhandlers]) (hsize ▸ hj)⟩
  · exact Emit.stands_of_lines hp (l := []) (by rw [hlines, ← hrest]; rfl) (hnone 0 (by omega)) rfl
  · exact Emit.stands_of_lines hp (l := [.instruction (.allocate size)])
      (by rw [hlines, ← hrest]; rfl) (hnone 3 (by omega)) rfl

end Program

/-- Code that is packed holds the clauses it is made from. -/
theorem Chunk.holds_of_ofClauses {tag : Tag} {clauses : List Clause} {u u' : Universe} {c : Chunk}
    (h : Chunk.ofClauses tag clauses u = .ok c u') :
    ∃ rules s, clauses.mapM (Rule.ofClause u.store) u.symbols = .ok rules s ∧ c.Holds rules ∧
      u.symbols.arity tag ≤ Program.maxOperand ∧ c.arity = .ofNat (u.symbols.arity tag) ∧
      s.Extends u'.symbols := by
  obtain ⟨p, u₁, hp, h⟩ := Program.Emit.bind_eq_ok.mp h
  cases hassemble : p.assemble with
  | error e =>
    rw [hassemble] at h
    cases h
  | ok chunk =>
  rw [hassemble] at h
  cases h
  have hpacking := Program.packing_of_assemble hassemble
  rw [Program.ofClauses] at hp
  obtain ⟨_, _, hget, hp⟩ := Program.Emit.bind_eq_ok.mp hp
  cases hget
  by_cases harity : Program.maxOperand < u.symbols.arity tag
  · simp only [harity, if_true] at hp
    cases hp
  simp only [harity, if_false] at hp
  obtain ⟨_, _, hget, hp⟩ := Program.Emit.bind_eq_ok.mp hp
  cases hget
  obtain ⟨rules, u₂, hrules, hp⟩ := Program.Emit.bind_eq_ok.mp hp
  obtain ⟨hrules, -⟩ := Program.onSymbols_eq_ok hrules
  by_cases hsize : Program.maxOperand <
      (Program.variableSlots (1 + total (rules.map fun r => Body.slots r.body)) rules).2
  · simp only [hsize, if_true] at hp
    cases hp
  simp only [hsize, if_false] at hp
  by_cases hempty : rules.isEmpty
  · simp only [hempty, if_true] at hp
    cases hp
    have hnil : rules = [] := List.isEmpty_iff.mp hempty
    have hhandlers : c.handlers.toList = [] := List.forall₂_nil_left_iff.mp hpacking.handlers
    have hnone (j : Nat) (hj : j < c.handlers.size) : False := by
      rw [← Array.length_toList, hhandlers] at hj
      cases hj
    refine ⟨rules, _, hrules, ⟨Nat.le_of_not_lt hsize, fun _ => ?_, fun _ _ j hj => (hnone j hj).elim,
      fun hne => absurd hnil hne⟩, Nat.le_of_not_lt harity, hpacking.arity, .refl _⟩
    refine Program.Emit.stands_of_lines hpacking (l := []) rfl ?_ rfl
    rw [Chunk.handlerFor?, ← Array.find?_toList, hhandlers]
    rfl
  · simp only [hempty] at hp
    obtain ⟨⟨⟩, u₃, hentered, hp⟩ := Program.Emit.bind_eq_ok.mp hp
    have hkeeps : Keeps Universe.Extends (clauses.forM fun c =>
        (modify fun u => (c.predicate? u).2 : EStateM CompileError Universe PUnit)) :=
      .forM (fun c => .modify fun u => c.extending_predicate? u) clauses
    have hext := hkeeps u₂
    rw [Yields, hentered] at hext
    obtain ⟨_, _, hget, hp⟩ := Program.Emit.bind_eq_ok.mp hp
    cases hget
    cases hemit : Program.Emit.rules (Program.variableSlots
        (1 + total (rules.map fun r => Body.slots r.body)) rules).1 rules none
      ⟨#[.instruction (.allocate (.ofNat (Program.variableSlots
        (1 + total (rules.map fun r => Body.slots r.body)) rules).2)), .instruction (.saveCut 0)],
        #[], 1, total (rules.map fun r => Body.slots r.body), 0, u₃.store.stamps⟩ with
    | error e e' =>
      rw [hemit] at hp
      cases hp
    | ok a emitter =>
    rw [hemit] at hp
    cases hp
    have hne : rules ≠ [] := fun hnil => hempty (by rw [hnil]; rfl)
    have hbehind := (Program.numbered_variableSlots
      (1 + total (rules.map fun r => Body.slots r.body)) rules).behind
        (Nat.le_succ_of_le (Nat.le_of_not_lt hsize))
    have hle := Nat.le_of_not_lt hsize
    have hstands {T : Tree → Prop} (hT : ∀ r ∈ rules, Body.Each T r.body) :=
      hpacking.standsAll hT hne rfl rfl rfl hbehind hemit rfl rfl
    exact ⟨rules, _, hrules, ⟨hle, fun hnil => absurd hnil hne, fun _ hT => (hstands hT).2,
      fun _ => (hstands (T := fun _ => True) fun r _ => Body.each_true r.body).1⟩,
      Nat.le_of_not_lt harity, hpacking.arity, hext.symbols⟩

end Resolvent
