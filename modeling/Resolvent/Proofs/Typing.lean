import Resolvent.Proofs.Decoding
import Resolvent.Proofs.Emission
import Resolvent.Proofs.Goals

/-!
# A typing of code

What code may rely on at an offset is a `Frame`: which barriers and alternatives it has left on the
choice stack and not yet taken back (`Mark`), which slots hold terms, which slots it must not write
because something on the choice stack relies on them, and how many operands there are at least.

`Chunk.Typed` says of an offset that the code from there on keeps to its frame: no instruction takes
an operand that is not there, reads a slot of the wrong kind or drops an alternative that is not on
top, and every place that a jump, an alternative or a handler leads to is typed again. The code of
clauses is typed from its start on (`Chunk.typed_of_holds`); the proof follows the goals, with the
typing of what stands behind a goal as hypothesis.
-/

namespace Resolvent

/-- What code has left on the choice stack and will take back. -/
inductive Mark where
  /-- An alternative in the same activation; where it was made there were these slots not to be
  written and these with terms. -/
  | alternative (keeps terms : Nat → Prop)
  /-- A barrier in a slot, with the handler that balls are brought to while it is open; whether it
  stands right above the mark below, and the slots as they were when it was saved. -/
  | barrier (slot : UInt16) (handler : Option Chunk.Handler) (exact : Prop)
    (keeps terms : Nat → Prop)

/-- The handler of a mark. -/
def Mark.handler? : Mark → Option Chunk.Handler
  | .alternative .. => none
  | .barrier _ h _ _ _ => h

/-- What code may rely on at an offset. -/
structure Frame where
  /-- The marks, the newest first. -/
  marks : List Mark
  /-- Whether the choice stack is as high as at the newest mark, or at the beginning. -/
  exact : Prop
  /-- The slots that must not be written. -/
  keeps : Nat → Prop
  /-- The slots that hold terms. -/
  terms : Nat → Prop
  /-- How many slots there are. -/
  size : Nat
  /-- How many operands there are at least. -/
  height : Nat

namespace Frame

/-- The handlers that balls are brought to, the innermost first. -/
def handlers (Γ : Frame) : List Chunk.Handler :=
  Γ.marks.filterMap Mark.handler?

/-- The frame of an activation that begins. -/
def entry : Frame :=
  ⟨[], True, fun _ => False, fun _ => False, 0, 0⟩

/-- The frame at an alternative that has been resumed. -/
def resumed (keeps terms : Nat → Prop) (marks : List Mark) (size : Nat) : Frame :=
  ⟨.alternative keeps terms :: marks, True, keeps, terms, size, 0⟩

/-- The frame behind an instruction that leaves an alternative, and at the alternative. -/
def alternative (Γ : Frame) : Frame :=
  resumed Γ.keeps Γ.terms Γ.marks Γ.size

/-- The frame behind an instruction that saves a barrier. -/
def barrier (Γ : Frame) (slot : UInt16) (h : Option Chunk.Handler) : Frame :=
  { Γ with
    marks := .barrier slot h Γ.exact Γ.keeps Γ.terms :: Γ.marks
    exact := True
    keeps := fun i => Γ.keeps i ∨ i = slot.toNat
    height := 0 }

/-- The second frame relies on less. -/
structure Weakens (Γ Γ' : Frame) : Prop where
  /-- The marks are the same. -/
  marks : Γ'.marks = Γ.marks
  /-- The height of the choice stack is still known. -/
  exact : Γ'.exact → Γ.exact
  /-- No more slots may be written. -/
  keeps : ∀ i, Γ.keeps i → Γ'.keeps i
  /-- The slots with terms are known. -/
  terms : ∀ i, Γ'.terms i → Γ.terms i
  /-- There are as many slots. -/
  size : Γ'.size = Γ.size
  /-- There are as many operands. -/
  height : Γ'.height ≤ Γ.height

end Frame

namespace Chunk

/-- The instruction stands at `pc`, where the handlers of the frame are in force. -/
structure At (c : Chunk) (Γ : Frame) (pc : Nat) (i : Instruction Term Tag Nat) (next : Nat) :
    Prop where
  /-- It stands there. -/
  stands : c.Stands Γ.handlers.head? pc i next
  /-- The handlers are in force. -/
  covers : ∀ k ∈ Γ.handlers, k.covers pc

/-- The code from an offset on keeps to the frame. -/
inductive Typed (c : Chunk) (s : Symbols) : Frame → Nat → Prop where
  | weaken {Γ Γ' : Frame} {pc : Nat} (h : Γ.Weakens Γ') (k : Typed c s Γ' pc) : Typed c s Γ pc
  | dropAlternative {Γ : Frame} {keeps terms : Nat → Prop} {marks : List Mark} {pc : Nat}
      (h : Γ.marks = .alternative keeps terms :: marks)
      (k : Typed c s { Γ with marks, exact := False } pc) : Typed c s Γ pc
  | dropBarrier {Γ : Frame} {slot : UInt16} {h : Option Handler} {exact : Prop}
      {keeps terms : Nat → Prop} {marks : List Mark} {pc : Nat}
      (hm : Γ.marks = .barrier slot h exact keeps terms :: marks)
      (hc : ∀ k ∈ h, k.covers pc = false)
      (k : Typed c s { Γ with marks, exact := Γ.exact ∧ exact } pc) : Typed c s Γ pc
  | pushConstant {Γ : Frame} {pc next : Nat} {t : Term} (h : c.At Γ pc (.pushConstant t) next)
      (ht : t.Fits s) (k : Typed c s { Γ with height := Γ.height + 1 } next) : Typed c s Γ pc
  | pushArgument {Γ : Frame} {pc next : Nat} {n : UInt16} (h : c.At Γ pc (.pushArgument n) next)
      (hn : n < c.arity) (k : Typed c s { Γ with height := Γ.height + 1 } next) : Typed c s Γ pc
  | pushEnvironment {Γ : Frame} {pc next : Nat} {n : UInt16}
      (h : c.At Γ pc (.pushEnvironment n) next) (hn : Γ.terms n.toNat)
      (k : Typed c s { Γ with height := Γ.height + 1 } next) : Typed c s Γ pc
  | createVariable {Γ : Frame} {pc next : Nat} (h : c.At Γ pc .createVariable next)
      (k : Typed c s { Γ with height := Γ.height + 1 } next) : Typed c s Γ pc
  | createCompound {Γ : Frame} {pc next : Nat} {tag : Tag} {n m : Nat}
      (h : c.At Γ pc (.createCompound tag) next) (ha : s.HasArity tag n) (hh : Γ.height = m + n)
      (k : Typed c s { Γ with height := m + 1 } next) : Typed c s Γ pc
  | allocate {Γ : Frame} {pc next : Nat} {n : UInt16} (h : c.At Γ pc (.allocate n) next)
      (hm : Γ.marks = []) (he : Γ.exact) (ht : ∀ i, ¬Γ.terms i)
      (k : Typed c s { Γ with size := n.toNat } next) : Typed c s Γ pc
  | storeEnvironment {Γ : Frame} {pc next m : Nat} {n : UInt16}
      (h : c.At Γ pc (.storeEnvironment n) next) (hh : Γ.height = m + 1) (hn : n.toNat < Γ.size)
      (hk : ¬Γ.keeps n.toNat)
      (k : Typed c s { Γ with terms := fun i => Γ.terms i ∨ i = n.toNat, height := m } next) :
      Typed c s Γ pc
  | jump {Γ : Frame} {pc next l : Nat} (h : c.At Γ pc (.jump l) next) (k : Typed c s Γ l) :
      Typed c s Γ pc
  | call {Γ : Frame} {pc next : Nat} {tag : Tag} {n : Nat} (h : c.At Γ pc (.call tag) next)
      (ha : s.HasArity tag n) (hh : n ≤ Γ.height) (hk : ∀ i, Γ.terms i → Γ.keeps i)
      (k : Typed c s { Γ with exact := False, height := 0 } next) : Typed c s Γ pc
  | leave {Γ : Frame} {pc next : Nat} (h : c.At Γ pc .leave next) (hh : Γ.handlers = []) :
      Typed c s Γ pc
  | succeed {Γ : Frame} {pc next : Nat} (h : c.At Γ pc .succeed next) (k : Typed c s Γ next) :
      Typed c s Γ pc
  | unify {Γ : Frame} {pc next m : Nat} (h : c.At Γ pc .unify next) (hh : Γ.height = m + 2)
      (k : Typed c s { Γ with height := m } next) : Typed c s Γ pc
  | tryMeElse {Γ : Frame} {pc next l : Nat} (h : c.At Γ pc (.tryMeElse l) next)
      (hk : ∀ i, Γ.terms i → Γ.keeps i) (k : Typed c s Γ.alternative next)
      (kl : Typed c s Γ.alternative l) : Typed c s Γ pc
  | retryMeElse {Γ : Frame} {pc next l : Nat} {keeps terms : Nat → Prop} {marks : List Mark}
      (h : c.At Γ pc (.retryMeElse l) next) (hm : Γ.marks = .alternative keeps terms :: marks)
      (he : Γ.exact) (k : Typed c s Γ next)
      (kl : Typed c s (.resumed keeps terms marks Γ.size) l) : Typed c s Γ pc
  | trustMe {Γ : Frame} {pc next : Nat} {keeps terms : Nat → Prop} {marks : List Mark}
      (h : c.At Γ pc .trustMe next) (hm : Γ.marks = .alternative keeps terms :: marks)
      (he : Γ.exact) (k : Typed c s { Γ with marks, exact := False } next) : Typed c s Γ pc
  | fail {Γ : Frame} {pc next : Nat} (h : c.At Γ pc .fail next) : Typed c s Γ pc
  | cut {Γ : Frame} {pc next : Nat} {n : UInt16} {above marks : List Mark}
      {hd : Option Handler} {exact : Prop} {keeps terms : Nat → Prop}
      (h : c.At Γ pc (.cut n) next)
      (hm : Γ.marks = above ++ .barrier n hd exact keeps terms :: marks)
      (ha : ∀ m ∈ above, m.handler? = none)
      (k : Typed c s { Γ with marks := .barrier n hd exact keeps terms :: marks, exact := True }
        next) : Typed c s Γ pc
  | saveCut {Γ : Frame} {pc next : Nat} {n : UInt16} (h : c.At Γ pc (.saveCut n) next)
      (hn : n.toNat < Γ.size) (hk : ¬Γ.keeps n.toNat) (ht : ∀ i, Γ.terms i → Γ.keeps i)
      (k : Typed c s (Γ.barrier n none) next) : Typed c s Γ pc
  | guard {Γ : Frame} {pc next : Nat} {k : Handler} (h : c.At Γ pc (.saveCut k.slot) next)
      (hn : k.slot.toNat < Γ.size) (hk : ¬Γ.keeps k.slot.toNat)
      (ht : ∀ i, Γ.terms i → Γ.keeps i) (hc : c.handlerFor? next = some k)
      (kb : Typed c s (Γ.barrier k.slot (some k)) next)
      (kt : Typed c s { Γ.barrier k.slot none with height := 1 } k.target.toNat) : Typed c s Γ pc
  | raise {Γ : Frame} {pc next m : Nat} (h : c.At Γ pc .raise next) (hh : Γ.height = m + 1) :
      Typed c s Γ pc

namespace Stands

variable {c : Chunk} {h : Option Handler} {pc next : Nat} {i : Instruction Term Tag Nat}

theorem lt (hi : c.Stands h pc i next) : pc < next := by
  obtain ⟨j, hj, -⟩ := hi.fetch
  exact (lt_of_fetch hj).1

theorem lt_size (hi : c.Stands h pc i next) : pc < c.code.size := by
  obtain ⟨j, hj, -⟩ := hi.fetch
  exact lt_size_of_fetch hj

theorem le_size (hi : c.Stands h pc i next) : next ≤ c.code.size := by
  obtain ⟨j, hj, -⟩ := hi.fetch
  exact (lt_of_fetch hj).2

end Stands

namespace Typed

variable {c : Chunk} {s : Symbols} {Γ : Frame} {pc : Nat}

/-- Code that is typed is still so when symbols have been added. -/
theorem mono {s' : Symbols} (hs : s.Extends s') (h : c.Typed s Γ pc) : c.Typed s' Γ pc := by
  induction h with
  | weaken h _ ih => exact .weaken h ih
  | dropAlternative h _ ih => exact .dropAlternative h ih
  | dropBarrier hm hc _ ih => exact .dropBarrier hm hc ih
  | pushConstant h ht _ ih => exact .pushConstant h (ht.mono hs) ih
  | pushArgument h hn _ ih => exact .pushArgument h hn ih
  | pushEnvironment h hn _ ih => exact .pushEnvironment h hn ih
  | createVariable h _ ih => exact .createVariable h ih
  | createCompound h ha hh _ ih => exact .createCompound h (ha.mono hs) hh ih
  | allocate h hm he ht _ ih => exact .allocate h hm he ht ih
  | storeEnvironment h hh hn hk _ ih => exact .storeEnvironment h hh hn hk ih
  | jump h _ ih => exact .jump h ih
  | call h ha hh hk _ ih => exact .call h (ha.mono hs) hh hk ih
  | leave h hh => exact .leave h hh
  | succeed h _ ih => exact .succeed h ih
  | unify h hh _ ih => exact .unify h hh ih
  | tryMeElse h hk _ _ ih ihl => exact .tryMeElse h hk ih ihl
  | retryMeElse h hm he _ _ ih ihl => exact .retryMeElse h hm he ih ihl
  | trustMe h hm he _ ih => exact .trustMe h hm he ih
  | fail h => exact .fail h
  | cut h hm ha _ ih => exact .cut h hm ha ih
  | saveCut h hn hk ht _ ih => exact .saveCut h hn hk ht ih
  | guard h hn hk ht hc _ _ ihb iht => exact .guard h hn hk ht hc ihb iht
  | raise h hh => exact .raise h hh

/-- What is typed lies in the code. -/
theorem lt_size (h : c.Typed s Γ pc) : pc < c.code.size := by
  induction h with
  | weaken _ _ ih | dropAlternative _ _ ih | dropBarrier _ _ _ ih => exact ih
  | pushConstant h | pushArgument h | pushEnvironment h | createVariable h | createCompound h
  | allocate h | storeEnvironment h | jump h | call h | leave h | succeed h | unify h | tryMeElse h
  | retryMeElse h | trustMe h | fail h | cut h | saveCut h | guard h | raise h =>
    exact h.stands.lt_size

end Typed

end Chunk

/-! ### Goals -/

namespace Chunk

/-- The handlers are in force between the offsets, the innermost being `h`. -/
structure Spans (ks : List Handler) (h : Option Handler) (pc pc' : Nat) : Prop where
  /-- The innermost one. -/
  head : ks.head? = h
  /-- All of them. -/
  covers : ∀ k ∈ ks, ∀ o, pc ≤ o → o < pc' → k.covers o

namespace Spans

variable {c : Chunk} {ks : List Handler} {h : Option Handler} {pc pc' : Nat}

theorem part (hs : Spans ks h pc pc') {a b : Nat} (ha : pc ≤ a) (hb : b ≤ pc') : Spans ks h a b :=
  ⟨hs.head, fun k hk o ho ho' => hs.covers k hk o (Nat.le_trans ha ho) (Nat.lt_of_lt_of_le ho' hb)⟩

/-- An instruction between the offsets, in a frame with these handlers. -/
theorem find {i : Instruction Term Tag Nat} {a b : Nat} (hs : Spans ks h pc pc')
    (hi : c.Stands h a i b) (ha : pc ≤ a) (hb : a < pc') {Γ : Frame}
    (hΓ : Γ.handlers = ks := by rfl) : c.At Γ a i b := by
  subst hΓ
  exact ⟨hs.head ▸ hi, fun k hk => hs.covers k hk a ha hb⟩

end Spans

variable {c : Chunk} {slots : Program.Slots} {h : Option Handler}

mutual

theorem Builds.lt : ∀ {t : Tree} {pc next : Nat}, c.Builds slots h t pc next → pc < next
  | _, _, _, .var _ hi => hi.lt
  | _, _, _, .constant _ hi => hi.lt
  | _, _, _, .compound hargs hi => Nat.lt_of_le_of_lt hargs.le hi.lt

theorem BuildsAll.le : ∀ {ts : List Tree} {pc next : Nat}, c.BuildsAll slots h ts pc next →
    pc ≤ next
  | _, _, _, .nil => Nat.le_refl _
  | _, _, _, .cons ht hts => Nat.le_trans (Nat.le_of_lt ht.lt) hts.le

end

/-- There are no more trees than bytes. -/
theorem BuildsAll.length_le : ∀ {ts : List Tree} {pc next : Nat}, c.BuildsAll slots h ts pc next →
    ts.length ≤ next - pc
  | _, _, _, .nil => Nat.zero_le _
  | _, _, _, .cons ht hts => by
    have hlt := ht.lt
    have hle := hts.le
    have hlength := hts.length_le
    rw [List.length_cons]
    omega

variable {s : Symbols} {V : Var → Prop}

mutual

/-- The code of a tree pushes an operand. -/
theorem Builds.typed : ∀ {t : Tree} {pc next : Nat} {Γ : Frame}, c.Builds slots h t pc next →
    Spans Γ.handlers h pc next → (∀ v n, V v → slots[v.id]? = some n → Γ.terms n.toNat) → t.Usable s V →
    c.Typed s { Γ with height := Γ.height + 1 } next → c.Typed s Γ pc
  | _, pc, next, Γ, .var (v := v) hn hi, hs, hV, ht, k =>
    .pushEnvironment (hs.find hi (Nat.le_refl _) hi.lt) (hV v _ (ht.vars v (by simp [Tree.nodes])) hn) k
  | _, pc, next, Γ, .constant _ hi, hs, _, ht, k =>
    .pushConstant (hs.find hi (Nat.le_refl _) hi.lt) (Term.fits_of_erase ht.fits) k
  | _, pc, next, Γ, .compound hargs hi, hs, hV, ht, k => by
    have hle := hargs.le
    refine hargs.typed (hs.part (Nat.le_refl _) (Nat.le_of_lt hi.lt)) hV (fun t h => ht.arg h) ?_
    have hat : c.At Γ _ _ next := hs.find hi hle hi.lt
    exact .createCompound (Γ := { Γ with height := _ }) ⟨hat.stands, hat.covers⟩ ht.arity rfl k

/-- The code of trees pushes as many operands. -/
theorem BuildsAll.typed : ∀ {ts : List Tree} {pc next : Nat} {Γ : Frame},
    c.BuildsAll slots h ts pc next → Spans Γ.handlers h pc next →
    (∀ v n, V v → slots[v.id]? = some n → Γ.terms n.toNat) → (∀ t ∈ ts, t.Usable s V) →
    c.Typed s { Γ with height := Γ.height + ts.length } next → c.Typed s Γ pc
  | _, _, _, _, .nil, _, _, _, k => k
  | _, pc, next, Γ, .cons ht hts, hs, hV, h, k => by
    rw [List.forall_mem_cons] at h
    refine ht.typed (hs.part (Nat.le_refl _) hts.le) hV h.1 ?_
    refine hts.typed (Γ := { Γ with height := Γ.height + 1 })
      (hs.part (Nat.le_of_lt ht.lt) (Nat.le_refl _)) hV h.2 ?_
    rw [List.length_cons] at k
    simpa only [Nat.add_assoc, Nat.add_comm 1] using k

end

end Chunk

variable {c : Chunk} {slots : Program.Slots}

mutual

/-- The code of a goal takes bytes and the slots that the goal needs. -/
theorem Goal.Stands.bounds : ∀ {g : Goal} {h : Option Chunk.Handler} {b : UInt16}
    {pc n pc' n' : Nat}, Goal.Stands c slots h b g pc n pc' n' → pc < pc' ∧ n' = n + g.slots
  | .callVar _, _, _, _, _, _, _, hg => by
    rw [Goal.Stands] at hg
    obtain ⟨rfl, s, pc₁, -, h₁, h₂⟩ := hg
    exact ⟨Nat.lt_trans h₁.lt h₂.lt, by rw [Goal.slots]; rfl⟩
  | .succeed, _, _, _, _, _, _, hg | .fail, _, _, _, _, _, _, hg
  | .cut, _, _, _, _, _, _, hg => by
    rw [Goal.Stands] at hg
    exact ⟨hg.2.lt, by rw [Goal.slots, hg.1]; rfl⟩
  | .either x y, _, _, _, _, _, _, hg => by
    rw [Goal.Stands] at hg
    obtain ⟨pc₁, pc₂, pc₃, pc₄, n₁, h₁, hx, h₂, h₃, hy⟩ := hg
    have := h₁.lt; have := h₂.lt; have := h₃.lt
    obtain ⟨_, rfl⟩ := Body.Stands.bounds hx
    obtain ⟨_, rfl⟩ := Body.Stands.bounds hy
    exact ⟨by omega, by rw [Goal.slots]; omega⟩
  | .ifThenElse x y z, _, _, _, _, _, _, hg => by
    rw [Goal.Stands] at hg
    obtain ⟨s, pc₁, pc₂, pc₃, pc₄, pc₅, pc₆, pc₇, pc₈, n₁, n₂, -, h₁, h₂, hx, h₃, h₄, hy, h₅, h₆,
      hz⟩ := hg
    have := h₁.lt; have := h₂.lt; have := h₃.lt; have := h₄.lt; have := h₅.lt; have := h₆.lt
    obtain ⟨_, rfl⟩ := Body.Stands.bounds hx
    obtain ⟨_, rfl⟩ := Body.Stands.bounds hy
    obtain ⟨_, rfl⟩ := Body.Stands.bounds hz
    exact ⟨by omega, by rw [Goal.slots]; omega⟩
  | .ifThen x y, _, _, _, _, _, _, hg => by
    rw [Goal.Stands] at hg
    obtain ⟨s, pc₁, pc₂, pc₃, pc₄, pc₅, pc₆, pc₇, pc₈, n₁, -, h₁, h₂, hx, h₃, h₄, hy, h₅, h₆,
      h₇⟩ := hg
    have := h₁.lt; have := h₂.lt; have := h₃.lt; have := h₄.lt; have := h₅.lt; have := h₆.lt
    have := h₇.lt
    obtain ⟨_, rfl⟩ := Body.Stands.bounds hx
    obtain ⟨_, rfl⟩ := Body.Stands.bounds hy
    exact ⟨by omega, by rw [Goal.slots]; omega⟩
  | .negation x, _, _, _, _, _, _, hg => by
    rw [Goal.Stands] at hg
    obtain ⟨s, pc₁, pc₂, pc₃, pc₄, pc₅, pc₆, -, h₁, h₂, hx, h₃, h₄, h₅, h₆⟩ := hg
    have := h₁.lt; have := h₂.lt; have := h₃.lt; have := h₄.lt; have := h₅.lt; have := h₆.lt
    obtain ⟨_, rfl⟩ := Body.Stands.bounds hx
    exact ⟨by omega, by rw [Goal.slots]; omega⟩
  | .unify x y, _, _, _, _, _, _, hg => by
    rw [Goal.Stands] at hg
    obtain ⟨rfl, pc₁, pc₂, hx, hy, h₁⟩ := hg
    exact ⟨Nat.lt_trans hx.lt (Nat.lt_trans hy.lt h₁.lt), by rw [Goal.slots]; rfl⟩
  | .raise x, _, _, _, _, _, _, hg => by
    rw [Goal.Stands] at hg
    obtain ⟨rfl, pc₁, hx, h₁⟩ := hg
    exact ⟨Nat.lt_trans hx.lt h₁.lt, by rw [Goal.slots]; rfl⟩
  | .guard x catcher y, _, _, _, _, _, _, hg => by
    rw [Goal.Stands] at hg
    obtain ⟨ball, k, pc₁, pc₂, pc₃, pc₄, pc₅, pc₆, pc₇, pc₈, pc₉, pc₁₀, pc₁₁, pc₁₂, pc₁₃, n₁, -, -,
      -, -, -, h₁, hx, h₂, h₃, h₄, hcatcher, h₅, h₆, h₇, hy, h₈, h₉, h₁₀, h₁₁⟩ := hg
    have := h₁.lt; have := h₂.lt; have := h₃.lt; have := h₄.lt; have := h₅.lt; have := h₆.lt
    have := h₇.lt; have := h₈.lt; have := h₉.lt; have := h₁₀.lt; have := h₁₁.lt
    have := hcatcher.lt
    obtain ⟨_, rfl⟩ := Body.Stands.bounds hx
    obtain ⟨_, rfl⟩ := Body.Stands.bounds hy
    exact ⟨by omega, by rw [Goal.slots]; omega⟩
  | .call tag args, _, _, _, _, _, _, hg => by
    rw [Goal.Stands] at hg
    obtain ⟨rfl, pc₁, hargs, h₁⟩ := hg
    exact ⟨Nat.lt_of_le_of_lt hargs.le h₁.lt, by rw [Goal.slots]; rfl⟩

theorem Body.Stands.bounds : ∀ {gs : List Goal} {h : Option Chunk.Handler} {b : UInt16}
    {pc n pc' n' : Nat}, Body.Stands c slots h b gs pc n pc' n' → pc ≤ pc' ∧ n' = n + Body.slots gs
  | [], _, _, _, _, _, _, hg => by
    rw [Body.Stands] at hg
    obtain ⟨rfl, rfl⟩ := hg
    exact ⟨Nat.le_refl _, by rw [Body.slots]; rfl⟩
  | g :: gs, _, _, _, _, _, _, hg => by
    rw [Body.Stands] at hg
    obtain ⟨pc₁, n₁, hg, hgs⟩ := hg
    obtain ⟨_, rfl⟩ := Goal.Stands.bounds hg
    obtain ⟨_, rfl⟩ := Body.Stands.bounds hgs
    exact ⟨by omega, by rw [Body.slots]; omega⟩

end

mutual

theorem Chunk.Builds.handlerFor? : ∀ {h : Option Chunk.Handler} {t : Tree} {pc next : Nat},
    c.Builds slots h t pc next → c.handlerFor? pc = h
  | _, _, _, _, .var _ hi => hi.handler
  | _, _, _, _, .constant _ hi => hi.handler
  | _, _, _, _, .compound hargs hi => hargs.handlerFor? hi.handler

/-- The code of trees begins with the code of the first one, or with what stands behind it. -/
theorem Chunk.BuildsAll.handlerFor? : ∀ {h : Option Chunk.Handler} {ts : List Tree} {pc next : Nat},
    c.BuildsAll slots h ts pc next → c.handlerFor? next = h → c.handlerFor? pc = h
  | _, _, _, _, .nil, h => h
  | _, _, _, _, .cons ht _, _ => ht.handlerFor?

end

/-- Balls thrown by the first instruction of a goal go to the goal's handler. -/
theorem Goal.Stands.handlerFor? {g : Goal} {h : Option Chunk.Handler} {b : UInt16}
    {pc n pc' n' : Nat} (hg : Goal.Stands c slots h b g pc n pc' n') : c.handlerFor? pc = h := by
  cases g with
  | callVar v =>
    rw [Goal.Stands] at hg
    obtain ⟨-, s, pc₁, -, h₁, -⟩ := hg
    exact h₁.handler
  | succeed | fail | cut =>
    rw [Goal.Stands] at hg
    exact hg.2.handler
  | either x y =>
    rw [Goal.Stands] at hg
    obtain ⟨pc₁, pc₂, pc₃, pc₄, n₁, h₁, -⟩ := hg
    exact h₁.handler
  | ifThenElse x y z =>
    rw [Goal.Stands] at hg
    obtain ⟨s, pc₁, pc₂, pc₃, pc₄, pc₅, pc₆, pc₇, pc₈, n₁, n₂, -, h₁, -⟩ := hg
    exact h₁.handler
  | ifThen x y =>
    rw [Goal.Stands] at hg
    obtain ⟨s, pc₁, pc₂, pc₃, pc₄, pc₅, pc₆, pc₇, pc₈, n₁, -, h₁, -⟩ := hg
    exact h₁.handler
  | negation x =>
    rw [Goal.Stands] at hg
    obtain ⟨s, pc₁, pc₂, pc₃, pc₄, pc₅, pc₆, -, h₁, -⟩ := hg
    exact h₁.handler
  | unify x y =>
    rw [Goal.Stands] at hg
    obtain ⟨-, pc₁, pc₂, hx, -⟩ := hg
    exact hx.handlerFor?
  | raise x =>
    rw [Goal.Stands] at hg
    obtain ⟨-, pc₁, hx, -⟩ := hg
    exact hx.handlerFor?
  | guard x catcher y =>
    rw [Goal.Stands] at hg
    obtain ⟨ball, k, pc₁, pc₂, pc₃, pc₄, pc₅, pc₆, pc₇, pc₈, pc₉, pc₁₀, pc₁₁, pc₁₂, pc₁₃, n₁, -, -,
      -, -, -, h₁, -⟩ := hg
    exact h₁.handler
  | call tag args =>
    rw [Goal.Stands] at hg
    obtain ⟨-, pc₁, hargs, h₁⟩ := hg
    exact hargs.handlerFor? h₁.handler

/-- The frame in which the code of a goal is typed: `!` cuts to the first of the marks `base`, and
the slots from `n` up to `last` may be written. -/
structure Frame.Carries (Γ : Frame) (slots : Program.Slots) (V : Var → Prop) (b : UInt16)
    (base : List Mark) (n last : Nat) : Prop where
  /-- Above the barrier of `!` there are no handlers. -/
  marks : ∃ above, Γ.marks = above ++ base ∧ ∀ m ∈ above, m.handler? = none
  /-- The barrier of `!`. -/
  barrier : ∃ h exact keeps terms rest, base = .barrier b h exact keeps terms :: rest
  /-- These slots may be written. -/
  keeps : ∀ i, Γ.keeps i → i < n ∨ last < i
  /-- Slots with terms are not written. -/
  terms : ∀ i, Γ.terms i → Γ.keeps i
  /-- The variables are in their slots. -/
  vars : ∀ v s, V v → slots[v.id]? = some s → Γ.terms s.toNat
  /-- These slots exist. -/
  size : last < Γ.size

/-- The frame with nothing known of the heights. -/
def Frame.reset (Γ : Frame) : Frame :=
  { Γ with exact := False, height := 0 }

/-- The frame behind a goal that took the slots up to `n`. -/
def Frame.behind (Γ : Frame) (base : List Mark) (n last : Nat) : Frame :=
  { Γ with marks := base, exact := False, keeps := fun i => i < n ∨ last < i, height := 0 }

namespace Frame.Carries

variable {Γ : Frame} {V : Var → Prop} {b : UInt16} {base : List Mark} {n last : Nat}

theorem handlers_eq (h : Γ.Carries slots V b base n last) (n' : Nat) :
    (Γ.behind base n' last).handlers = Γ.handlers := by
  obtain ⟨above, hmarks, hnone⟩ := h.marks
  rw [handlers, handlers, hmarks, List.filterMap_append, List.filterMap_eq_nil_iff.mpr hnone]
  rfl

/-- What is typed in the frame behind a goal is typed in the goal's frame. -/
theorem typed_of_behind {s : Symbols} (h : Γ.Carries slots V b base n last) {n' pc : Nat}
    (hn : n ≤ n') (k : c.Typed s (Γ.behind base n' last) pc) : c.Typed s Γ pc := by
  obtain ⟨above, hmarks, hnone⟩ := h.marks
  have hweak : c.Typed s { Γ with marks := base, exact := False } pc := by
    have hw : Frame.Weakens { Γ with marks := base, exact := False } (Γ.behind base n' last) :=
      ⟨rfl, id, fun i hi => (h.keeps i hi).imp_left fun hi => Nat.lt_of_lt_of_le hi hn,
        fun _ h => h, rfl, Nat.zero_le _⟩
    exact .weaken hw k
  -- the marks above are forgotten one by one
  have hdrop : ∀ (above : List Mark), (∀ m ∈ above, m.handler? = none) →
      c.Typed s { Γ with marks := above ++ base, exact := False } pc := by
    intro above
    induction above with
    | nil => exact fun _ => hweak
    | cons m above ih =>
      intro hnone
      rw [List.forall_mem_cons] at hnone
      cases m with
      | alternative keeps terms => exact .dropAlternative rfl (ih hnone.2)
      | barrier slot handler exact keeps terms =>
        obtain rfl : handler = none := hnone.1
        have hw : Frame.Weakens { Γ with marks := above ++ base, exact := False ∧ exact }
            { Γ with marks := above ++ base, exact := False } :=
          ⟨rfl, fun h => h.elim, fun _ h => h, fun _ h => h, rfl, Nat.le_refl _⟩
        exact .dropBarrier rfl nofun (.weaken hw (ih hnone.2))
  have hw : Γ.Weakens { Γ with marks := above ++ base, exact := False } :=
    ⟨hmarks.symm, fun h => h.elim, fun _ h => h, fun _ h => h, rfl, Nat.le_refl _⟩
  exact .weaken hw (hdrop above hnone)

/-- The frame behind a goal carries the next one. -/
theorem carries_behind (h : Γ.Carries slots V b base n last) {j : Nat} (hn : n ≤ j) :
    (Γ.behind base j last).Carries slots V b base j last :=
  ⟨⟨[], rfl, by simp⟩, h.barrier, fun _ h => h,
    fun i hi => (h.keeps i (h.terms i hi)).imp_left fun hi => Nat.lt_of_lt_of_le hi hn, h.vars, h.size⟩

theorem carries_reset (h : Γ.Carries slots V b base n last) {n' : Nat} (hn : n ≤ n') :
    Γ.reset.Carries slots V b base n' last :=
  ⟨h.marks, h.barrier, fun i hi => (h.keeps i hi).imp_left fun hi => Nat.lt_of_lt_of_le hi hn,
    h.terms, h.vars, h.size⟩

/-- The frame behind the goals of a condition carries the next goals. -/
theorem carries_within (h : Γ.Carries slots V b base n last) {n' : Nat} (hn : n ≤ n') :
    (Γ.behind Γ.marks n' last).Carries slots V b base n' last :=
  ⟨h.marks, h.barrier, fun _ h => h,
    fun i hi => (h.keeps i (h.terms i hi)).imp_left fun hi => Nat.lt_of_lt_of_le hi hn, h.vars, h.size⟩

/-- A frame that has an alternative more and nothing else. -/
theorem carries_alternative (h : Γ.Carries slots V b base n last) :
    Γ.alternative.Carries slots V b base n last := by
  obtain ⟨above, hmarks, hnone⟩ := h.marks
  refine ⟨⟨.alternative Γ.keeps Γ.terms :: above, ?_, ?_⟩, h.barrier, h.keeps, h.terms, h.vars,
    h.size⟩
  · rw [alternative, resumed, hmarks]
    rfl
  · exact List.forall_mem_cons.mpr ⟨rfl, hnone⟩

/-- A frame that has a barrier more, to which `!` cuts. -/
theorem carries_barrier {s : UInt16} {hd : Option Chunk.Handler} {m : Nat}
    (h : Γ.Carries slots V b base n last) (hs : s.toNat < m) (hm : n ≤ m) :
    (Γ.barrier s hd).Carries slots V s (Γ.barrier s hd).marks m last := by
  refine ⟨⟨[], rfl, by simp⟩, ⟨_, _, _, _, _, rfl⟩, fun i hi => ?_, fun i hi => .inl (h.terms i hi),
    h.vars, h.size⟩
  obtain hi | rfl := hi
  · exact (h.keeps i hi).imp_left fun hi => Nat.lt_of_lt_of_le hi hm
  · exact .inl hs

end Frame.Carries

section Goals

open Chunk (Typed Spans)

variable {s : Symbols} {V : Var → Prop} {last : Nat}

/-- The code at an alternative that is dropped. -/
theorem Chunk.Stands.typed_alternative {h : Option Chunk.Handler} {Γ : Frame} {pc next : Nat}
    (hi : c.Stands h pc .trustMe next) (hs : Spans Γ.handlers h pc next)
    (k : c.Typed s Γ.reset next) : c.Typed s Γ.alternative pc :=
  .trustMe (hs.find hi (Nat.le_refl _) hi.lt) rfl trivial k

/-- The code of goals whose first solution is committed to: the alternative below is dropped then. -/
theorem Frame.Carries.typed_condition {h : Option Chunk.Handler} {b m : UInt16} {Γ : Frame}
    {base : List Mark} {pc pc₁ pc₂ pc₃ pc₄ pc₅ l n j : Nat}
    (hc : Γ.Carries slots V b base n last) (hs : Spans Γ.handlers h pc pc₅) (hm : m.toNat = n)
    (hn : n < j) (hlast : j ≤ last + 1) (h₁ : c.Stands h pc (.tryMeElse l) pc₁)
    (h₂ : c.Stands h pc₁ (.saveCut m) pc₂) (hle : pc₂ ≤ pc₃) (h₃ : c.Stands h pc₃ (.cut m) pc₄)
    (h₄ : c.Stands h pc₄ .trustMe pc₅)
    (hx : ∀ (Γ : Frame) (base : List Mark), Spans Γ.handlers h pc₂ pc₃ →
      Γ.Carries slots V m base (n + 1) last → c.Typed s (Γ.behind base j last) pc₃ →
      c.Typed s Γ pc₂)
    (k : c.Typed s (Γ.behind Γ.marks j last) pc₅) (kl : c.Typed s Γ.alternative l) :
    c.Typed s Γ pc := by
  have := h₁.lt; have := h₂.lt; have := h₃.lt; have := h₄.lt
  have hsize := hc.size
  have ha := hc.carries_alternative
  refine .tryMeElse (hs.find h₁ (Nat.le_refl _) (by omega)) hc.terms ?_ kl
  refine .saveCut (hs.find h₂ (by omega) (by omega)) (show m.toNat < Γ.size by omega) ?_
    hc.terms ?_
  · rw [hm]
    exact fun hk => (ha.keeps _ hk).elim (Nat.lt_irrefl _) (by omega)
  refine hx (Γ.alternative.barrier m none) _ (hs.part (by omega) (by omega))
    (ha.carries_barrier (by omega) (Nat.le_succ _)) ?_
  refine .cut (hs.find h₃ (by omega) (by omega)) (List.nil_append _).symm (by simp) ?_
  exact .dropBarrier rfl nofun (.trustMe (hs.find h₄ (by omega) (by omega)) rfl ⟨trivial, trivial⟩ k)

/-- Code behind a barrier that is given up. -/
theorem Chunk.Typed.of_barrier {Γ Γ' : Frame} {m : UInt16} {hd : Option Chunk.Handler} {exact : Prop}
    {keeps terms : Nat → Prop} {pc n' : Nat} (k : c.Typed s (Γ.behind Γ.marks n' last) pc)
    (hm : Γ'.marks = .barrier m hd exact keeps terms :: Γ.marks)
    (hc : ∀ k ∈ hd, k.covers pc = false) (hk : ∀ i, Γ'.keeps i → i < n' ∨ last < i)
    (ht : ∀ i, Γ.terms i → Γ'.terms i) (hs : Γ'.size = Γ.size) : c.Typed s Γ' pc := by
  have hw : Frame.Weakens { Γ' with marks := Γ.marks, exact := Γ'.exact ∧ exact }
      (Γ.behind Γ.marks n' last) := ⟨rfl, fun h => h.elim, hk, ht, hs.symm, Nat.zero_le _⟩
  exact .dropBarrier hm hc (.weaken hw k)

mutual

/-- The code of a goal is typed if what stands behind it is. -/
theorem Goal.Stands.typed : ∀ {g : Goal} {h : Option Chunk.Handler} {b : UInt16}
    {pc n pc' n' : Nat} {Γ : Frame} {base : List Mark}, Goal.Stands c slots h b g pc n pc' n' →
    Spans Γ.handlers h pc pc' → Γ.Carries slots V b base n last → n' ≤ last + 1 →
    g.Each (Tree.Usable s V) → c.Typed s (Γ.behind base n' last) pc' → c.Typed s Γ pc
  | .callVar v, h, b, pc, n, pc', n', Γ, base, hg, hs, hc, hlast, he, k => by
    rw [Goal.Stands] at hg
    rw [Goal.Each] at he
    obtain ⟨rfl, m, pc₁, hm, h₁, h₂⟩ := hg
    have := h₁.lt; have := h₂.lt
    refine .pushEnvironment (hs.find h₁ (Nat.le_refl _) (by omega))
      (hc.vars v m (he.vars v (by simp [Tree.nodes, Tree.nodesAll])) hm) ?_
    refine .call (hs.find h₂ (by omega) (by omega))
      he.arity (Nat.le_add_left _ _) hc.terms ?_
    exact (hc.carries_reset (Nat.le_refl _)).typed_of_behind (Nat.le_refl _) k
  | .succeed, h, b, pc, n, pc', n', Γ, base, hg, hs, hc, hlast, he, k => by
    rw [Goal.Stands] at hg
    obtain ⟨rfl, h₁⟩ := hg
    exact .succeed (hs.find h₁ (Nat.le_refl _) h₁.lt) (hc.typed_of_behind (Nat.le_refl _) k)
  | .fail, h, b, pc, n, pc', n', Γ, base, hg, hs, hc, hlast, he, k => by
    rw [Goal.Stands] at hg
    exact .fail (hs.find hg.2 (Nat.le_refl _) hg.2.lt)
  | .cut, h, b, pc, n, pc', n', Γ, base, hg, hs, hc, hlast, he, k => by
    rw [Goal.Stands] at hg
    obtain ⟨rfl, h₁⟩ := hg
    obtain ⟨above, hmarks, hnone⟩ := hc.marks
    obtain ⟨hd, exact, keeps, terms, rest, rfl⟩ := hc.barrier
    refine .cut (hs.find h₁ (Nat.le_refl _) h₁.lt) hmarks hnone ?_
    have hw : Frame.Weakens { Γ with marks := .barrier b hd exact keeps terms :: rest, exact := True }
        (Γ.behind (.barrier b hd exact keeps terms :: rest) n' last) :=
      ⟨rfl, fun _ => trivial, hc.keeps, fun _ h => h, rfl, Nat.zero_le _⟩
    exact .weaken hw k
  | .either x y, h, b, pc, n, pc', n', Γ, base, hg, hs, hc, hlast, he, k => by
    rw [Goal.Stands] at hg
    rw [Goal.Each] at he
    obtain ⟨pc₁, pc₂, pc₃, pc₄, n₁, h₁, hx, h₂, h₃, hy⟩ := hg
    have := h₁.lt; have := h₂.lt; have := h₃.lt
    obtain ⟨_, hn₁⟩ := hx.bounds
    obtain ⟨_, hn'⟩ := hy.bounds
    refine .tryMeElse (hs.find h₁ (Nat.le_refl _) (by omega)) hc.terms ?_ ?_
    · refine Body.Stands.typed hx (hs.part (by omega) (by omega)) hc.carries_alternative
        (by omega) he.1 ?_
      have hb := hc.carries_behind (j := n₁) (by omega)
      refine .jump (hs.find h₂ (by omega) (by omega) (hc.handlers_eq n₁)) ?_
      exact hb.typed_of_behind (by omega) k
    · refine h₃.typed_alternative (hs.part (by omega) (by omega)) ?_
      exact Body.Stands.typed hy (hs.part (by omega) (by omega)) (hc.carries_reset (by omega)) hlast
        he.2 k
  | .ifThenElse x y z, h, b, pc, n, pc', n', Γ, base, hg, hs, hc, hlast, he, k => by
    rw [Goal.Stands] at hg
    rw [Goal.Each] at he
    obtain ⟨m, pc₁, pc₂, pc₃, pc₄, pc₅, pc₆, pc₇, pc₈, n₁, n₂, hm, h₁, h₂, hx, h₃, h₄, hy, h₅, h₆,
      hz⟩ := hg
    have := h₁.lt; have := h₂.lt; have := h₃.lt; have := h₄.lt; have := h₅.lt; have := h₆.lt
    obtain ⟨_, hn₁⟩ := hx.bounds
    obtain ⟨_, hn₂⟩ := hy.bounds
    obtain ⟨_, hn'⟩ := hz.bounds
    refine hc.typed_condition (j := n₁) (hs.part (by omega) (by omega)) hm (by omega) (by omega)
      h₁ h₂ (by omega) h₃ h₄
      (fun Γ base hs hc k => Body.Stands.typed hx hs hc (by omega) he.1 k) ?_ ?_
    · refine Body.Stands.typed hy (hs.part (by omega) (by omega)) (hc.carries_within (by omega))
        (by omega) he.2.1 ?_
      refine .jump (hs.find h₅ (by omega) (by omega) (hc.handlers_eq n₂)) ?_
      exact (hc.carries_behind (j := n₂) (by omega)).typed_of_behind (by omega) k
    · refine h₆.typed_alternative (hs.part (by omega) (by omega)) ?_
      exact Body.Stands.typed hz (hs.part (by omega) (by omega)) (hc.carries_reset (by omega)) hlast
        he.2.2 k
  | .ifThen x y, h, b, pc, n, pc', n', Γ, base, hg, hs, hc, hlast, he, k => by
    rw [Goal.Stands] at hg
    rw [Goal.Each] at he
    obtain ⟨m, pc₁, pc₂, pc₃, pc₄, pc₅, pc₆, pc₇, pc₈, n₁, hm, h₁, h₂, hx, h₃, h₄, hy, h₅, h₆,
      h₇⟩ := hg
    have := h₁.lt; have := h₂.lt; have := h₃.lt; have := h₄.lt; have := h₅.lt; have := h₆.lt
    have := h₇.lt
    obtain ⟨_, hn₁⟩ := hx.bounds
    obtain ⟨_, hn'⟩ := hy.bounds
    refine hc.typed_condition (j := n₁) (hs.part (by omega) (by omega)) hm (by omega) (by omega)
      h₁ h₂ (by omega) h₃ h₄
      (fun Γ base hs hc k => Body.Stands.typed hx hs hc (by omega) he.1 k) ?_ ?_
    · refine Body.Stands.typed hy (hs.part (by omega) (by omega)) (hc.carries_within (by omega))
        (by omega) he.2 ?_
      exact .jump (hs.find h₅ (by omega) (by omega) (hc.handlers_eq n')) k
    · refine h₆.typed_alternative (hs.part (by omega) (by omega)) ?_
      exact .fail (hs.find h₇ (by omega) (by omega))
  | .negation x, h, b, pc, n, pc', n', Γ, base, hg, hs, hc, hlast, he, k => by
    rw [Goal.Stands] at hg
    rw [Goal.Each] at he
    obtain ⟨m, pc₁, pc₂, pc₃, pc₄, pc₅, pc₆, hm, h₁, h₂, hx, h₃, h₄, h₅, h₆⟩ := hg
    have := h₁.lt; have := h₂.lt; have := h₃.lt; have := h₄.lt; have := h₅.lt; have := h₆.lt
    obtain ⟨_, hn'⟩ := hx.bounds
    refine hc.typed_condition (j := n') (hs.part (by omega) (by omega)) hm (by omega) (by omega)
      h₁ h₂ (by omega) h₃ h₄
      (fun Γ base hs hc k => Body.Stands.typed hx hs hc (by omega) he k) ?_ ?_
    · exact .fail (hs.find h₅ (by omega) (by omega))
    · refine h₆.typed_alternative (hs.part (by omega) (by omega)) ?_
      exact (hc.carries_reset (Nat.le_refl _)).typed_of_behind (by omega) k
  | .unify x y, h, b, pc, n, pc', n', Γ, base, hg, hs, hc, hlast, he, k => by
    rw [Goal.Stands] at hg
    rw [Goal.Each] at he
    obtain ⟨rfl, pc₁, pc₂, hx, hy, h₁⟩ := hg
    have := hx.lt; have := hy.lt; have := h₁.lt
    refine hx.typed (hs.part (by omega) (by omega)) hc.vars he.1 ?_
    refine hy.typed (Γ := { Γ with height := Γ.height + 1 }) (hs.part (by omega) (by omega)) hc.vars
      he.2 ?_
    refine .unify (hs.find h₁ (by omega) (by omega)) rfl ?_
    exact hc.typed_of_behind (Nat.le_refl _) k
  | .raise x, h, b, pc, n, pc', n', Γ, base, hg, hs, hc, hlast, he, k => by
    rw [Goal.Stands] at hg
    rw [Goal.Each] at he
    obtain ⟨rfl, pc₁, hx, h₁⟩ := hg
    have := hx.lt; have := h₁.lt
    refine hx.typed (hs.part (by omega) (by omega)) hc.vars he ?_
    exact .raise (hs.find h₁ (by omega) (by omega)) rfl
  | .guard x catcher y, h, b, pc, n, pc', n', Γ, base, hg, hs, hc, hlast, he, k => by
    rw [Goal.Stands] at hg
    rw [Goal.Each] at he
    obtain ⟨ball, kh, pc₁, pc₂, pc₃, pc₄, pc₅, pc₆, pc₇, pc₈, pc₉, pc₁₀, pc₁₁, pc₁₂, pc₁₃, n₁, hball,
      hslot, hstart, hstop, htarget, h₁, hx, h₂, h₃, h₄, hcatcher, h₅, h₆, h₇, hy, h₈, h₉, h₁₀,
      h₁₁⟩ := hg
    have := h₁.lt; have := h₂.lt; have := h₃.lt; have := h₄.lt; have := h₅.lt; have := h₆.lt
    have := h₇.lt; have := h₈.lt; have := h₉.lt; have := h₁₀.lt; have := h₁₁.lt
    have := hcatcher.lt
    obtain ⟨_, hn₁⟩ := hx.bounds
    obtain ⟨_, hn'⟩ := hy.bounds
    have hsize := hc.size
    have hfree (i : Nat) (hi : n ≤ i) (hi' : i ≤ last) : ¬Γ.keeps i :=
      fun hk => (hc.keeps i hk).elim (by omega) (by omega)
    have hkeeps (i : Nat) (hi : Γ.keeps i ∨ i = kh.slot.toNat) : i < n₁ ∨ last < i := by
      obtain hi | rfl := hi
      · exact (hc.keeps i hi).imp_left (by omega)
      · exact .inl (by omega)
    -- the jump behind the goal, where the handler is not in force any more
    have hdone : c.Typed s (Γ.behind Γ.marks n₁ last) pc₂ := by
      refine .jump (hs.find h₂ (by omega) (by omega)) ?_
      exact (hc.carries_within (by omega)).typed_of_behind (by omega) k
    cases hx' : x with
    | nil =>
      rw [hx', Body.Stands] at hx
      refine .saveCut (hs.find h₁ (Nat.le_refl _) (by omega)) (by omega)
        (hfree _ (by omega) (by omega)) hc.terms ?_
      rw [← hx.1]
      exact hdone.of_barrier rfl nofun hkeeps (fun _ h => h) rfl
    | cons g gs =>
    have hin : c.handlerFor? pc₁ = some kh := by
      rw [hx', Body.Stands] at hx
      obtain ⟨_, _, hg, -⟩ := hx
      exact hg.handlerFor?
    refine .guard (hs.find h₁ (Nat.le_refl _) (by omega)) (by omega)
      (hfree _ (by omega) (by omega)) hc.terms hin ?_ ?_
    · refine Body.Stands.typed (n := n + 2) hx ⟨rfl, ?_⟩
        (hc.carries_barrier (by omega) (by omega)) (by omega) he.1 ?_
      · intro k hk o ho ho'
        obtain rfl | hk := List.mem_cons.mp hk
        · rw [Chunk.Handler.covers, Bool.and_eq_true, decide_eq_true_eq, decide_eq_true_eq]
          omega
        · exact hs.covers k hk o (by omega) (by omega)
      · refine hdone.of_barrier rfl (fun k hk => ?_) (fun _ h => h) (fun _ h => h) rfl
        obtain rfl := Option.some.inj hk
        rw [Chunk.Handler.covers, Bool.and_eq_false_iff, decide_eq_false_iff_not,
          decide_eq_false_iff_not]
        exact .inr (by omega)
    · rw [htarget]
      -- the frame in which the catcher and the recovery are typed
      let Γ₄ : Frame := { Γ.barrier kh.slot none with
        keeps := fun i => i < n₁ ∨ last < i, terms := fun i => Γ.terms i ∨ i = ball.toNat }
      have hc₄ : Γ₄.Carries slots V kh.slot Γ₄.marks n₁ last := by
        refine ⟨⟨[], rfl, by simp⟩, ⟨_, _, _, _, _, rfl⟩, fun _ h => h, fun i hi => ?_,
          fun v m hv hm => .inl (hc.vars v m hv hm), hc.size⟩
        exact hi.elim (fun hi => hkeeps i (.inl (hc.terms i hi))) fun hi => .inl (by omega)
      refine .storeEnvironment (hs.find h₃ (by omega) (by omega)) rfl
        (show ball.toNat < Γ.size by omega) ?_ ?_
      · exact fun hk => hk.elim (hfree _ (by omega) (by omega)) (by omega)
      have hw : Frame.Weakens { Γ.barrier kh.slot none with
          terms := fun i => Γ.terms i ∨ i = ball.toNat } Γ₄ :=
        ⟨rfl, id, hkeeps, fun _ h => h, rfl, Nat.le_refl _⟩
      refine .weaken hw (.tryMeElse (hs.find h₄ (by omega) (by omega)) hc₄.terms ?_ ?_)
      · refine hcatcher.typed (Γ := Γ₄.alternative) (hs.part (by omega) (by omega)) hc₄.vars he.2.1 ?_
        refine .pushEnvironment (hs.find h₅ (by omega) (by omega)) (.inr rfl) ?_
        refine .unify (hs.find h₆ (by omega) (by omega)) rfl ?_
        refine .trustMe (hs.find h₇ (by omega) (by omega)) rfl trivial ?_
        refine Body.Stands.typed (Γ := Γ₄.reset) hy (hs.part (by omega) (by omega))
          (hc₄.carries_reset (Nat.le_refl _)) hlast he.2.2 ?_
        refine .jump (hs.find h₈ (by omega) (by omega)) ?_
        have hw : c.Typed s (Γ.behind Γ.marks n' last) pc' :=
          (hc.carries_within (by omega)).typed_of_behind (Nat.le_refl _) k
        exact hw.of_barrier rfl nofun (fun _ h => h) (fun _ h => .inl h) rfl
      · refine h₉.typed_alternative (hs.part (by omega) (by omega)) ?_
        refine .pushEnvironment (hs.find h₁₀ (by omega) (by omega)) (.inr rfl) ?_
        exact .raise (hs.find h₁₁ (by omega) (by omega)) rfl
  | .call tag args, h, b, pc, n, pc', n', Γ, base, hg, hs, hc, hlast, he, k => by
    rw [Goal.Stands] at hg
    rw [Goal.Each] at he
    obtain ⟨rfl, pc₁, hargs, h₁⟩ := hg
    have := hargs.le; have := h₁.lt
    refine hargs.typed (hs.part (by omega) (by omega)) hc.vars (fun t ht => he.arg ht) ?_
    refine .call (hs.find h₁ (by omega) (by omega)) he.arity
      (Nat.le_add_left _ _) hc.terms ?_
    exact (hc.carries_reset (Nat.le_refl _)).typed_of_behind (Nat.le_refl _) k

/-- The code of goals is typed if what stands behind it is. -/
theorem Body.Stands.typed : ∀ {gs : List Goal} {h : Option Chunk.Handler} {b : UInt16}
    {pc n pc' n' : Nat} {Γ : Frame} {base : List Mark}, Body.Stands c slots h b gs pc n pc' n' →
    Spans Γ.handlers h pc pc' → Γ.Carries slots V b base n last → n' ≤ last + 1 →
    Body.Each (Tree.Usable s V) gs → c.Typed s (Γ.behind base n' last) pc' → c.Typed s Γ pc
  | [], h, b, pc, n, pc', n', Γ, base, hg, hs, hc, hlast, he, k => by
    rw [Body.Stands] at hg
    obtain ⟨rfl, rfl⟩ := hg
    exact hc.typed_of_behind (Nat.le_refl _) k
  | g :: gs, h, b, pc, n, pc', n', Γ, base, hg, hs, hc, hlast, he, k => by
    rw [Body.Stands] at hg
    rw [Body.Each] at he
    obtain ⟨pc₁, n₁, hg, hgs⟩ := hg
    obtain ⟨_, hn₁⟩ := hg.bounds
    obtain ⟨_, hn'⟩ := hgs.bounds
    refine Goal.Stands.typed hg (hs.part (by omega) (by omega)) hc (by omega) he.1 ?_
    exact Body.Stands.typed hgs ((hc.handlers_eq n₁).symm ▸ hs.part (by omega) (by omega))
      (hc.carries_behind (by omega)) hlast he.2 k

end

end Goals

/-! ### Clauses -/

namespace Rule

/-- The numbers of variables, those of a tree added. -/
abbrev seenWith (t : Tree) (seen : Std.TreeMap Nat Unit) : Std.TreeMap Nat Unit :=
  t.vars.foldl (fun seen v => seen.insert v.id ()) seen

/-- An argument is stored only if it is a variable that has not been seen. -/
theorem directArguments_cons (t : Tree) (args : List Tree) (seen : Std.TreeMap Nat Unit) :
    ∃ d, directArguments (t :: args) seen = d :: directArguments args (seenWith t seen) ∧
      ∀ v, d = some v → t = .var v ∧ ¬seen.contains v.id := by
  cases t with
  | var v =>
    rw [directArguments]
    refine ⟨_, rfl, fun w hw => ?_⟩
    split at hw
    · cases hw
    · rename_i hnot
      cases hw
      exact ⟨rfl, hnot⟩
  | const c => exact ⟨none, by rw [directArguments]; simp, nofun⟩
  | compound tag args => exact ⟨none, by rw [directArguments]; simp, nofun⟩

theorem length_directArguments : ∀ (args : List Tree) (seen : Std.TreeMap Nat Unit),
    (directArguments args seen).length = args.length
  | [], _ => rfl
  | t :: args, seen => by
    obtain ⟨d, hd, -⟩ := directArguments_cons t args seen
    rw [hd, List.length_cons, length_directArguments, List.length_cons]

theorem contains_foldl {v : Var} : ∀ {vs : List Var} {seen : Std.TreeMap Nat Unit},
    v ∈ vs ∨ seen.contains v.id →
      (vs.foldl (fun seen v => seen.insert v.id ()) seen).contains v.id
  | [], _, h => h.resolve_left List.not_mem_nil
  | w :: vs, seen, h => by
    rw [List.foldl_cons]
    refine contains_foldl ?_
    rw [Std.TreeMap.contains_insert, Bool.or_eq_true, beq_iff_eq]
    obtain h | h := h
    · obtain rfl | h := List.mem_cons.mp h
      · exact .inr (.inl Std.ReflCmp.compare_self)
      · exact .inl h
    · exact .inr (.inr h)

/-- A variable that has been seen is not stored. -/
theorem not_mem_directArguments {v : Var} : ∀ {args : List Tree} {seen : Std.TreeMap Nat Unit},
    seen.contains v.id → some v ∉ directArguments args seen
  | [], _, _ => List.not_mem_nil
  | t :: args, seen, h => by
    obtain ⟨d, hd, hdirect⟩ := directArguments_cons t args seen
    rw [hd, List.mem_cons, not_or]
    exact ⟨fun heq => (hdirect v heq.symm).2 h,
      not_mem_directArguments (contains_foldl (.inr h))⟩

/-- A variable of an argument is not stored by those behind it. -/
theorem not_mem_directArguments_of_mem {v : Var} {t : Tree} {args : List Tree}
    {seen : Std.TreeMap Nat Unit} (h : .var v ∈ t.nodes) :
    some v ∉ directArguments args (seenWith t seen) := by
  have hmem : v ∈ t.vars := Var.mem_distinct
    (List.mem_filterMap.mpr ⟨.var v, by rwa [Tree.postorder_eq], rfl⟩)
  exact not_mem_directArguments (contains_foldl (.inl hmem))

end Rule

namespace Chunk

/-- There are no more arguments than numbers for them. -/
theorem StandsHead.le : ∀ {args : List (Tree × Option Var)} {i pc pc' : Nat},
    c.StandsHead slots i args pc pc' → pc ≤ pc' ∧ (args ≠ [] → i + args.length ≤ 65536)
  | [], _, _, _, h => by
    rw [StandsHead] at h
    exact ⟨Nat.le_of_eq h.symm, fun h => absurd rfl h⟩
  | (t, some v) :: args, i, pc, pc', h => by
    rw [StandsHead] at h
    obtain ⟨k, s, pc₁, pc₂, hk, -, h₁, h₂, h⟩ := h
    have := h₁.lt; have := h₂.lt; have := k.toNat_lt
    obtain ⟨hle, hlen⟩ := StandsHead.le h
    refine ⟨by omega, fun _ => ?_⟩
    rw [List.length_cons]
    cases args with
    | nil => simp; omega
    | cons a args => have := hlen (by simp); omega
  | (t, none) :: args, i, pc, pc', h => by
    rw [StandsHead] at h
    obtain ⟨k, pc₁, pc₂, pc₃, hk, h₁, ht, h₂, h⟩ := h
    have := h₁.lt; have := h₂.lt; have := ht.lt; have := k.toNat_lt
    obtain ⟨hle, hlen⟩ := StandsHead.le h
    refine ⟨by omega, fun _ => ?_⟩
    rw [List.length_cons]
    cases args with
    | nil => simp; omega
    | cons a args => have := hlen (by simp); omega

theorem spans_nil (pc pc' : Nat) : Spans [] none pc pc' :=
  ⟨rfl, by simp⟩

end Chunk

/-- No handler is in force, and the slots of variables may be written; they are behind the slot
`last`. -/
structure Frame.Opens (Γ : Frame) (slots : Program.Slots) (last : Nat) : Prop where
  /-- No handler is in force. -/
  handlers : Γ.handlers = []
  /-- These slots may be written. -/
  slots : ∀ (i : Nat) m, slots[i]? = some m → last < m.toNat ∧ m.toNat < Γ.size ∧ ¬Γ.keeps m.toNat

section Clauses

open Chunk (spans_nil)

variable {s : Symbols} {V : Var → Prop} {last : Nat}

/-- The code that makes variables is typed if what stands behind it is, once their slots hold
terms. -/
theorem Chunk.StandsVariables.typed : ∀ {vs : List Var} {pc pc' : Nat} {Γ : Frame},
    c.StandsVariables slots vs pc pc' → Γ.Opens slots last →
    (∀ T : Nat → Prop, (∀ i, Γ.terms i → T i) → (∀ i, T i → Γ.terms i ∨ last < i) →
      (∀ v ∈ vs, ∀ m, slots[v.id]? = some m → T m.toNat) →
      c.Typed s { Γ with terms := T } pc') → c.Typed s Γ pc
  | [], _, _, Γ, h, ho, k => by
    rw [StandsVariables] at h
    subst h
    exact k Γ.terms (fun _ h => h) (fun _ h => .inl h) (by simp)
  | v :: vs, pc, _, Γ, h, ho, k => by
    rw [StandsVariables] at h
    obtain ⟨m, pc₁, pc₂, hm, h₁, h₂, h⟩ := h
    obtain ⟨hlast, hsize, hfree⟩ := ho.slots _ m hm
    have hs := spans_nil pc pc₂
    have := h₁.lt
    refine .createVariable (hs.find h₁ (Nat.le_refl _) (Nat.lt_trans h₁.lt h₂.lt) ho.handlers) ?_
    refine .storeEnvironment (hs.find h₂ (Nat.le_of_lt h₁.lt) h₂.lt ho.handlers) rfl hsize hfree ?_
    refine StandsVariables.typed h (Γ := { Γ with terms := fun i => Γ.terms i ∨ i = m.toNat })
      ⟨ho.handlers, ho.slots⟩ fun T hT hT' hvs => k T (fun i hi => hT i (.inl hi)) (fun i hi => ?_)
        (List.forall_mem_cons.mpr ⟨fun m' hm' => ?_, hvs⟩)
    · obtain (hi | rfl) | hi := hT' i hi
      · exact .inl hi
      · exact .inr hlast
      · exact .inr hi
    · obtain rfl := Option.some.inj (hm.symm.trans hm')
      exact hT _ (.inr rfl)

/-- The code of head arguments is typed if what stands behind it is, once the slots of all variables
hold terms. `S` says what the arguments before did. -/
theorem Chunk.StandsHead.typed : ∀ {args : List Tree} {seen : Std.TreeMap Nat Unit}
    {S : List (Option Var)} {i pc pc' : Nat} {Γ : Frame},
    c.StandsHead slots i (args.zip (Rule.directArguments args seen)) pc pc' → Γ.Opens slots last →
    i + args.length ≤ c.arity.toNat → (∀ t ∈ args, t.Usable s V) →
    (∀ v, V v → some v ∉ S ++ Rule.directArguments args seen ∨ some v ∈ S →
      ∀ m, slots[v.id]? = some m → Γ.terms m.toNat) →
    (∀ T : Nat → Prop, (∀ i, T i → Γ.terms i ∨ last < i) →
      (∀ v, V v → ∀ m, slots[v.id]? = some m → T m.toNat) →
      c.Typed s { Γ with terms := T } pc') → c.Typed s Γ pc
  | [], seen, S, _, _, _, Γ, h, ho, _, _, hcov, k => by
    rw [List.zip_nil_left, StandsHead] at h
    subst h
    refine k Γ.terms (fun _ h => .inl h) fun v hv => hcov v hv ?_
    rw [Rule.directArguments, List.append_nil]
    exact (Classical.em _).symm
  | t :: args, seen, S, i, pc, _, Γ, h, ho, hle, hargs, hcov, k => by
    rw [List.forall_mem_cons] at hargs
    rw [List.length_cons] at hle
    obtain ⟨d, hd, hdirect⟩ := Rule.directArguments_cons t args seen
    rw [hd, List.zip_cons_cons] at h
    rw [hd] at hcov
    cases d with
    | some v =>
      rw [StandsHead] at h
      obtain ⟨n, m, pc₁, pc₂, hn, hm, h₁, h₂, h⟩ := h
      obtain ⟨hlast, hsize, hfree⟩ := ho.slots _ m hm
      have hs := spans_nil pc pc₂
      refine .pushArgument (hs.find h₁ (Nat.le_refl _) (Nat.lt_trans h₁.lt h₂.lt) ho.handlers)
        (UInt16.lt_iff_toNat_lt.mpr (by omega)) ?_
      refine .storeEnvironment (hs.find h₂ (Nat.le_of_lt h₁.lt) h₂.lt ho.handlers) rfl hsize hfree ?_
      refine StandsHead.typed (S := S ++ [some v])
        (Γ := { Γ with terms := fun i => Γ.terms i ∨ i = m.toNat }) h ⟨ho.handlers, ho.slots⟩
        (by omega) hargs.2 (fun w hw hor m' hm' => ?_) fun T hT hall => k T (fun i hi => ?_) hall
      · rw [List.append_assoc, List.singleton_append] at hor
        by_cases heq : w = v
        · subst heq
          exact .inr (congrArg _ (Option.some.inj (hm'.symm.trans hm)))
        · exact .inl (hcov w hw (by simpa [heq] using hor) m' hm')
      · obtain (hi | rfl) | hi := hT i hi
        · exact .inl hi
        · exact .inr hlast
        · exact .inr hi
    | none =>
      rw [StandsHead] at h
      obtain ⟨n, pc₁, pc₂, pc₃, hn, h₁, ht, h₂, h⟩ := h
      have hs := spans_nil pc pc₃
      have := h₁.lt; have := ht.lt; have := h₂.lt
      refine .pushArgument (hs.find h₁ (Nat.le_refl _) (by omega) ho.handlers)
        (UInt16.lt_iff_toNat_lt.mpr (by omega)) ?_
      -- its variables have been stored before
      refine ht.typed (V := fun v => V v ∧ .var v ∈ t.nodes) (Γ := { Γ with height := Γ.height + 1 })
        (ho.handlers ▸ spans_nil _ _) (fun v m ⟨hv, hmem⟩ hm => hcov v hv ?_ m hm)
        ⟨hargs.1.fits, fun v hv => ⟨hargs.1.vars v hv, hv⟩⟩ ?_
      · by_cases hstored : some v ∈ S
        · exact .inr hstored
        · refine .inl ?_
          simpa [hstored] using Rule.not_mem_directArguments_of_mem hmem
      refine .unify (hs.find h₂ (by omega) (by omega) ho.handlers) rfl ?_
      refine StandsHead.typed (S := S ++ [none]) h ho (by omega) hargs.2
        (fun w hw hor m' hm' => hcov w hw ?_ m' hm') k
      simpa using hor

/-- The frame in which the code of a clause is typed: `!` cuts to the barrier in slot 0, and the
slots from `n` up to `last` may be written too. -/
structure Frame.Begins (Γ : Frame) (slots : Program.Slots) (n last : Nat) : Prop
    extends Γ.Opens slots last where
  /-- The barrier of `!` is the only one. -/
  marks : ∃ above exact keeps terms, Γ.marks = above ++ [.barrier 0 none exact keeps terms] ∧
    ∀ m ∈ above, m.handler? = none
  /-- These slots may be written. -/
  keeps : ∀ i, Γ.keeps i → i < n
  /-- No slot holds a term. -/
  terms : ∀ i, ¬Γ.terms i
  /-- The slots exist. -/
  size : last < Γ.size

theorem Frame.Begins.mono {Γ : Frame} {n n' : Nat} (h : Γ.Begins slots n last) (hn : n ≤ n') :
    Γ.Begins slots n' last :=
  ⟨h.toOpens, h.marks, fun i hi => Nat.lt_of_lt_of_le (h.keeps i hi) hn, h.terms, h.size⟩

theorem Rule.Stands.le {r : Rule} {pc n pc' n' : Nat} (h : r.Stands c slots pc n pc' n') :
    n' = n + Body.slots r.body := by
  obtain ⟨pc₁, pc₂, pc₃, -, -, hbody, -⟩ := h
  exact hbody.bounds.2

/-- The code of a clause is typed. -/
theorem Rule.Stands.typed {tag : Tag} {r : Rule} {pc n pc' n' : Nat} {Γ : Frame}
    (h : r.Stands c slots pc n pc' n') (hb : Γ.Begins slots n last) (hr : r.Fits s tag)
    (hc : c.arity.toNat = s.arity tag) (hlast : n' ≤ last + 1) : c.Typed s Γ pc := by
  obtain ⟨pc₁, pc₂, pc₃, hvars, hhead, hbody, hleave⟩ := h
  have harity : r.args.length ≤ c.arity.toNat := by
    rw [hc, hr.arity.arity_eq]
    have hlen := hhead.le.2
    rw [List.length_zip, Rule.length_directArguments, Nat.min_self] at hlen
    cases hargs : r.args with
    | nil => exact Nat.zero_le _
    | cons t args =>
      obtain ⟨d, hd, -⟩ := Rule.directArguments_cons t args ∅
      have := hlen (by rw [hargs, hd]; simp)
      rw [← hargs]
      exact Nat.le_of_eq (Nat.mod_eq_of_lt (by omega)).symm
  obtain ⟨above, exact, keeps, terms, hmarks, hnone⟩ := hb.marks
  refine hvars.typed hb.toOpens fun T _ hT hunstored => ?_
  refine hhead.typed (S := []) (V := (· ∈ r.vars)) (Γ := { Γ with terms := T })
    ⟨hb.handlers, hb.slots⟩ (by omega) hr.args (fun v hv hor m hm => ?_) fun T' hT' hall => ?_
  · rw [List.nil_append] at hor
    refine hunstored v (List.mem_filter.mpr ⟨hv, ?_⟩) m hm
    simpa using hor
  let Γ' : Frame := { Γ with terms := T', keeps := fun i => i < n ∨ last < i }
  have hw : Frame.Weakens { Γ with terms := T' } Γ' :=
    ⟨rfl, id, fun i hi => .inl (hb.keeps i hi), fun _ h => h, rfl, Nat.le_refl _⟩
  have hc : Γ'.Carries slots (· ∈ r.vars) 0 [.barrier 0 none exact keeps terms] n last := by
    refine ⟨⟨above, hmarks, hnone⟩, ⟨_, _, _, _, _, rfl⟩, fun _ h => h, fun i hi => ?_,
      fun v m hv => hall v hv m, hb.size⟩
    exact .inr ((hT' i hi).elim (fun hi => (hT i hi).resolve_left (hb.terms i)) id)
  refine .weaken hw (hbody.typed (Γ := Γ') (hb.handlers ▸ spans_nil _ _) hc hlast hr.body ?_)
  exact .leave ((spans_nil _ _).find hleave (Nat.le_refl _) hleave.lt
    ((hc.handlers_eq n').trans hb.handlers)) ((hc.handlers_eq n').trans hb.handlers)

/-- The code of the clauses behind the first one is typed at its alternative. -/
theorem Rule.StandsRest.typed {tag : Tag} : ∀ {rs : List Rule} {r : Rule} {pc n : Nat} {Γ : Frame},
    r.StandsRest c slots rs pc n → Γ.Begins slots n last →
    (∀ r' ∈ r :: rs, r'.Fits s tag) → c.arity.toNat = s.arity tag →
    n + total ((r :: rs).map fun r => Body.slots r.body) ≤ last + 1 → c.Typed s Γ.alternative pc
  | [], r, pc, n, Γ, h, hb, hr, hc, hlast => by
    rw [StandsRest] at h
    obtain ⟨pc₁, pc', n', h₁, h⟩ := h
    have hn := h.le
    obtain ⟨hr, -⟩ := List.forall_mem_cons.mp hr
    simp only [List.map_cons, List.map_nil, total_cons, total_nil] at hlast
    refine h₁.typed_alternative (hb.handlers ▸ spans_nil _ _) ?_
    exact h.typed (Γ := Γ.reset) ⟨⟨hb.handlers, hb.slots⟩, hb.marks, hb.keeps, hb.terms, hb.size⟩ hr hc
      (by omega)
  | r' :: rs, r, pc, n, Γ, h, hb, hr, hc, hlast => by
    rw [StandsRest] at h
    obtain ⟨pc₁, pc', n', h₁, h, hrest⟩ := h
    have hn := h.le
    rw [List.forall_mem_cons] at hr
    rw [List.map_cons, total_cons] at hlast
    obtain ⟨above, exact, keeps, terms, hmarks, hnone⟩ := hb.marks
    refine .retryMeElse ((spans_nil _ _).find h₁ (Nat.le_refl _) h₁.lt hb.handlers) rfl trivial ?_ ?_
    · refine h.typed (Γ := Γ.alternative) ⟨⟨hb.handlers, hb.slots⟩,
        ⟨.alternative Γ.keeps Γ.terms :: above, exact, keeps, terms, ?_, ?_⟩, hb.keeps, hb.terms,
        hb.size⟩ hr.1 hc (by omega)
      · exact congrArg _ hmarks
      · exact List.forall_mem_cons.mpr ⟨rfl, hnone⟩
    · exact StandsRest.typed hrest (hb.mono (by omega)) hr.2 hc (by omega)

/-- The code of clauses is typed. -/
theorem Rule.StandsAll.typed {tag : Tag} {rs : List Rule} {pc n : Nat} {Γ : Frame}
    (h : Rule.StandsAll c slots rs pc n) (hb : Γ.Begins slots n last)
    (hr : ∀ r' ∈ rs, r'.Fits s tag) (hc : c.arity.toNat = s.arity tag)
    (hlast : n + total (rs.map fun r => Body.slots r.body) ≤ last + 1) : c.Typed s Γ pc := by
  match rs with
  | [] => exact h.elim
  | [r] =>
    obtain ⟨pc', n', h⟩ := h
    have hn := h.le
    obtain ⟨hr, -⟩ := List.forall_mem_cons.mp hr
    simp only [List.map_cons, List.map_nil, total_cons, total_nil] at hlast
    exact h.typed hb hr hc (by omega)
  | r :: r' :: rs =>
    obtain ⟨pc₁, pc', n', h₁, h, hrest⟩ := h
    have hn := h.le
    rw [List.forall_mem_cons] at hr
    rw [List.map_cons, total_cons] at hlast
    obtain ⟨above, exact, keeps, terms, hmarks, hnone⟩ := hb.marks
    refine .tryMeElse ((spans_nil _ _).find h₁ (Nat.le_refl _) h₁.lt hb.handlers)
      (fun i hi => (hb.terms i hi).elim) ?_ ?_
    · refine h.typed (Γ := Γ.alternative) ⟨⟨hb.handlers, hb.slots⟩,
        ⟨.alternative Γ.keeps Γ.terms :: above, exact, keeps, terms, ?_, ?_⟩, hb.keeps, hb.terms,
        hb.size⟩ hr.1 hc (by omega)
      · exact congrArg _ hmarks
      · exact List.forall_mem_cons.mpr ⟨rfl, hnone⟩
    · exact StandsRest.typed hrest (hb.mono (by omega)) hr.2 hc (by omega)

end Clauses

/-- The code is typed from its start on. -/
def Chunk.Sound (c : Chunk) (s : Symbols) : Prop :=
  c.Typed s .entry 0

/-- The code of clauses that fit is typed. -/
theorem Chunk.Holds.sound {rules : List Rule} (h : c.Holds rules) {s : Symbols} {tag : Tag}
    (hr : ∀ r ∈ rules, r.Fits s tag) (hc : c.arity.toNat = s.arity tag) : c.Sound s := by
  by_cases hrules : rules = []
  · have h₁ := h.fail hrules
    exact .fail ((spans_nil _ _).find h₁ (Nat.le_refl _) h₁.lt)
  obtain ⟨pc₁, pc₂, h₁, h₂, hall⟩ := h.rules hrules
  have hnumbered := Program.numbered_variableSlots
    (1 + total (rules.map fun r => Body.slots r.body)) rules
  have hmax := h.size_le
  rw [Program.maxOperand] at hmax
  have hsize : (UInt16.ofNat (Program.variableSlots
      (1 + total (rules.map fun r => Body.slots r.body)) rules).2).toNat =
      (Program.variableSlots (1 + total (rules.map fun r => Body.slots r.body)) rules).2 :=
    UInt16.toNat_ofNat_of_lt' (by show _ < 65536; omega)
  have hle := hnumbered.le
  refine .allocate ((spans_nil _ _).find h₁ (Nat.le_refl _) h₁.lt) rfl trivial
    (fun _ h => h) ?_
  refine .saveCut ((spans_nil _ _).find h₂ (Nat.le_refl _) h₂.lt) ?_ (fun h => h) (fun _ h => h) ?_
  · show 0 < (UInt16.ofNat _).toNat
    omega
  refine hall.typed (?_ : Frame.Begins _ _ _ (total (rules.map fun r => Body.slots r.body))) hr hc
    (by omega)
  refine ⟨⟨rfl, fun i m hm => ?_⟩, ⟨[], _, _, _, rfl, by simp⟩, fun i hi => ?_, fun _ h => h, ?_⟩
  · obtain ⟨k, hk, hk', rfl⟩ := hnumbered.range i m hm
    have hkm : (UInt16.ofNat k).toNat = k := UInt16.toNat_ofNat_of_lt' (by show _ < 65536; omega)
    refine ⟨by omega, ?_, fun hkeeps => ?_⟩
    · show (UInt16.ofNat k).toNat < (UInt16.ofNat _).toNat
      omega
    · obtain hkeeps | hkeeps := hkeeps
      · exact hkeeps
      · rw [hkm] at hkeeps
        simp at hkeeps
        omega
  · obtain hi | rfl := hi
    · exact hi.elim
    · exact Nat.one_pos
  · show _ < (UInt16.ofNat _).toNat
    omega

/-- The code of fitting clauses, all of whose heads have the tag, is typed, and its calls have as
many arguments as the tag says. -/
theorem Chunk.sound_of_ofClauses {tag : Tag} {n : Nat} {clauses : List Clause} {u u' : Universe}
    {c : Chunk} (hu : u.Fits) (htag : u.symbols.HasArity tag n)
    (hc : ∀ cl ∈ clauses, cl.Heads u tag ∧ cl.head.Fits u.symbols ∧ cl.body.Fits u.symbols)
    (h : Chunk.ofClauses tag clauses u = .ok c u') :
    c.Sound u'.symbols ∧ c.arity.toNat = u.symbols.arity tag := by
  obtain ⟨rules, s, hrules, hholds, hmax, hca, hext⟩ := Chunk.holds_of_ofClauses h
  obtain ⟨hs, hfits⟩ := yields_ok (Rule.fits_mapM hu hc u.symbols (.refl _)) hrules
  have hca : c.arity.toNat = u.symbols.arity tag := by
    rw [hca]
    exact UInt16.toNat_ofNat_of_lt' (Nat.lt_succ_of_le hmax)
  refine ⟨.mono hext (hholds.sound hfits ?_), hca⟩
  rw [hca, htag.arity_eq, (htag.mono hs).arity_eq]

end Resolvent
