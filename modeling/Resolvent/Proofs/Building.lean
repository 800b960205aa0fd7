import Resolvent.Proofs.Fitting
import Resolvent.Proofs.Packing

/-!
# Code that builds terms

The code of a tree pushes one operand. Where the tree has no variables it is one instruction, which
pushes the tree as a constant; else the code of the arguments stands in front of the functor's.
`Program.Emit.Folds` says this of the lines that are written (`Program.Emit.folds_of_build`), and
`Program.Emit.Writes` is what is left of it if one does not ask which parts are constants.

The second pass finds out whether there is a variable in the arguments of a functor by looking at as many
lines as there are arguments. These are lines of the arguments themselves, whatever stands in front of
them, and so all of them push constants only if each argument is one (`lastConstants?_of_folds`).
-/

namespace Resolvent

/-! ### Terms without variables -/

mutual

/-- The tree that a term is, no bindings read. -/
def Term.erase : Term → Tree
  | .var v => .var v
  | .const c => .const c
  | .compound _ tag args => .compound tag (Term.eraseAll args)

/-- The trees that terms are, no bindings read. -/
def Term.eraseAll : List Term → List Tree
  | [] => []
  | t :: ts => t.erase :: Term.eraseAll ts

end

@[simp] theorem Term.length_eraseAll (ts : List Term) :
    (Term.eraseAll ts).length = ts.length := by
  induction ts with
  | nil => rfl
  | cons t ts ih => simp [eraseAll, ih]

/-- There is no variable in the term. -/
inductive Term.Ground : Term → Prop where
  | const (c : Constant) : Ground (.const c)
  | compound (stamp : Nat) (tag : Tag) {args : List Term} (h : ∀ t ∈ args, Ground t) :
    Ground (.compound stamp tag args)

mutual

/-- A term without variables is read as it is. -/
theorem Term.Ground.treeWithin_eq : ∀ {t : Term}, t.Ground → ∀ (σ : Store) (n : Nat),
    σ.treeWithin n t = t.erase
  | .const c, _, σ, n => by rw [Store.treeWithin, Term.erase]
  | .compound stamp tag args, .compound _ _ h, σ, n => by
    rw [Store.treeWithin, Term.erase, Term.treesWithin_eq_of_ground h]

theorem Term.treesWithin_eq_of_ground : ∀ {ts : List Term}, (∀ t ∈ ts, t.Ground) →
    ∀ (σ : Store) (n : Nat), σ.treesWithin n ts = Term.eraseAll ts
  | [], _, σ, n => by rw [Store.treesWithin, Term.eraseAll]
  | t :: ts, h, σ, n => by
    rw [List.forall_mem_cons] at h
    rw [Store.treesWithin, Term.eraseAll, h.1.treeWithin_eq, Term.treesWithin_eq_of_ground h.2]

end

mutual

theorem Term.fits_of_erase {s : Symbols} : ∀ {t : Term}, t.erase.Fits s → t.Fits s
  | .var v, _ => .var v
  | .const c, _ => .const c
  | .compound _ tag args, .compound h hargs =>
    .compound (by rwa [Term.length_eraseAll] at h) (Term.fits_of_eraseAll hargs)

theorem Term.fits_of_eraseAll {s : Symbols} : ∀ {ts : List Term},
    (∀ t ∈ Term.eraseAll ts, t.Fits s) → ∀ t ∈ ts, t.Fits s
  | [], _ => fun _ ht => absurd ht List.not_mem_nil
  | t :: ts, h => by
    rw [Term.eraseAll, List.forall_mem_cons] at h
    exact List.forall_mem_cons.mpr ⟨Term.fits_of_erase h.1, Term.fits_of_eraseAll h.2⟩

end

namespace Tree

mutual

/-- Whether there is no variable in the tree. -/
def isGround : Tree → Bool
  | .var _ => false
  | .const _ => true
  | .compound _ args => allGround args

/-- Whether there is no variable in the trees. -/
def allGround : List Tree → Bool
  | [] => true
  | t :: ts => isGround t && allGround ts

end

end Tree

mutual

theorem Term.Ground.isGround_erase : ∀ {t : Term}, t.Ground → t.erase.isGround
  | .const c, _ => rfl
  | .compound stamp tag args, .compound _ _ h => by
    rw [Term.erase, Tree.isGround, Term.allGround_eraseAll h]

theorem Term.allGround_eraseAll : ∀ {ts : List Term}, (∀ t ∈ ts, t.Ground) →
    Tree.allGround (Term.eraseAll ts)
  | [], _ => rfl
  | t :: ts, h => by
    rw [List.forall_mem_cons] at h
    rw [Term.eraseAll, Tree.allGround, h.1.isGround_erase, Term.allGround_eraseAll h.2]
    rfl

end

namespace Program.Emit

variable {slots : Slots}

/-! ### Results of steps -/

theorem bind_eq_ok {ε σ α β : Type} {x : EStateM ε σ α} {f : α → EStateM ε σ β} {b : β}
    {s s' : σ} : (x >>= f) s = .ok b s' ↔ ∃ a s₁, x s = .ok a s₁ ∧ f a s₁ = .ok b s' := by
  simp only [bind, EStateM.bind]
  cases x s <;> simp

theorem forM_append_eq_ok {ε σ α : Type} {f : α → EStateM ε σ PUnit} {l' : List α} {s' : σ} :
    ∀ {l : List α} {s : σ}, (l ++ l').forM f s = .ok ⟨⟩ s' ↔
      ∃ s₁, l.forM f s = .ok ⟨⟩ s₁ ∧ l'.forM f s₁ = .ok ⟨⟩ s'
  | [], s => ⟨fun h => ⟨s, rfl, h⟩, fun ⟨_, h, h'⟩ => by cases h; exact h'⟩
  | a :: l, s => by
    change (f a >>= fun _ => (l ++ l').forM f) s = .ok ⟨⟩ s' ↔
      ∃ s₁, (f a >>= fun _ => l.forM f) s = .ok ⟨⟩ s₁ ∧ _
    simp only [bind_eq_ok, forM_append_eq_ok]
    constructor
    · rintro ⟨⟨⟩, s₁, h₁, s₂, h₂, h₃⟩
      exact ⟨s₂, ⟨⟨⟩, s₁, h₁, h₂⟩, h₃⟩
    · rintro ⟨s₂, ⟨⟨⟩, s₁, h₁, h₂⟩, h₃⟩
      exact ⟨⟨⟩, s₁, h₁, s₂, h₂, h₃⟩

theorem slot_eq_ok {v : Var} {n : UInt16} {e e' : Emitter}
    (h : slot slots v e = .ok n e') : slots[v.id]? = some n ∧ e' = e := by
  rw [slot] at h
  cases hm : slots[v.id]? with
  | none =>
    rw [hm] at h
    cases h
  | some m =>
    rw [hm] at h
    cases h
    exact ⟨rfl, rfl⟩

/-! ### Lines that build a tree -/

/-- The line that pushes a constant. -/
abbrev constantLine (c : Term) : Line :=
  .instruction (.pushConstant c)

mutual

/-- The lines push the tree. -/
inductive Writes (slots : Slots) : Tree → List Line → Prop where
  | var {v : Var} {n : UInt16} (h : slots[v.id]? = some n) :
    Writes slots (.var v) [.instruction (.pushEnvironment n)]
  | constant {c : Term} (h : c.Ground) : Writes slots c.erase [constantLine c]
  | compound {tag : Tag} {args : List Tree} {ls : List Line} (h : WritesAll slots args ls) :
    Writes slots (.compound tag args) (ls ++ [.instruction (.createCompound tag)])

/-- The lines push the trees, one after the other. -/
inductive WritesAll (slots : Slots) : List Tree → List Line → Prop where
  | nil : WritesAll slots [] []
  | cons {t : Tree} {ts : List Tree} {ls ls' : List Line} (h : Writes slots t ls)
      (hs : WritesAll slots ts ls') : WritesAll slots (t :: ts) (ls ++ ls')

end

/-- The last line pushes a constant only if it is the only one. -/
theorem Writes.last {t : Tree} {ls : List Line} (h : Writes slots t ls) :
    (∃ c, ls = [constantLine c] ∧ c.Ground ∧ c.erase = t) ∨
      ∃ before l, ls = before ++ [l] ∧ pushedConstant? l = none := by
  cases h with
  | var h => exact .inr ⟨[], _, rfl, rfl⟩
  | constant h => exact .inl ⟨_, rfl, h, rfl⟩
  | compound h => exact .inr ⟨_, _, rfl, rfl⟩

theorem Writes.length_pos {t : Tree} {ls : List Line} (h : Writes slots t ls) :
    0 < ls.length := by
  obtain ⟨c, rfl, -⟩ | ⟨before, l, rfl, -⟩ := h.last <;> simp

theorem WritesAll.length_le : ∀ {ts : List Tree} {ls : List Line},
    WritesAll slots ts ls → ts.length ≤ ls.length
  | [], _, .nil => Nat.le_refl _
  | t :: ts, _, .cons h hs => by
    have := h.length_pos
    have := hs.length_le
    simp only [List.length_cons, List.length_append]
    omega

/-- If as many lines as there are trees push constants at the end, there are no others. -/
theorem WritesAll.eq_of_constants : ∀ {ts : List Tree} {ls : List Line}
    {cs : List Term}, WritesAll slots ts ls →
      (ls.drop (ls.length - ts.length)).mapM pushedConstant? = some cs →
      ls = cs.map constantLine ∧ (∀ c ∈ cs, c.Ground) ∧ Term.eraseAll cs = ts
  | [], _, cs, .nil, hc => by
    obtain rfl : cs = [] := by simpa using hc.symm
    exact ⟨rfl, by simp, rfl⟩
  | t :: ts, _, cs, @WritesAll.cons _ _ _ ls ls' h hs, hc => by
    have hle := hs.length_le
    have hpos := h.length_pos
    rw [List.length_append, List.length_cons] at hc
    rw [List.drop_eq_getElem_cons (by rw [List.length_append]; omega), List.mapM_cons] at hc
    obtain ⟨c, hcl, hc⟩ := Option.bind_eq_some_iff.mp hc
    obtain ⟨cs, hcs, hc⟩ := Option.bind_eq_some_iff.mp hc
    cases hc
    rw [show ls.length + ls'.length - (ts.length + 1) + 1 =
      ls.length + (ls'.length - ts.length) by omega, List.drop_length_add_append] at hcs
    obtain ⟨rfl, hground, rfl⟩ := hs.eq_of_constants hcs
    -- so the line in front of them is the last one of the first tree
    have hlast : pushedConstant? (ls.get ⟨ls.length - 1, by omega⟩) = some c := by
      rw [← hcl]
      congr 1
      rw [List.getElem_append_left (by simp; omega)]
      congr 1
      simp
      omega
    obtain ⟨d, rfl, hd, rfl⟩ | ⟨before, l, rfl, hl⟩ := h.last
    · obtain rfl : d = c := by simpa [pushedConstant?] using hlast
      exact ⟨rfl, List.forall_mem_cons.mpr ⟨hd, hground⟩, rfl⟩
    · simp [hl] at hlast

mutual

/-- The lines push the tree, and what has no variables is pushed as one constant. -/
inductive Folds (slots : Slots) : Tree → List Line → Prop where
  | var {v : Var} {n : UInt16} (h : slots[v.id]? = some n) :
    Folds slots (.var v) [.instruction (.pushEnvironment n)]
  | constant {c : Term} (h : c.Ground) : Folds slots c.erase [constantLine c]
  | compound {tag : Tag} {args : List Tree} {ls : List Line} (hargs : Tree.allGround args = false)
    (h : FoldsAll slots args ls) :
    Folds slots (.compound tag args) (ls ++ [.instruction (.createCompound tag)])

/-- So it is with the trees, one after the other. -/
inductive FoldsAll (slots : Slots) : List Tree → List Line → Prop where
  | nil : FoldsAll slots [] []
  | cons {t : Tree} {ts : List Tree} {ls ls' : List Line} (h : Folds slots t ls)
    (hs : FoldsAll slots ts ls') : FoldsAll slots (t :: ts) (ls ++ ls')

end

mutual

theorem Folds.writes : ∀ {t : Tree} {ls : List Line}, Folds slots t ls → Writes slots t ls
  | _, _, .var h => .var h
  | _, _, .constant h => .constant h
  | _, _, .compound _ h => .compound h.writes

theorem FoldsAll.writes : ∀ {ts : List Tree} {ls : List Line}, FoldsAll slots ts ls → WritesAll slots ts ls
  | _, _, .nil => .nil
  | _, _, .cons h hs => .cons h.writes hs.writes

end

/-- A tree without variables is one constant. -/
theorem Folds.ground {t : Tree} {ls : List Line} (h : Folds slots t ls) (ht : t.isGround) :
    ∃ c : Term, c.Ground ∧ c.erase = t ∧ ls = [constantLine c] := by
  cases h with
  | var hv => cases ht
  | constant hc => exact ⟨_, hc, rfl, rfl⟩
  | compound hargs _ => rw [Tree.isGround, hargs] at ht; cases ht

/-- Trees without variables are one constant each. -/
theorem FoldsAll.ground : ∀ {ts : List Tree} {ls : List Line}, FoldsAll slots ts ls → Tree.allGround ts →
    ∃ cs : List Term, (∀ c ∈ cs, c.Ground) ∧ Term.eraseAll cs = ts ∧ ls = cs.map constantLine
  | _, _, .nil, _ => ⟨[], by simp, rfl, rfl⟩
  | _, _, .cons h hs, hts => by
    rw [Tree.allGround, Bool.and_eq_true] at hts
    obtain ⟨c, hc, rfl, rfl⟩ := h.ground hts.1
    obtain ⟨cs, hcs, rfl, rfl⟩ := hs.ground hts.2
    exact ⟨c :: cs, List.forall_mem_cons.mpr ⟨hc, hcs⟩, rfl, rfl⟩

/-! ### Writing them -/

/-- Lines have been written, and nothing else has happened. -/
structure Wrote (e e' : Emitter) (ls : List Line) : Prop where
  /-- The lines stand behind the others. -/
  lines : e'.lines.toList = e.lines.toList ++ ls
  /-- The rest is kept. -/
  rest : e' = { e with lines := e'.lines, stamps := e'.stamps }

theorem Wrote.refl (e : Emitter) : Wrote e e [] :=
  ⟨by simp, rfl⟩

theorem Wrote.trans {e₁ e₂ e₃ : Emitter} {ls ls' : List Line} (h : Wrote e₁ e₂ ls)
    (h' : Wrote e₂ e₃ ls') : Wrote e₁ e₃ (ls ++ ls') := by
  refine ⟨by rw [h'.lines, h.lines, List.append_assoc], ?_⟩
  rw [h'.rest, h.rest]

theorem wrote_emit (i : Instruction Term Tag Nat) (e : Emitter) :
    Wrote e { e with lines := e.lines.push (.instruction i) } [.instruction i] :=
  ⟨by simp, rfl⟩

/-- Where at least `n` lines have been written, only these are looked at. -/
theorem lastConstants?_of_wrote {e e' : Emitter} {ls : List Line} {n : Nat} (h : Wrote e e' ls)
    (hn : n ≤ ls.length) :
    lastConstants? e'.lines n = (ls.drop (ls.length - n)).mapM pushedConstant? := by
  have hsize : e'.lines.size = e.lines.toList.length + ls.length := by
    rw [Array.size_eq_length_toList, h.lines, List.length_append]
  rw [lastConstants?, if_pos (by omega), Array.toList_extract, List.extract_eq_take_drop, hsize, h.lines,
    show e.lines.toList.length + ls.length - n = e.lines.toList.length + (ls.length - n) by omega,
    List.drop_length_add_append, List.take_of_length_le (by rw [List.length_drop]; omega)]

/-- The constants of the arguments are replaced by one. -/
theorem wrote_of_constants {tag : Tag} {cs : List Term} {e₀ e e' : Emitter}
    (he : Wrote e₀ e (cs.map constantLine)) (hc : lastConstants? e.lines cs.length = some cs)
    (h : node slots (.functor tag cs.length) e = .ok () e') :
    Wrote e₀ e' [constantLine (.compound e.stamps tag cs)] := by
  have hsize : e.lines.size = e₀.lines.size + cs.length := by
    simpa using congrArg List.length he.lines
  obtain ⟨e₁, e₂, hget, h⟩ := bind_eq_ok.mp h
  cases hget
  rw [hc] at h
  cases h
  refine ⟨?_, ?_⟩
  · simp [he.lines, hsize]
  · rw [he.rest]

/-- Other arguments are left as they are. -/
theorem wrote_of_none {tag : Tag} {n : Nat} {e e' : Emitter}
    (hc : lastConstants? e.lines n = none) (h : node slots (.functor tag n) e = .ok () e') :
    Wrote e e' [.instruction (.createCompound tag)] := by
  obtain ⟨e₁, e₂, hget, h⟩ := bind_eq_ok.mp h
  cases hget
  rw [hc] at h
  cases h
  exact wrote_emit _ e

theorem mapM_pushedConstant? (cs : List Term) :
    (cs.map constantLine).mapM pushedConstant? = some cs := by
  induction cs with
  | nil => rfl
  | cons c cs ih => rw [List.map_cons, List.mapM_cons, ih]; rfl

/-- The lines of the arguments of a functor tell whether there is a variable in them. -/
theorem lastConstants?_of_folds {args : List Tree} {ls : List Line} {e e' : Emitter}
    (hls : FoldsAll slots args ls) (he : Wrote e e' ls) :
    (lastConstants? e'.lines args.length).isSome = Tree.allGround args := by
  rw [lastConstants?_of_wrote he hls.writes.length_le]
  cases hargs : Tree.allGround args with
  | true =>
    obtain ⟨cs, -, rfl, rfl⟩ := hls.ground hargs
    rw [List.length_map, Term.length_eraseAll, Nat.sub_self, List.drop_zero, mapM_pushedConstant?]
    rfl
  | false =>
    rw [Option.isSome_eq_false_iff, Option.isNone_iff_eq_none, Option.eq_none_iff_forall_ne_some]
    rintro cs hcs
    obtain ⟨-, hground, rfl⟩ := hls.writes.eq_of_constants hcs
    rw [Term.allGround_eraseAll hground] at hargs
    cases hargs

/-- The functor behind its arguments. -/
theorem folds_of_functor {tag : Tag} {args : List Tree} {ls : List Line} {e₀ e e' : Emitter}
    (hls : FoldsAll slots args ls) (he : Wrote e₀ e ls)
    (h : node slots (.functor tag args.length) e = .ok () e') :
    ∃ ls', Wrote e₀ e' ls' ∧ Folds slots (.compound tag args) ls' := by
  have hsome := lastConstants?_of_folds hls he
  cases hargs : Tree.allGround args with
  | false =>
    rw [hargs, Option.isSome_eq_false_iff, Option.isNone_iff_eq_none] at hsome
    exact ⟨_, he.trans (wrote_of_none hsome h), .compound hargs hls⟩
  | true =>
    rw [hargs] at hsome
    obtain ⟨cs, hcs⟩ := Option.isSome_iff_exists.mp hsome
    obtain ⟨rfl, hground, rfl⟩ :=
      hls.writes.eq_of_constants (lastConstants?_of_wrote he hls.writes.length_le ▸ hcs)
    rw [Term.length_eraseAll] at hcs h
    exact ⟨_, wrote_of_constants he hcs h, .constant (.compound _ _ hground)⟩

mutual

theorem folds_of_nodes : ∀ {t : Tree} {e e' : Emitter}, t.nodes.forM (node slots) e = .ok () e' →
    ∃ ls, Wrote e e' ls ∧ Folds slots t ls
  | .var v, e, e', h => by
    obtain ⟨⟨⟩, e₁, h₁, h⟩ := bind_eq_ok.mp h
    cases h
    rw [node] at h₁
    obtain ⟨n, e₂, h₂, h₃⟩ := bind_eq_ok.mp h₁
    obtain ⟨hn, rfl⟩ := slot_eq_ok h₂
    cases h₃
    exact ⟨_, wrote_emit _ _, .var hn⟩
  | .const c, e, e', h => by
    cases h
    exact ⟨_, wrote_emit _ _, .constant (.const c)⟩
  | .compound tag args, e, e', h => by
    obtain ⟨e₁, h₁, h⟩ := forM_append_eq_ok.mp h
    obtain ⟨⟨⟩, e₂, h₂, h⟩ := bind_eq_ok.mp h
    cases h
    obtain ⟨ls, he, hls⟩ := folds_of_nodesAll h₁
    exact folds_of_functor hls he h₂

theorem folds_of_nodesAll : ∀ {ts : List Tree} {e e' : Emitter},
    (Tree.nodesAll ts).forM (node slots) e = .ok () e' → ∃ ls, Wrote e e' ls ∧ FoldsAll slots ts ls
  | [], e, e', h => by
    cases h
    exact ⟨[], .refl e, .nil⟩
  | t :: ts, e, e', h => by
    obtain ⟨e₁, h₁, h₂⟩ := forM_append_eq_ok.mp h
    obtain ⟨ls, he, hls⟩ := folds_of_nodes h₁
    obtain ⟨ls', he', hls'⟩ := folds_of_nodesAll h₂
    exact ⟨ls ++ ls', he.trans he', .cons hls hls'⟩

end

theorem folds_of_build {t : Tree} {e e' : Emitter}
    (h : build slots t e = .ok () e') : ∃ ls, Wrote e e' ls ∧ Folds slots t ls := by
  rw [build, Tree.postorder_eq] at h
  exact folds_of_nodes h

theorem writes_of_build {t : Tree} {e e' : Emitter}
    (h : build slots t e = .ok () e') : ∃ ls, Wrote e e' ls ∧ Writes slots t ls := by
  obtain ⟨ls, he, hls⟩ := folds_of_build h
  exact ⟨ls, he, hls.writes⟩

theorem writesAll_of_build : ∀ {ts : List Tree} {e e' : Emitter},
    ts.forM (build slots) e = .ok () e' → ∃ ls, Wrote e e' ls ∧ WritesAll slots ts ls
  | [], e, e', h => by
    cases h
    exact ⟨[], .refl e, .nil⟩
  | t :: ts, e, e', h => by
    obtain ⟨⟨⟩, e₁, h₁, h₂⟩ := bind_eq_ok.mp h
    obtain ⟨ls, he, hls⟩ := writes_of_build h₁
    obtain ⟨ls', he', hls'⟩ := writesAll_of_build h₂
    exact ⟨ls ++ ls', he.trans he', .cons hls hls'⟩

end Program.Emit

end Resolvent
