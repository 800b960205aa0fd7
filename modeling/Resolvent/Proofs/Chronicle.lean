import Mathlib.Data.List.Forall2
import Resolvent.Engine
import Resolvent.Proofs.Moment

/-!
# What the chronicle of a run is to show

Two things are read off the chronicle of an engine. Every state that a search passes through is to be
`Scene.Recoverable`: each of its choice points can bring back the bindings of the moment at which it
was made. And cleanup goals are to be settled: what happens between two moments turns the stack of the
goals still to be run at the first one into that at the second one, where a cleanup point puts its
goal on the stack and a start takes the goal off (`Chronicle.Settles`). A stack that is empty at both
ends means that every goal put on it has been started exactly once.
-/

namespace Resolvent

/-! ### Moments of choice points -/

/-- The choice points were made at the moments, and each of these can be brought back. -/
structure Recovers (points : List ChoicePoint) (made : List Moment) (m : Moment) : Prop where
  /-- Every choice point has the mark of its moment, and what was bound since is on the trail. -/
  made : List.Forall₂ (fun p m₀ => p.mark = m₀.mark ∧ m₀.Before m) points made
  /-- Newer choice points have no lower marks. -/
  sorted : points.Pairwise fun p q => p.mark ≤ q.mark

/-- Every choice point can bring back the bindings of the moment at which it was made. -/
structure Scene.Recoverable (x : Scene) : Prop where
  /-- Marks do not decrease from the bottom to the top. -/
  sorted : x.points.toList.Pairwise fun p q => p.mark ≤ q.mark
  /-- No mark is greater than the length of the trail. -/
  bounded : ∀ p ∈ x.points, p.mark ≤ x.moment.mark
  /-- Undoing to the mark of a choice point gives every variable the binding of its moment. -/
  recovers : List.Forall₂ (fun p m₀ => ∀ v,
    (x.moment.undoTo p.mark).store.value? v = m₀.store.value? v) x.points.toList x.made

namespace Recovers

variable {points points' : List ChoicePoint} {made : List Moment} {m m' : Moment}

theorem nil : Recovers [] [] m :=
  ⟨.nil, .nil⟩

/-- The moment may be a later one. -/
theorem later (h : Recovers points made m) (hm : m.Before m') : Recovers points made m' :=
  ⟨h.made.imp fun _ _ hp => ⟨hp.1, hp.2.trans hm⟩, h.sorted⟩

theorem mark_le (h : Recovers points made m) {p : ChoicePoint} (hp : p ∈ points) :
    p.mark ≤ m.mark := by
  have hmade := h.made
  induction hmade with
  | nil => exact absurd hp List.not_mem_nil
  | cons hq _ ih =>
    obtain rfl | hp := List.mem_cons.mp hp
    · exact hq.1 ▸ hq.2.mark_le
    · exact ih ⟨‹_›, h.sorted.of_cons⟩ hp

/-- One more choice point, made now. -/
theorem push (h : Recovers points made m) (hm : m.Recording) (kind : ChoiceKind) :
    Recovers (points ++ [⟨m.mark, kind⟩]) (made ++ [m]) m := by
  refine ⟨List.rel_append h.made (.cons ⟨rfl, .refl hm⟩ .nil), ?_⟩
  rw [List.pairwise_append]
  refine ⟨h.sorted, List.pairwise_singleton _ _, fun p hp q hq => ?_⟩
  rw [List.mem_singleton] at hq
  exact hq ▸ h.mark_le hp

/-- Fewer choice points. -/
theorem take (h : Recovers points made m) (n : Nat) : Recovers (points.take n) (made.take n) m :=
  ⟨List.forall₂_take n h.made, h.sorted.sublist (List.take_sublist n points)⟩

theorem dropLast (h : Recovers points made m) : Recovers points.dropLast made.dropLast m := by
  rw [List.dropLast_eq_take, List.dropLast_eq_take, ← h.made.length_eq]
  exact h.take _

/-- Only the marks of the choice points count. -/
theorem congr (h : Recovers points made m)
    (hmarks : points'.map ChoicePoint.mark = points.map ChoicePoint.mark) :
    Recovers points' made m := by
  have hmade := List.forall₂_map_left_iff
    (R := fun n (m₀ : Moment) => n = m₀.mark ∧ m₀.Before m) (f := ChoicePoint.mark) |>.mpr h.made
  have hsorted := List.pairwise_map.mpr h.sorted
  rw [← hmarks] at hmade hsorted
  exact ⟨List.forall₂_map_left_iff.mp hmade, List.pairwise_map.mp hsorted⟩

/-- Undoing to a mark above those of all choice points keeps their moments within reach. -/
theorem undoTo (h : Recovers points made m) {n : Nat} (hn : ∀ p ∈ points, p.mark ≤ n) :
    Recovers points made (m.undoTo n) := by
  refine ⟨?_, h.sorted⟩
  refine ((List.forall₂_and_left _ _).mpr ⟨hn, h.made⟩).imp fun p m₀ hp => ?_
  exact ⟨hp.2.1, hp.2.2.undoTo (hp.2.1 ▸ hp.1)⟩

/-- What can be brought back is brought back by undoing. -/
theorem recoverable {x : Scene} (h : Recovers x.points.toList x.made x.moment) : x.Recoverable := by
  refine ⟨h.sorted, fun p hp => h.mark_le (Array.mem_toList_iff.mpr hp), ?_⟩
  refine h.made.imp fun p m₀ hp v => ?_
  rw [hp.1]
  exact hp.2.same_undoTo.value v

end Recovers

namespace Chronicle

/-- A state that the search has passed through is recoverable. A goal with a cleanup goal that is
interrupted leaves no cleanup point on top, unless a cleanup goal asked for the end of the run. -/
def Event.Sound : Event → Prop
  | .passed x => x.Recoverable
  | .interrupted top asker => asker = none → ∀ p ∈ top, p.cleanup? = none
  | _ => True

/-! ### Cleanup goals -/

/-- The goal for which a cleanup point is made. -/
def Event.held? : Event → Option Term
  | .held g => some g
  | _ => none

/-- The cleanup goal that is started. -/
def Event.started? : Event → Option Term
  | .started g => some g
  | _ => none

/-- What happens turns one stack of cleanup goals still to be run, the newest first, into another
one. -/
inductive Settles : Chronicle → List Term → List Term → Prop where
  | nil {gs : List Term} : Settles [] gs gs
  | other {l : Chronicle} {gs gs' : List Term} {e : Event} (hh : e.held? = none)
      (hs : e.started? = none) (h : Settles l gs gs') : Settles (e :: l) gs gs'
  | held {l : Chronicle} {gs gs' : List Term} {g : Term} (h : Settles l gs gs') :
      Settles (.held g :: l) gs (g :: gs')
  | started {l : Chronicle} {gs gs' : List Term} {g : Term} (h : Settles l gs (g :: gs')) :
      Settles (.started g :: l) gs gs'

namespace Settles

variable {l l' : Chronicle} {gs gs' gs'' : List Term}

/-- The goals that have been put on the stack are those that have been started and those that are
left. -/
theorem perm (h : Settles l gs gs') :
    (l.filterMap Event.held? ++ gs).Perm (l.filterMap Event.started? ++ gs') := by
  induction h with
  | nil => exact .refl _
  | other hh hs _ ih => rwa [List.filterMap_cons_none hh, List.filterMap_cons_none hs]
  | held _ ih => exact (ih.cons _).trans List.perm_middle.symm
  | started _ ih => exact ih.trans List.perm_middle

theorem trans (h : Settles l gs gs') (h' : Settles l' gs' gs'') : Settles (l' ++ l) gs gs'' := by
  induction h' with
  | nil => exact h
  | other hh hs _ ih => exact .other hh hs (ih h)
  | held _ ih => exact .held (ih h)
  | started _ ih => exact .started (ih h)

/-- Goals below those of the stack do not matter. -/
theorem above (h : Settles l gs gs') (below : List Term) :
    Settles l (gs ++ below) (gs' ++ below) := by
  induction h with
  | nil => exact .nil
  | other hh hs _ ih => exact .other hh hs ih
  | held _ ih => exact .held ih
  | started _ ih => exact .started ih

end Settles

/-- What happens turns one stack of cleanup goals into another one, unless one of the goals asks for
the end of the run. -/
def Settled (l : Chronicle) (gs gs' : List Term) : Prop :=
  (∃ g, .halted g ∈ l) ∨ Settles l gs gs'

namespace Settled

variable {l l' : Chronicle} {gs gs' gs'' : List Term}

theorem trans (h : Settled l gs gs') (h' : Settled l' gs' gs'') : Settled (l' ++ l) gs gs'' := by
  obtain ⟨g, hg⟩ | h := h
  · exact .inl ⟨g, List.mem_append_right _ hg⟩
  · obtain ⟨g, hg⟩ | h' := h'
    · exact .inl ⟨g, List.mem_append_left _ hg⟩
    · exact .inr (h.trans h')

theorem above (h : Settled l gs gs') (below : List Term) :
    Settled l (gs ++ below) (gs' ++ below) :=
  h.imp_right (·.above below)

end Settled

end Chronicle

end Resolvent
