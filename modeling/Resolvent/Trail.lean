import Resolvent.Store

/-!
# The trail

A `Trail` records what has to be undone to return to an earlier state: bindings of variables, and
actions of type `α` that somebody carries out when they are undone. A mark is a length of the trail;
undoing to it removes the entries recorded since, newest first. Before the first mark nothing can be
undone, so nothing is recorded.
-/

namespace Resolvent

/-- An entry of a trail. -/
inductive Trail.Entry (α : Type) where
  /-- The variable got a binding. -/
  | binding (v : Var)
  /-- Something happened that the action undoes. -/
  | action (a : α)

/-- The record of the changes since the first mark. -/
structure Trail (α : Type) where
  /-- The changes, oldest first. -/
  entries : Array (Trail.Entry α)
  /-- Whether a mark has been taken, so that changes are recorded. -/
  marked : Bool

namespace Trail

variable {α : Type}

/-- The trail on which no mark has been taken. -/
def empty : Trail α := ⟨#[], false⟩

/-- How many changes are recorded. -/
def size (τ : Trail α) : Nat :=
  τ.entries.size

/-- Takes a mark, to which the present state can be brought back. -/
def mark (τ : Trail α) : Nat × Trail α :=
  (τ.size, { τ with marked := true })

/-- Records a change, if a mark has been taken. -/
def record (e : Entry α) (τ : Trail α) : Trail α :=
  if τ.marked then { τ with entries := τ.entries.push e } else τ

/-- Binds a variable and records it. -/
def bind (v : Var) (t : Term) (σ : Store) (τ : Trail α) : Store × Trail α :=
  (σ.bind v t, τ.record (.binding v))

@[simp] theorem size_mark (τ : Trail α) : τ.mark.2.size = τ.size := rfl

@[simp] theorem marked_mark (τ : Trail α) : τ.mark.2.marked = true := rfl

@[simp] theorem marked_record (e : Entry α) (τ : Trail α) : (τ.record e).marked = τ.marked := by
  unfold record
  split <;> rfl

theorem size_record (e : Entry α) (τ : Trail α) :
    (τ.record e).size = if τ.marked then τ.size + 1 else τ.size := by
  unfold record
  split <;> simp [size]

/-- Undoes the newest `n` changes; the actions to be carried out go behind those in `found`, latest
first. -/
def undoNewest : Nat → Store → Trail α → List α → Store × Trail α × List α
  | 0, σ, τ, found => (σ, τ, found.reverse)
  | n + 1, σ, τ, found =>
    match τ.entries.back? with
    | none => (σ, τ, found.reverse)
    | some e =>
      let τ := { τ with entries := τ.entries.pop }
      match e with
      | .binding v => undoNewest n (σ.unbind v) τ found
      | .action a => undoNewest n σ τ (a :: found)

/-- Undoes the changes since a mark. The actions to be carried out are returned, that of the newest
change first. -/
def undoTo (m : Nat) (σ : Store) (τ : Trail α) : Store × Trail α × List α :=
  undoNewest (τ.size - m) σ τ []

/-- Sets the trail aside and starts one on which a mark has been taken. -/
def setAside (τ : Trail α) : Trail α × Trail α :=
  (τ, ⟨#[], true⟩)

end Trail

/-- The bindings and the trail of a search, which backtracking takes back. -/
structure Moment where
  /-- The bindings. -/
  store : Store
  /-- What has to be undone. -/
  trail : Trail Empty

instance : Inhabited Moment := ⟨⟨.empty, .empty⟩⟩

end Resolvent
