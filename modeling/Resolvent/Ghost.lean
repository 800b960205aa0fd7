/-!
# Values that are only spoken about

A `Ghost α` stands for a value of `α` that statements about runs speak of. Nothing that runs can look
at the value, so no run depends on it, and it takes no room in a run.
-/

namespace Resolvent

/-- A value that nothing that runs can look at, given by what is equal to it. -/
structure Ghost (α : Type) where
  /-- Holds of the value. -/
  is : α → Prop
  /-- There is one value of which it holds. -/
  unique : ∃ a, is = (a = ·)

namespace Ghost

variable {α β γ : Type}

/-- The value, hidden. -/
@[macro_inline] def of (a : α) : Ghost α :=
  ⟨(a = ·), a, rfl⟩

/-- The hidden value, for statements. -/
noncomputable def value (g : Ghost α) : α :=
  Classical.choose g.unique

/-- Another value instead, made of the hidden one. -/
@[inline] def map (f : α → β) (g : Ghost α) : Ghost β :=
  ⟨(f g.value = ·), f g.value, rfl⟩

/-- Another value instead, made of two hidden ones. -/
@[inline] def map₂ (f : α → β → γ) (g : Ghost α) (h : Ghost β) : Ghost γ :=
  ⟨(f g.value h.value = ·), f g.value h.value, rfl⟩

instance [Inhabited α] : Inhabited (Ghost α) := ⟨of default⟩

@[simp] theorem value_of (a : α) : (of a).value = a :=
  (congrFun (Classical.choose_spec (of a).unique) a).mp rfl

@[simp] theorem value_map (f : α → β) (g : Ghost α) : (g.map f).value = f g.value :=
  value_of _

@[simp] theorem value_map₂ (f : α → β → γ) (g : Ghost α) (h : Ghost β) :
    (g.map₂ f h).value = f g.value h.value :=
  value_of _

@[simp] theorem of_value (g : Ghost α) : of g.value = g := by
  obtain ⟨is, a, rfl⟩ := g
  have h : value ⟨(a = ·), a, rfl⟩ = a := value_of a
  rw [h]
  rfl

@[ext] theorem ext {g h : Ghost α} (e : g.value = h.value) : g = h := by
  rw [← of_value g, e, of_value]

end Ghost

end Resolvent
