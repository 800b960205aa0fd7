import Resolvent.Text.Render
import Resolvent.Trail

/-!
# Texts for diagnosis

Texts that show how the engine sees its parts, for those who look into a running engine.
-/

namespace Resolvent

/-- A structure with named fields. -/
def Text.record (name : String) (fields : List (String × String)) : String :=
  name ++ " \x7b " ++ ", ".intercalate (fields.map fun (key, value) => key ++ ": " ++ value) ++
    " \x7d"

/-- The sizes of symbol tables. -/
def Symbols.inspect (s : Symbols) : String :=
  Text.record "Interner" [("atoms", toString s.atomCount), ("tags", toString s.tagCount)]

/-- The variables that a variable is bound to one after the other, at most `n` of them, and what the
last one is bound to. -/
def Universe.chainWithin (u : Universe) : Nat → Var → String
  | 0, v => v.text
  | n + 1, v =>
    match u.store.value? v with
    | none => v.text
    | some (.var w) => v.text ++ "=" ++ chainWithin u n w
    | some t => v.text ++ "=" ++ u.render t

/-- The bindings that a variable is read through. -/
def Universe.chain (u : Universe) (v : Var) : String :=
  u.chainWithin u.store.size v

namespace Trail

/-- An entry of a trail. -/
def Entry.inspect {α : Type} : Entry α → String
  | .binding v => "Bind(" ++ v.text ++ ")"
  | .action _ => "Action"

/-- A trail. -/
def inspect {α : Type} (τ : Trail α) : String :=
  Text.record "Trail"
    [("entries", "[" ++ ", ".intercalate (τ.entries.toList.map Entry.inspect) ++ "]"),
      ("mark_requested", toString τ.marked)]

end Trail

end Resolvent
