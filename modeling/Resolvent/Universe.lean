import Resolvent.Store

/-!
# The universe of terms

A `Universe` is what terms are made of and refer to: the symbols met so far and the variables made
so far. Every engine over one database works in one universe.
-/

namespace Resolvent

/-- The symbols and the bindings that terms refer to. -/
structure Universe where
  /-- The names and tags met so far. -/
  symbols : Symbols
  /-- The variables made so far. -/
  store : Store

namespace Universe

/-- The universe with the symbols of the control constructs and no variables. -/
def initial : Universe := ⟨.initial, .empty⟩

/-- A step that looks at symbols and may add to them. -/
@[inline] def withSymbols {α : Type} (f : Symbols → α × Symbols) : StateM Universe α :=
  fun ⟨symbols, store⟩ =>
    let (a, symbols) := f symbols
    (a, ⟨symbols, store⟩)

/-- A step that looks at the store and may change it. -/
@[inline] def withStore {α : Type} (f : Store → α × Store) : StateM Universe α :=
  fun ⟨symbols, store⟩ =>
    let (a, store) := f store
    (a, ⟨symbols, store⟩)

/-- The atom of a name. -/
def atom (name : String) : StateM Universe Atom :=
  withSymbols (Symbols.intern name)

/-- The tag of a name and an arity. -/
def tagNamed (name : String) (arity : Nat) : StateM Universe Tag :=
  withSymbols (Symbols.tagNamed name arity)

/-- The tag of an atom and an arity. -/
def tag (a : Atom) (arity : Nat) : StateM Universe Tag :=
  withSymbols (Symbols.tag a arity)

/-- Makes a variable. -/
def fresh : StateM Universe Var :=
  withStore Store.fresh

/-- Builds a compound. -/
def compound (tag : Tag) (args : List Term) : StateM Universe Term :=
  withStore (Store.compound tag args)

/-- Copies a term. -/
def copy (t : Term) : StateM Universe Term :=
  withStore (Store.copy t)

/-- Builds a list that ends in `tail`, from its last cell to its first. -/
def list (items : List Term) (tail : Term := .atom .nil) : StateM Universe Term :=
  items.reverse.foldlM (fun rest item => compound .cons [item, rest]) tail

/-- A term with its binding read. -/
def deref (t : Term) : StateM Universe Term :=
  fun u => (u.store.deref t, u)

/-- The tag and the arguments of a term that can be called. -/
def callableParts? (t : Term) : StateM Universe (Option (Tag × List Term)) := do
  match ← deref t with
  | .const (.atom a) => return some (← tag a 0, [])
  | .compound _ tag args => return some (tag, args)
  | _ => return none

end Universe

end Resolvent
