import Resolvent.Binary64
import Resolvent.Symbols

/-!
# Terms and trees

A `Term` is what the engine handles: its variables may be bound, and the binding is found in a
store. A compound carries a `stamp`, the identity of the act that built it; compounds with one stamp
are one structure, so a comparison need not look inside.

A `Tree` is what a term denotes once its bindings are read: variables in it are unbound, and nothing
tells apart two trees that look the same. `Tree.postorder` and `Tree.ofPostorder` write a tree as
a list of nodes, arguments before their functor, and read it back.
-/

namespace Resolvent

/-- The sum of numbers. -/
def total : List Nat → Nat
  | [] => 0
  | n :: ns => n + total ns

@[simp] theorem total_nil : total [] = 0 := rfl

@[simp] theorem total_cons (n : Nat) (ns : List Nat) : total (n :: ns) = n + total ns := rfl

@[simp] theorem total_append (ns ms : List Nat) : total (ns ++ ms) = total ns + total ms := by
  induction ns with
  | nil => simp
  | cons n ns ih => simp [ih, Nat.add_assoc]

/-- A logic variable; one made earlier has the smaller number. -/
structure Var where
  /-- How many variables were made before. -/
  id : Nat
deriving DecidableEq, Inhabited

/-- A term without arguments that is no variable. -/
inductive Constant where
  /-- An atom. -/
  | atom (a : Atom)
  /-- A machine integer. -/
  | int (n : Int64)
  /-- An integer outside the range of machine integers. -/
  | big (n : Int)
  /-- A rational number that is no integer. -/
  | rat (q : Rat)
  /-- A float. -/
  | float (x : Binary64)
  /-- A value of the host that nothing looks into. -/
  | host (id : Nat)
deriving DecidableEq, Inhabited

/-- A term, read relative to the bindings of its variables. -/
inductive Term where
  /-- A variable, bound or not. -/
  | var (v : Var)
  /-- A constant. -/
  | const (c : Constant)
  /-- A functor applied to arguments, as many as the arity of the tag. -/
  | compound (stamp : Nat) (tag : Tag) (args : List Term)
deriving Inhabited

/-- A finite tree of functors over constants and unbound variables. -/
inductive Tree where
  /-- An unbound variable. -/
  | var (v : Var)
  /-- A constant. -/
  | const (c : Constant)
  /-- A functor applied to arguments. -/
  | compound (tag : Tag) (args : List Tree)
deriving Inhabited

namespace Constant

/-- The name of the kind of a constant. -/
def kind : Constant → String
  | .atom _ => "atom"
  | .int _ | .big _ => "integer"
  | .rat _ => "rational"
  | .float _ => "float"
  | .host _ => "opaque"

/-- Whether the constant is a number. -/
def isNumber : Constant → Bool
  | .int _ | .big _ | .rat _ | .float _ => true
  | .atom _ | .host _ => false

/-- The integer as a constant: a machine integer when it is in range. -/
def ofInt (n : Int) : Constant :=
  if -0x8000000000000000 ≤ n ∧ n < 0x8000000000000000 then .int (Int64.ofInt n) else .big n

/-- The rational number as a constant: an integer when its denominator is one. -/
def ofRat (q : Rat) : Constant :=
  if q.den = 1 then ofInt q.num else .rat q

end Constant

namespace Term

/-- The term that is an atom. -/
abbrev atom (a : Atom) : Term := .const (.atom a)

/-- The term that is a machine integer. -/
abbrev int (n : Int64) : Term := .const (.int n)

/-- The name of the kind of a term whose binding has been read. -/
def kind : Term → String
  | .var _ => "variable"
  | .const c => c.kind
  | .compound .. => "compound"

/-- Whether a term whose binding has been read can be called: atoms and compounds can. -/
def isCallable : Term → Bool
  | .const (.atom _) | .compound .. => true
  | _ => false

end Term

/-! ### Nodes of a tree -/

/-- A node of a tree. -/
inductive Node where
  /-- An unbound variable. -/
  | var (v : Var)
  /-- A constant. -/
  | const (c : Constant)
  /-- A functor, with the number of its arguments. -/
  | functor (tag : Tag) (arity : Nat)
deriving DecidableEq

/-- The variable of a node, if it is one. -/
def Node.var? : Node → Option Var
  | .var v => some v
  | _ => none

/-- Adds a variable in front of those that have been found, unless it has been seen. -/
def Var.see (known : Std.TreeMap Nat Unit × List Var) (v : Var) : Std.TreeMap Nat Unit × List Var :=
  if known.1.contains v.id then known else (known.1.insert v.id (), v :: known.2)

/-- The variables of a list, each at its first place only. -/
def Var.distinct (vs : List Var) : List Var :=
  (vs.foldl Var.see (∅, [])).2.reverse

namespace Tree

mutual

/-- Whether two trees are equal. -/
def decideEq : (s t : Tree) → Decidable (s = t)
  | .var v, .var w =>
    if h : v = w then isTrue (h ▸ rfl) else isFalse (h ∘ Tree.var.inj)
  | .const c, .const d =>
    if h : c = d then isTrue (h ▸ rfl) else isFalse (h ∘ Tree.const.inj)
  | .compound f ss, .compound g ts =>
    if h : f = g then
      match decideEqList ss ts with
      | isTrue h' => isTrue (h ▸ h' ▸ rfl)
      | isFalse h' => isFalse fun e => h' (Tree.compound.inj e).2
    else isFalse fun e => h (Tree.compound.inj e).1
  | .var _, .const _ | .var _, .compound .. | .const _, .var _ | .const _, .compound ..
  | .compound .., .var _ | .compound .., .const _ => isFalse nofun

/-- Whether two lists of trees are equal. -/
def decideEqList : (ss ts : List Tree) → Decidable (ss = ts)
  | [], [] => isTrue rfl
  | s :: ss, t :: ts =>
    match decideEq s t, decideEqList ss ts with
    | isTrue h, isTrue h' => isTrue (h ▸ h' ▸ rfl)
    | isFalse h, _ => isFalse fun e => h (List.cons.inj e).1
    | _, isFalse h => isFalse fun e => h (List.cons.inj e).2
  | [], _ :: _ | _ :: _, [] => isFalse nofun

end

instance : DecidableEq Tree := decideEq

/-- The atom as a tree. -/
abbrev atom (a : Atom) : Tree := .const (.atom a)

/-- A step of the walk through a tree: a subtree still to be walked, or a node to be written. -/
inductive Step where
  /-- Walk a tree. -/
  | walk (t : Tree)
  /-- Write a functor whose arguments have been walked. -/
  | write (tag : Tag) (arity : Nat)

private theorem sum_sizeOf_lt (ts : List Tree) : total (ts.map fun t => sizeOf t) < sizeOf ts := by
  induction ts with
  | nil => simp
  | cons t ts ih => simp; omega

/-- Writes the nodes of the trees to be walked in front of `written`, last node first. -/
def writeNodes : List Step → List Node → List Node
  | [], written => written
  | .write tag arity :: rest, written => writeNodes rest (.functor tag arity :: written)
  | .walk (.var v) :: rest, written => writeNodes rest (.var v :: written)
  | .walk (.const c) :: rest, written => writeNodes rest (.const c :: written)
  | .walk (.compound tag args) :: rest, written =>
    writeNodes (args.map .walk ++ .write tag args.length :: rest) written
termination_by steps => total (steps.map fun
  | .walk t => sizeOf t
  | .write .. => 1)
decreasing_by
  · simp
  · simp +arith
  · simp +arith
  · have := sum_sizeOf_lt args
    simp [Function.comp_def]
    omega

/-- The nodes of a tree, arguments from left to right before their functor. -/
def postorder (t : Tree) : List Node :=
  (writeNodes [.walk t] []).reverse

/-- Reads nodes onto a stack of trees, the last tree read on top. -/
def readNodes : List Node → List Tree → List Tree
  | [], stack => stack
  | .var v :: rest, stack => readNodes rest (.var v :: stack)
  | .const c :: rest, stack => readNodes rest (.const c :: stack)
  | .functor tag arity :: rest, stack =>
    readNodes rest (.compound tag (stack.take arity).reverse :: stack.drop arity)

/-- The tree of a list of nodes; `[]` if the list is not that of a tree. -/
def ofPostorder (nodes : List Node) : Tree :=
  (readNodes nodes []).headD (.atom .nil)

/-- The distinct variables of a tree, in order of first occurrence from the left. -/
def vars (t : Tree) : List Var :=
  Var.distinct (t.postorder.filterMap Node.var?)

/-- Whether the tree can be called: atoms and compounds can. -/
def isCallable : Tree → Bool
  | .const (.atom _) | .compound .. => true
  | _ => false

end Tree

end Resolvent
