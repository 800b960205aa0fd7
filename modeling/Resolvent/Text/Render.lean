import Resolvent.Binary64.Shortest
import Resolvent.Text.Quoted
import Resolvent.Universe

/-!
# Terms as text

`Tree.render` writes a tree in functional notation, with brackets for lists and quotes around the
names that need them. `Term.inspect` writes a term for diagnosis: symbols by number, and with a
variable its binding.
-/

namespace Resolvent

/-- A variable as text. -/
def Var.text (v : Var) : String :=
  "_G" ++ toString v.id

/-- A float as text: a whole number below `10 ^ 15` has one zero after the point, and no float has
an exponent. -/
def Binary64.text (x : Binary64) : String :=
  let whole := x.isFinite && (x.isZero || isWhole x.magnitude) &&
    x.magnitude < 0x430c6bf526340000
  String.ofList (x.display ++ if whole then ['.', '0'] else [])

/-- A constant as text. -/
def Constant.text (symbols : Symbols) : Constant → String
  | .atom a => Text.quoteName (symbols.name a)
  | .int n => toString n.toInt
  | .big n => toString n
  | .rat q => toString q.num ++ "r" ++ toString q.den
  | .float x => x.text
  | .host _ => "<opaque>"

namespace Tree

/-- A piece of text still to be written. -/
inductive Piece where
  /-- A tree, after a text that leads to it. -/
  | tree (lead : String) (t : Tree)
  /-- The rest of a list whose last written element is not the last of it. -/
  | tail (t : Tree)
  /-- A text. -/
  | text (s : String)

/-- A bound on the number of pieces that a piece leads to. -/
noncomputable def Piece.weight : Piece → Nat
  | .tree _ t => sizeOf t
  | .tail t => sizeOf t + 2
  | .text _ => 1

/-- The arguments of a compound, a comma before each but the first. -/
def argumentPieces : List Tree → List Piece
  | [] => []
  | t :: ts => .tree "" t :: ts.map (.tree ",")

private theorem sum_weight_argumentPieces (ts : List Tree) :
    total ((argumentPieces ts).map Piece.weight) < sizeOf ts := by
  have h : ∀ (lead : String) (ts : List Tree),
      total ((ts.map (Piece.tree lead)).map Piece.weight) < sizeOf ts := by
    intro lead ts
    induction ts with
    | nil => simp
    | cons t ts ih => simp [Piece.weight] at ih ⊢; omega
  cases ts with
  | nil => simp [argumentPieces]
  | cons t ts =>
    have := h "," ts
    simp [argumentPieces, Piece.weight] at this ⊢
    omega

/-- Head and tail of a compound that is a list cell. -/
def cell? (tag : Tag) : List Tree → Option (Tree × Tree)
  | [head, tail] => if tag = .cons then some (head, tail) else none
  | _ => none

private theorem sizeOf_cell {tag : Tag} {args : List Tree} {head tail : Tree}
    (h : cell? tag args = some (head, tail)) :
    sizeOf head + sizeOf tail + 2 < sizeOf args + sizeOf tag := by
  unfold cell? at h
  split at h
  · split at h <;> simp_all
    omega
  · simp at h

/-- Writes pieces behind `out`. -/
def write (symbols : Symbols) : List Piece → String → String
  | [], out => out
  | .text s :: rest, out => write symbols rest (out ++ s)
  | .tree lead (.var v) :: rest, out => write symbols rest (out ++ lead ++ v.text)
  | .tree lead (.const c) :: rest, out => write symbols rest (out ++ lead ++ c.text symbols)
  | .tree lead (.compound tag args) :: rest, out =>
    match _ : cell? tag args with
    | some (head, tail) =>
      write symbols (.tree "[" head :: .tail tail :: rest) (out ++ lead)
    | none =>
      write symbols (argumentPieces args ++ .text ")" :: rest)
        (out ++ lead ++ Text.quoteName (symbols.tagName tag) ++ "(")
  | .tail (.compound tag args) :: rest, out =>
    match _ : cell? tag args with
    | some (head, tail) => write symbols (.tree "," head :: .tail tail :: rest) out
    | none => write symbols (.tree "|" (.compound tag args) :: .text "]" :: rest) out
  | .tail t :: rest, out =>
    if t = .atom .nil then write symbols rest (out ++ "]")
    else write symbols (.tree "|" t :: .text "]" :: rest) out
termination_by pieces => total (pieces.map Piece.weight)
decreasing_by
  · simp [Piece.weight]
  · simp +arith [Piece.weight]
  · simp +arith [Piece.weight]
  · have := sizeOf_cell ‹_›
    simp [Piece.weight]
    omega
  · have := sum_weight_argumentPieces args
    simp [Piece.weight]
    omega
  · have := sizeOf_cell ‹_›
    simp [Piece.weight]
    omega
  · simp +arith [Piece.weight]
  · simp [Piece.weight]
  · simp +arith [Piece.weight]

/-- A tree as text. -/
def render (symbols : Symbols) (t : Tree) : String :=
  write symbols [.tree "" t] ""

end Tree

/-- A term, with its bindings read, as text. -/
def Universe.render (u : Universe) (t : Term) : String :=
  (u.store.resolve t).render u.symbols

/-! ### Diagnosis -/

/-- A constant for diagnosis. -/
def Constant.inspect : Constant → String
  | .atom a => "Atom#" ++ toString a.index
  | .int n => toString n.toInt
  | .big n => toString n
  | .rat q => toString q.num ++ "/" ++ toString q.den
  | .float x => String.ofList x.inspect
  | .host _ => "<opaque>"

namespace Store

/-- A piece of text still to be written. -/
inductive Piece where
  /-- A term, with the number of bindings that may be read on the way, after a text that leads to
  it. -/
  | term (lead : String) (n : Nat) (t : Term)
  /-- A text. -/
  | text (s : String)

/-- The number of steps that a piece leads to. -/
def Piece.weight (σ : Store) : Piece → Nat
  | .term _ n t => σ.weight n t
  | .text _ => 1

/-- The arguments of a compound, a comma and a space before each but the first. -/
def argumentPieces (n : Nat) : List Term → List Piece
  | [] => []
  | t :: ts => .term "" n t :: ts.map (.term ", " n)

private theorem sum_weight_argumentPieces (σ : Store) (n : Nat) (ts : List Term) :
    total ((argumentPieces n ts).map (Piece.weight σ)) = σ.weightAll n ts := by
  have h : ∀ (lead : String) (ts : List Term),
      total ((ts.map (Piece.term lead n)).map (Piece.weight σ)) = σ.weightAll n ts := by
    intro lead ts
    induction ts with
    | nil => simp
    | cons t ts ih => simp [Piece.weight] at ih ⊢; omega
  cases ts with
  | nil => simp [argumentPieces]
  | cons t ts =>
    have := h ", " ts
    simp [argumentPieces, Piece.weight] at this ⊢
    omega

/-- Writes pieces behind `out`. -/
def writeInspected (σ : Store) : List Piece → String → String
  | [], out => out
  | .text s :: rest, out => writeInspected σ rest (out ++ s)
  | .term lead 0 (.var v) :: rest, out => writeInspected σ rest (out ++ lead ++ v.text)
  | .term lead (n + 1) (.var v) :: rest, out =>
    match _ : σ.value? v with
    | some t => writeInspected σ (.term "=" n t :: rest) (out ++ lead ++ v.text)
    | none => writeInspected σ rest (out ++ lead ++ v.text)
  | .term lead _ (.const c) :: rest, out => writeInspected σ rest (out ++ lead ++ c.inspect)
  | .term lead n (.compound _ tag args) :: rest, out =>
    writeInspected σ (argumentPieces n args ++ .text "])" :: rest)
      (out ++ lead ++ "Tag#" ++ toString tag.index ++ "([")
termination_by pieces => total (pieces.map (Piece.weight σ))
decreasing_by
  · simp [Piece.weight]
  · simp [Piece.weight]
  · simp_all [Piece.weight, weight_var_succ]
  · simp_all [Piece.weight, weight_var_succ]
  · simp [Piece.weight]
  · have := sum_weight_argumentPieces σ n args
    simp +arith [Piece.weight, this]

/-- A term for diagnosis: atoms and tags by number, and after every bound variable its binding. -/
def inspect (σ : Store) (t : Term) : String :=
  σ.writeInspected [.term "" σ.size t] ""

end Store

end Resolvent
