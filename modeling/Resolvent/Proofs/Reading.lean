import Resolvent.Program.Compile
import Resolvent.Unify

/-!
# Trees and their nodes

The walks of the engine go through terms with a stack of what is still to be done, and lists of
nodes stand between the reading of a term and what is made of it. Here the same results are given by
recursion on trees: `Tree.nodes` are the nodes of a tree (`Tree.postorder_eq`), `Store.treeWithin` is the
tree that a term denotes (`Store.resolve_eq_treeWithin`), and `Tree.copy` copies a tree
(`Store.copy_eq`).
-/

namespace Resolvent

namespace Tree

mutual

/-- The nodes of a tree, arguments before their functor. -/
def nodes : Tree → List Node
  | .var v => [.var v]
  | .const c => [.const c]
  | .compound tag args => nodesAll args ++ [.functor tag args.length]

/-- The nodes of trees, one tree after the other. -/
def nodesAll : List Tree → List Node
  | [] => []
  | t :: ts => nodes t ++ nodesAll ts

end

mutual

theorem writeNodes_walk : ∀ (t : Tree) (rest : List Step) (written : List Node),
    writeNodes (.walk t :: rest) written = writeNodes rest (t.nodes.reverse ++ written)
  | .var v, rest, written => by rw [writeNodes]; rfl
  | .const c, rest, written => by rw [writeNodes]; rfl
  | .compound tag args, rest, written => by
    rw [writeNodes, writeNodes_map_walk, writeNodes, nodes]
    simp

theorem writeNodes_map_walk : ∀ (ts : List Tree) (rest : List Step) (written : List Node),
    writeNodes (ts.map .walk ++ rest) written = writeNodes rest ((nodesAll ts).reverse ++ written)
  | [], rest, written => rfl
  | t :: ts, rest, written => by
    rw [List.map_cons, List.cons_append, writeNodes_walk, writeNodes_map_walk, nodesAll]
    simp

end

theorem postorder_eq (t : Tree) : t.postorder = t.nodes := by
  rw [postorder, writeNodes_walk, writeNodes]
  simp

mutual

theorem readNodes_nodes : ∀ (t : Tree) (rest : List Node) (stack : List Tree),
    readNodes (t.nodes ++ rest) stack = readNodes rest (t :: stack)
  | .var v, rest, stack => rfl
  | .const c, rest, stack => rfl
  | .compound tag args, rest, stack => by
    rw [nodes, List.append_assoc, readNodes_nodesAll, List.singleton_append, readNodes]
    simp [List.take_left', List.drop_left']

theorem readNodes_nodesAll : ∀ (ts : List Tree) (rest : List Node) (stack : List Tree),
    readNodes (nodesAll ts ++ rest) stack = readNodes rest (ts.reverse ++ stack)
  | [], rest, stack => rfl
  | t :: ts, rest, stack => by
    rw [nodesAll, List.append_assoc, readNodes_nodes, readNodes_nodesAll]
    simp

end

theorem ofPostorder_nodes (t : Tree) : ofPostorder t.nodes = t := by
  have h := readNodes_nodes t [] []
  rw [List.append_nil] at h
  rw [ofPostorder, h]
  rfl

end Tree

namespace Store

mutual

/-- The tree that a term denotes, with at most `n` bindings read on one path. -/
def treeWithin (σ : Store) : Nat → Term → Tree
  | 0, .var v => .var v
  | n + 1, .var v =>
    match σ.value? v with
    | some t => treeWithin σ n t
    | none => .var v
  | _, .const c => .const c
  | n, .compound _ tag args => .compound tag (treesWithin σ n args)
termination_by n t => (n, sizeOf t)

/-- The trees that terms denote. -/
def treesWithin (σ : Store) : Nat → List Term → List Tree
  | _, [] => []
  | n, t :: ts => treeWithin σ n t :: treesWithin σ n ts
termination_by n ts => (n, sizeOf ts)

end

@[simp] theorem length_treesWithin (σ : Store) (n : Nat) (ts : List Term) :
    (σ.treesWithin n ts).length = ts.length := by
  induction ts with
  | nil => simp [treesWithin]
  | cons t ts ih => simp [treesWithin, ih]

mutual

theorem writeNodes_walk (σ : Store) : ∀ (n : Nat) (t : Term) (rest : List Step)
    (written : List Node), σ.writeNodes (.walk n t :: rest) written =
      σ.writeNodes rest ((σ.treeWithin n t).nodes.reverse ++ written)
  | 0, .var v, rest, written => by rw [writeNodes, treeWithin]; rfl
  | n + 1, .var v, rest, written => by
    rw [writeNodes, treeWithin]
    split
    · rename_i t ht
      rw [writeNodes_walk σ n t, ht]
    · rename_i ht
      rw [ht]
      rfl
  | n, .const c, rest, written => by rw [writeNodes, treeWithin]; rfl
  | n, .compound stamp tag args, rest, written => by
    rw [writeNodes, writeNodes_map_walk σ n args, writeNodes, treeWithin, Tree.nodes]
    simp
termination_by n t => (n, sizeOf t)

theorem writeNodes_map_walk (σ : Store) : ∀ (n : Nat) (ts : List Term) (rest : List Step)
    (written : List Node), σ.writeNodes (ts.map (.walk n) ++ rest) written =
      σ.writeNodes rest ((Tree.nodesAll (σ.treesWithin n ts)).reverse ++ written)
  | n, [], rest, written => by rw [treesWithin]; rfl
  | n, t :: ts, rest, written => by
    rw [List.map_cons, List.cons_append, writeNodes_walk σ n t, writeNodes_map_walk σ n ts, treesWithin,
      Tree.nodesAll]
    simp
termination_by n ts => (n, sizeOf ts)

end

theorem postorder_eq (σ : Store) (t : Term) : σ.postorder t = (σ.treeWithin σ.size t).nodes := by
  rw [postorder, writeNodes_walk, writeNodes]
  simp

theorem resolve_eq_treeWithin (σ : Store) (t : Term) : σ.resolve t = σ.treeWithin σ.size t := by
  rw [resolve, postorder_eq, Tree.ofPostorder_nodes]

end Store

/-! ### Copies -/

namespace Tree

mutual

/-- A copy of a tree, with a new variable for every variable that `ρ` does not know yet. -/
def copy : Tree → Store.Renaming → Store → Term × Store.Renaming × Store
  | .var v, ρ, σ =>
    match ρ[v.id]? with
    | some w => (.var w, ρ, σ)
    | none => (.var σ.fresh.1, ρ.insert v.id σ.fresh.1, σ.fresh.2)
  | .const c, ρ, σ => (.const c, ρ, σ)
  | .compound tag args, ρ, σ =>
    let (args, ρ, σ) := copyAll args ρ σ
    let (t, σ) := σ.compound tag args
    (t, ρ, σ)

/-- Copies of trees, one after the other. -/
def copyAll : List Tree → Store.Renaming → Store → List Term × Store.Renaming × Store
  | [], ρ, σ => ([], ρ, σ)
  | t :: ts, ρ, σ =>
    let (t, ρ, σ) := copy t ρ σ
    let (ts, ρ, σ) := copyAll ts ρ σ
    (t :: ts, ρ, σ)

end

theorem length_copyAll : ∀ (ts : List Tree) (ρ : Store.Renaming) (σ : Store),
    (copyAll ts ρ σ).1.length = ts.length
  | [], _, _ => rfl
  | t :: ts, ρ, σ => by simp [copyAll, length_copyAll ts]

end Tree

namespace Store

mutual

theorem copyNodes_nodes : ∀ (t : Tree) (rest : List Node) (stack : List Term) (ρ : Renaming)
    (σ : Store), copyNodes (t.nodes ++ rest) stack ρ σ =
      copyNodes rest ((t.copy ρ σ).1 :: stack) (t.copy ρ σ).2.1 (t.copy ρ σ).2.2
  | .var v, rest, stack, ρ, σ => by
    rw [Tree.nodes, List.singleton_append, copyNodes, Tree.copy]
    cases ρ[v.id]? <;> rfl
  | .const c, rest, stack, ρ, σ => rfl
  | .compound tag args, rest, stack, ρ, σ => by
    have hlen := Tree.length_copyAll args ρ σ
    rw [Tree.nodes, List.append_assoc, copyNodes_nodesAll, List.singleton_append, copyNodes]
    simp [Tree.copy, ← hlen, List.take_left', List.drop_left']

theorem copyNodes_nodesAll : ∀ (ts : List Tree) (rest : List Node) (stack : List Term)
    (ρ : Renaming) (σ : Store), copyNodes (Tree.nodesAll ts ++ rest) stack ρ σ =
      copyNodes rest ((Tree.copyAll ts ρ σ).1.reverse ++ stack) (Tree.copyAll ts ρ σ).2.1
        (Tree.copyAll ts ρ σ).2.2
  | [], rest, stack, ρ, σ => rfl
  | t :: ts, rest, stack, ρ, σ => by
    rw [Tree.nodesAll, List.append_assoc, copyNodes_nodes, copyNodes_nodesAll]
    simp [Tree.copyAll]

end

theorem copyWith_eq (t : Term) (ρ : Renaming) (σ : Store) :
    σ.copyWith t ρ = (σ.resolve t).copy ρ σ := by
  have h := copyNodes_nodes (σ.resolve t) [] [] ρ σ
  rw [List.append_nil] at h
  rw [copyWith, postorder_eq, ← resolve_eq_treeWithin, h]
  rfl

theorem copy_eq (t : Term) (σ : Store) :
    σ.copy t = (((σ.resolve t).copy ∅ σ).1, ((σ.resolve t).copy ∅ σ).2.2) := by
  rw [copy, copyWith_eq]

end Store

end Resolvent
