import Mathlib.Data.Finset.Dedup
import Mathlib.Data.List.Forall2
import Resolvent.Proofs.Goals

/-!
# Clauses that are accepted

The goals of a body are what is left when its control constructs are taken apart (`Tree.goals`). A body
is read if every one of them can be called, and otherwise the leftmost one that cannot is reported
(`Body.screens_ofTree`). `Body.Reads` says which goals a body that is read has. They take as many slots as
the control constructs of the tree need (`Body.Reads.slots_eq`). Of clauses one after the other the first
one that is refused is reported (`Rule.screens_mapM`).
-/

namespace Resolvent

namespace Tree

/-- The tree as a constant that cannot be called, if it is one: a number or a host value. -/
def refused? : Tree → Option Constant
  | .const (.atom _) => none
  | .const c => some c
  | _ => none

/-- Whether the tree is a control construct with goals inside it. -/
def opens : Tree → Bool
  | .compound tag [_, _] => tag = .conj || tag = .disj || tag = .arrow
  | .compound tag [_] => tag = .negation
  | .compound tag [_, _, _] => tag = .catchGoal
  | _ => false

/-- The goals of a body from the left. The catcher of `catch/3` is no goal. -/
def goals : Tree → List Tree
  | .compound tag [a, b] =>
    if tag = .conj ∨ tag = .disj ∨ tag = .arrow then goals a ++ goals b else [.compound tag [a, b]]
  | .compound tag [a] => if tag = .negation then goals a else [.compound tag [a]]
  | .compound tag [a, b, c] => if tag = .catchGoal then goals a ++ goals c else [.compound tag [a, b, c]]
  | .compound tag args => [.compound tag args]
  | .var v => [.var v]
  | .const c => [.const c]
termination_by structural t => t

/-- The leftmost goal of a body that cannot be called. -/
def misplaced? (t : Tree) : Option Constant :=
  t.goals.findSome? refused?

/-- How many slots the control constructs of a body need: one for a commitment or a negation, and two
for `catch/3`. -/
def reserved : Tree → Nat
  | .compound tag [a, b] =>
    if tag = .conj ∨ tag = .disj then reserved a + reserved b
    else if tag = .arrow then 1 + reserved a + reserved b
    else 0
  | .compound tag [a] => if tag = .negation then 1 + reserved a else 0
  | .compound tag [a, _, c] => if tag = .catchGoal then 2 + reserved a + reserved c else 0
  | .compound _ _ => 0
  | .var _ => 0
  | .const _ => 0
termination_by structural t => t

/-- A tree with no goals inside it is one goal itself and needs no slots. -/
theorem goals_of_not_opens : ∀ {t : Tree}, t.opens = false → t.goals = [t] ∧ t.reserved = 0
  | .var _, _ | .const _, _ | .compound _ [], _ | .compound _ (_ :: _ :: _ :: _ :: _), _ => ⟨rfl, rfl⟩
  | .compound _ [_], h | .compound _ [_, _], h | .compound _ [_, _, _], h => by
    simp_all [opens, goals, reserved]

/-- The variables of the tree are among those of a set. -/
def Over (V : Var → Prop) (t : Tree) : Prop :=
  ∀ v, .var v ∈ t.nodes → V v

theorem Over.arg {V : Var → Prop} {tag : Tag} {args : List Tree} (h : (Tree.compound tag args).Over V)
    {t : Tree} (ht : t ∈ args) : t.Over V :=
  fun v hv => h v (by rw [Tree.nodes, List.mem_append]; exact .inl (Tree.mem_nodesAll.mpr ⟨t, ht, hv⟩))

theorem over_compound {V : Var → Prop} {tag : Tag} {args : List Tree} (h : ∀ t ∈ args, t.Over V) :
    (Tree.compound tag args).Over V := by
  intro v hv
  rw [Tree.nodes, List.mem_append, Tree.mem_nodesAll] at hv
  obtain ⟨t, ht, hv⟩ | hv := hv
  · exact h t ht v hv
  · cases hv with
    | tail _ hv => cases hv

end Tree

namespace Body

/-- The goals that a tree is read as. Which tag an atom has is left open. -/
inductive Reads : Tree → List Goal → Prop where
  | callVar (v : Var) : Reads (.var v) [.callVar v]
  | succeed : Reads (.atom .trueGoal) [.succeed]
  | fail {a : Atom} (h : a = .failGoal ∨ a = .falseGoal) : Reads (.atom a) [.fail]
  | cut : Reads (.atom .cutGoal) [.cut]
  | callAtom (a : Atom) (tag : Tag) : Reads (.atom a) [.call tag []]
  | conj {a b : Tree} {x y : List Goal} (ha : Reads a x) (hb : Reads b y) :
    Reads (.compound .conj [a, b]) (x ++ y)
  | disj {a b : Tree} {x y : List Goal} (ha : Reads a x) (hb : Reads b y) :
    Reads (.compound .disj [a, b]) [either x y]
  | arrow {a b : Tree} {x y : List Goal} (ha : Reads a x) (hb : Reads b y) :
    Reads (.compound .arrow [a, b]) [.ifThen x y]
  | negation {a : Tree} {x : List Goal} (ha : Reads a x) :
    Reads (.compound .negation [a]) [.negation x]
  | unify (a b : Tree) : Reads (.compound .equation [a, b]) [.unify a b]
  | raise (a : Tree) : Reads (.compound .throwGoal [a]) [.raise a]
  | guard {a b c : Tree} {x z : List Goal} (ha : Reads a x) (hc : Reads c z) :
    Reads (.compound .catchGoal [a, b, c]) [.guard x b z]
  | call {tag : Tag} {args : List Tree} (h : (Tree.compound tag args).opens = false) :
    Reads (.compound tag args) [.call tag args]

namespace Reads

variable {t : Tree} {gs : List Goal}

/-- A body has goals. -/
theorem ne_nil (h : Reads t gs) : gs ≠ [] := by
  induction h with
  | conj _ _ iha _ => exact List.append_ne_nil_of_left_ne_nil iha _
  | _ => exact List.cons_ne_nil _ _

end Reads

theorem slots_append (x y : List Goal) : slots (x ++ y) = slots x + slots y := by
  induction x with
  | nil => simp [slots]
  | cons g x ih => simp [slots, ih, Nat.add_assoc]

/-- A conditional takes one slot more than its bodies, the commitment in it. -/
theorem slots_either (x y : List Goal) : (either x y).slots = slots x + slots y := by
  unfold either
  split
  · simp [Goal.slots, slots]
  · rfl

namespace Reads

variable {t : Tree} {gs : List Goal}

/-- The goals take as many slots as the control constructs need. -/
theorem slots_eq (h : Reads t gs) : slots gs = t.reserved := by
  induction h with
  | call h => simp [slots, Goal.slots, (Tree.goals_of_not_opens h).2]
  | conj _ _ iha ihb => rw [slots_append, iha, ihb]; rfl
  | disj _ _ iha ihb => rw [slots, slots, slots_either, iha, ihb]; rfl
  | arrow _ _ iha ihb => rw [slots, slots, Goal.slots, iha, ihb]; rfl
  | negation _ iha => rw [slots, slots, Goal.slots, iha]; rfl
  | guard _ _ iha ihc => rw [slots, slots, Goal.slots, iha, ihc]; rfl
  | _ => rfl

/-- The variables in the goals are those of the tree. -/
theorem each_over {V : Var → Prop} (h : Reads t gs) (ht : t.Over V) : Each (Tree.Over V) gs := by
  induction h with
  | callVar v => exact ⟨Tree.over_compound (List.forall_mem_singleton.mpr ht), trivial⟩
  | succeed | fail | cut => exact ⟨trivial, trivial⟩
  | callAtom => exact ⟨Tree.over_compound fun t ht => absurd ht List.not_mem_nil, trivial⟩
  | conj _ _ iha ihb =>
    rw [each_iff]
    have ha := each_iff.mp (iha (ht.arg (by simp)))
    have hb := each_iff.mp (ihb (ht.arg (by simp)))
    exact fun g hg => (List.mem_append.mp hg).elim (ha g) (hb g)
  | disj _ _ iha ihb =>
    exact ⟨each_either (iha (ht.arg (by simp))) (ihb (ht.arg (by simp))), trivial⟩
  | arrow _ _ iha ihb => exact ⟨⟨iha (ht.arg (by simp)), ihb (ht.arg (by simp))⟩, trivial⟩
  | negation _ iha => exact ⟨iha (ht.arg (by simp)), trivial⟩
  | unify a b => exact ⟨⟨ht.arg (by simp), ht.arg (by simp)⟩, trivial⟩
  | raise a => exact ⟨ht.arg (by simp), trivial⟩
  | guard _ _ iha ihc =>
    exact ⟨⟨iha (ht.arg (by simp)), ht.arg (by simp), ihc (ht.arg (by simp))⟩, trivial⟩
  | call => exact ⟨ht, trivial⟩

end Reads

end Body

/-! ### Reading -/

/-- The step gives an answer of which `P` holds if there is nothing to refuse, and otherwise reports what
is refused. -/
def Screens {σ α : Type} (refused : Option CompileError) (P : α → Prop) (x : EStateM CompileError σ α) :
    Prop :=
  ∀ s, Yields x s (fun a _ => refused = none ∧ P a) fun e _ => refused = some e

namespace Screens

variable {σ α β : Type} {refused refused' : Option CompileError} {P Q : α → Prop} {R : β → Prop}
  {x : EStateM CompileError σ α} {f : α → EStateM CompileError σ β}

theorem pure {a : α} (h : P a) : Screens none P (pure a : EStateM CompileError σ α) :=
  fun _ => ⟨rfl, h⟩

theorem imp (h : Screens refused P x) (hPQ : ∀ a, P a → Q a) : Screens refused Q x :=
  fun s => (h s).imp (fun a _ ha => ⟨ha.1, hPQ a ha.2⟩) fun _ _ he => he

/-- Of two steps the first one that refuses reports. -/
theorem bind (h : Screens refused P x) (hf : ∀ a, P a → Screens refused' R (f a)) :
    Screens (refused.or refused') R (x >>= f) := by
  intro s
  rw [yields_bind]
  refine (h s).imp (fun a s' ha => (hf a ha.2 s').imp ?_ fun e s'' he => ?_) fun e s' he => ?_
  · rintro b s'' ⟨hb, hR⟩
    exact ⟨by rw [ha.1, hb, Option.or_none], hR⟩
  · rw [ha.1, he, Option.none_or]
  · rw [he, Option.some_or]

/-- A step behind which nothing is refused. -/
theorem map (h : Screens refused P x) {g : α → EStateM CompileError σ β}
    (hg : ∀ a, P a → Screens none R (g a)) : Screens refused R (x >>= g) := by
  simpa only [Option.or_none] using h.bind hg

/-- Steps one after the other report the first one that refuses. -/
theorem mapM {ι : Type} {g : ι → EStateM CompileError σ α} {refused : ι → Option CompileError}
    {P : ι → α → Prop} : ∀ {xs : List ι}, (∀ i ∈ xs, Screens (refused i) (P i) (g i)) →
      Screens (xs.findSome? refused) (List.Forall₂ P xs) (xs.mapM g)
  | [], _ => pure .nil
  | i :: xs, h => by
    rw [List.forall_mem_cons] at h
    rw [List.mapM_cons]
    have hor : (i :: xs).findSome? refused = (refused i).or (xs.findSome? refused) := by
      rw [List.findSome?_cons]
      cases refused i <;> rfl
    rw [hor]
    exact h.1.bind fun a ha => (mapM h.2).map fun as has => pure (.cons ha has)

end Screens

namespace Tree

/-- Why a body is not read: the leftmost goal that cannot be called. -/
def refusal (t : Tree) : Option CompileError :=
  t.misplaced?.map .notCallable

theorem refusal_of_not_opens {t : Tree} (h : t.opens = false) :
    t.refusal = t.refused?.map .notCallable := by
  rw [refusal, misplaced?, (goals_of_not_opens h).1, List.findSome?_cons]
  cases t.refused? <;> rfl

/-- Of two trees with goals the left one is looked through first. -/
theorem refusal_of_append {s t u : Tree} (h : s.goals = t.goals ++ u.goals) :
    s.refusal = t.refusal.or u.refusal := by
  rw [refusal, misplaced?, h, List.findSome?_append]
  exact Option.map_or

end Tree

namespace Body

/-- A body is read behind others if its goals can be called, and otherwise the leftmost one that cannot
is reported. -/
theorem screens_readGoals : ∀ (t : Tree) (found : List Goal),
    Screens t.refusal (fun gs => ∃ x, Reads t x ∧ gs = x.reverse ++ found) (readGoals t found)
  | .var v, found => .pure ⟨_, .callVar v, rfl⟩
  | .const (.atom a), found => by
    rw [readGoals]
    have htrue {g : Goal} (hg : Reads (.atom a) [g]) : Screens (Tree.atom a).refusal
        (fun gs => ∃ x, Reads (.atom a) x ∧ gs = x.reverse ++ found)
        (pure (g :: found) : EStateM CompileError Symbols _) := .pure ⟨_, hg, rfl⟩
    split_ifs with h₁ h₂ h₃
    · exact htrue (h₁ ▸ .succeed)
    · exact htrue (.fail h₂)
    · exact htrue (h₃ ▸ .cut)
    · exact fun s => ⟨rfl, _, .callAtom a _, rfl⟩
  | .const (.int _), _ | .const (.big _), _ | .const (.rat _), _ | .const (.float _), _
  | .const (.host _), _ => fun s => rfl
  | .compound tag [a, b], found => by
    have hplain {g : Goal} (h : (Tree.compound tag [a, b]).opens = false)
        (hg : Reads (.compound tag [a, b]) [g]) : Screens (Tree.compound tag [a, b]).refusal
          (fun gs => ∃ x, Reads (.compound tag [a, b]) x ∧ gs = x.reverse ++ found)
          (pure (g :: found) : EStateM CompileError Symbols _) := by
      rw [Tree.refusal_of_not_opens h]
      exact .pure ⟨_, hg, rfl⟩
    -- both sides read one after the other, and made one goal
    have hpair {f : List Goal → List Goal → Goal} (hgoals : (Tree.compound tag [a, b]).goals =
        a.goals ++ b.goals) (hf : ∀ x y, Reads a x → Reads b y → Reads (.compound tag [a, b]) [f x y]) :
        Screens (Tree.compound tag [a, b]).refusal
          (fun gs => ∃ x, Reads (.compound tag [a, b]) x ∧ gs = x.reverse ++ found) (do
            let a ← readGoals a []
            let b ← readGoals b []
            return f a.reverse b.reverse :: found) := by
      rw [Tree.refusal_of_append hgoals]
      refine (screens_readGoals a []).bind ?_
      rintro _ ⟨x, hx, rfl⟩
      refine (screens_readGoals b []).map ?_
      rintro _ ⟨y, hy, rfl⟩
      exact .pure ⟨_, hf x y hx hy, by simp⟩
    rw [readGoals]
    split_ifs with h₁ h₂ h₃ h₄
    · subst h₁
      rw [Tree.refusal_of_append (t := a) (u := b) rfl]
      refine (screens_readGoals a found).bind ?_
      rintro _ ⟨x, hx, rfl⟩
      refine (screens_readGoals b _).imp ?_
      rintro _ ⟨y, hy, rfl⟩
      exact ⟨_, .conj hx hy, by simp⟩
    · subst h₂
      exact hpair rfl fun x y => .disj
    · subst h₃
      exact hpair rfl fun x y => .arrow
    · subst h₄
      exact hplain rfl (.unify a b)
    · have h : (Tree.compound tag [a, b]).opens = false := by simp [Tree.opens, h₁, h₂, h₃]
      exact hplain h (.call h)
  | .compound tag [a], found => by
    rw [readGoals]
    split_ifs with h₁ h₂
    · subst h₁
      refine (screens_readGoals a []).map ?_
      rintro _ ⟨x, hx, rfl⟩
      exact .pure ⟨_, .negation hx, by simp⟩
    · subst h₂
      exact .pure ⟨_, .raise a, rfl⟩
    · have h : (Tree.compound tag [a]).opens = false := by simp [Tree.opens, h₁]
      rw [Tree.refusal_of_not_opens h]
      exact .pure ⟨_, .call h, rfl⟩
  | .compound tag [a, b, c], found => by
    rw [readGoals]
    split_ifs with h₁
    · subst h₁
      rw [Tree.refusal_of_append (t := a) (u := c) rfl]
      refine (screens_readGoals a []).bind ?_
      rintro _ ⟨x, hx, rfl⟩
      refine (screens_readGoals c []).map ?_
      rintro _ ⟨z, hz, rfl⟩
      exact .pure ⟨_, .guard hx hz, by simp⟩
    · have h : (Tree.compound tag [a, b, c]).opens = false := by simp [Tree.opens, h₁]
      rw [Tree.refusal_of_not_opens h]
      exact .pure ⟨_, .call h, rfl⟩
  | .compound _ [], found
  | .compound _ (_ :: _ :: _ :: _ :: _), found => .pure ⟨_, .call rfl, rfl⟩
termination_by structural t => t

/-- A body is read if its goals can be called, and otherwise the leftmost one that cannot is reported. -/
theorem screens_ofTree (t : Tree) : Screens t.refusal (Reads t) (ofTree t) := by
  refine (screens_readGoals t []).map ?_
  rintro _ ⟨x, hx, rfl⟩
  exact .pure (by simpa using hx)

end Body

/-! ### Clauses -/

theorem Var.mem_of_mem_distinct {v : Var} {vs : List Var} (h : v ∈ distinct vs) : v ∈ vs := by
  rw [distinct, List.mem_reverse] at h
  suffices hfold : ∀ (vs : List Var) (known : Std.TreeMap Nat Unit × List Var),
      v ∈ (vs.foldl see known).2 → v ∈ known.2 ∨ v ∈ vs from
    (hfold vs _ h).resolve_left List.not_mem_nil
  intro vs
  induction vs with
  | nil => exact fun known h => .inl h
  | cons w vs ih =>
    intro known h
    obtain h | h := ih _ h
    · rw [see] at h
      split at h
      · exact .inl h
      · obtain rfl | h := List.mem_cons.mp h
        · exact .inr List.mem_cons_self
        · exact .inl h
    · exact .inr (List.mem_cons_of_mem _ h)

namespace Clause

/-- The head of the clause has the tag and as many arguments as the tag says. -/
def HasTag (c : Clause) (u : Universe) (tag : Tag) : Prop :=
  match u.store.deref c.head with
  | .const (.atom a) => u.symbols.parts tag = (a, 0)
  | .compound _ f args => f = tag ∧ args.length = u.symbols.arity tag
  | _ => False

/-- The leftmost goal in the body of the clause that cannot be called. -/
def misplaced? (σ : Store) (c : Clause) : Option Constant :=
  (σ.resolve c.body).misplaced?

/-- Why the clause is not taken apart, if it is not. -/
def refusal (σ : Store) (c : Clause) : Option CompileError :=
  match σ.resolve c.head with
  | .var v => some (.variableHead v)
  | .const (.atom _) | .compound .. => (σ.resolve c.body).refusal
  | .const k => some (.invalidHead k)

/-- The arguments of the head. -/
def arguments (σ : Store) (c : Clause) : List Tree :=
  match σ.resolve c.head with
  | .compound _ args => args
  | _ => []

theorem HasTag.refusal_eq {c : Clause} {u : Universe} {tag : Tag} (h : c.HasTag u tag) :
    c.refusal u.store = (c.misplaced? u.store).map .notCallable := by
  obtain ⟨m, hm, -⟩ := u.store.resolve_of_deref c.head
  rw [HasTag] at h
  rw [refusal, hm]
  cases hd : u.store.deref c.head with
  | var v =>
    rw [hd] at h
    exact h.elim
  | const k =>
    rw [hd] at h
    cases k with
    | atom a =>
      rw [Store.treeWithin]
      rfl
    | _ => exact h.elim
  | compound stamp f args =>
    rw [Store.treeWithin]
    rfl

/-- Clauses whose heads have a tag are refused because of goals that cannot be called only. -/
theorem findSome?_refusal {clauses : List Clause} {u : Universe} {tag : Tag}
    (h : ∀ c ∈ clauses, c.HasTag u tag) : clauses.findSome? (refusal u.store) =
      (clauses.findSome? (misplaced? u.store)).map .notCallable := by
  induction clauses with
  | nil => rfl
  | cons c clauses ih =>
    rw [List.forall_mem_cons] at h
    rw [List.findSome?_cons, List.findSome?_cons, h.1.refusal_eq, ih h.2]
    cases c.misplaced? u.store <;> rfl

theorem HasTag.length_arguments {c : Clause} {u : Universe} {tag : Tag} (h : c.HasTag u tag) :
    (c.arguments u.store).length = u.symbols.arity tag := by
  obtain ⟨m, hm, -⟩ := u.store.resolve_of_deref c.head
  rw [HasTag] at h
  rw [arguments, hm]
  cases hd : u.store.deref c.head with
  | var v =>
    rw [hd] at h
    exact h.elim
  | const k =>
    rw [hd] at h
    cases k with
    | atom a =>
      have hzero : u.symbols.arity tag = 0 := congrArg Prod.snd h
      rw [Store.treeWithin, hzero]
      rfl
    | _ => exact h.elim
  | compound stamp f args =>
    rw [hd] at h
    rw [Store.treeWithin]
    exact (u.store.length_treesWithin m args).trans h.2

/-- How many slots the control constructs in the body of the clause need. -/
def reserved (σ : Store) (c : Clause) : Nat :=
  (σ.resolve c.body).reserved

/-- The variables of the clause, each as often as it occurs. -/
def occurrences (σ : Store) (c : Clause) : List Var :=
  ((σ.resolve c.head).nodes ++ (σ.resolve c.body).nodes).filterMap Node.var?

/-- How many slots the control constructs in the bodies of clauses need. -/
def reservedBy (σ : Store) (clauses : List Clause) : Nat :=
  total (clauses.map (reserved σ))

/-- The variables of clauses. -/
def variablesOf (σ : Store) (clauses : List Clause) : Finset Var :=
  (clauses.flatMap (occurrences σ)).toFinset

theorem mem_occurrences {σ : Store} {c : Clause} {v : Var} : v ∈ c.occurrences σ ↔
    .var v ∈ (σ.resolve c.head).nodes ∨ .var v ∈ (σ.resolve c.body).nodes := by
  rw [occurrences, List.mem_filterMap, ← List.mem_append]
  constructor
  · rintro ⟨x, hx, hv⟩
    cases x with
    | var w => exact Option.some.inj hv ▸ hx
    | const c => cases hv
    | functor tag arity => cases hv
  · exact fun h => ⟨_, h, rfl⟩

end Clause

namespace Rule

/-- The rule is the clause taken apart. -/
structure Reads (σ : Store) (c : Clause) (r : Rule) : Prop where
  /-- The arguments are those of the head. -/
  args : r.args = c.arguments σ
  /-- The goals are those of the body. -/
  body : Body.Reads (σ.resolve c.body) r.body
  /-- The variables are those of the clause. -/
  vars : ∀ v, v ∈ r.vars ↔ v ∈ c.occurrences σ

/-- The arguments have variables of the clause. -/
theorem Reads.over {σ : Store} {c : Clause} {r : Rule} (h : r.Reads σ c) :
    ∀ t ∈ r.args, t.Over (· ∈ c.occurrences σ) := by
  have hhead : (σ.resolve c.head).Over (· ∈ c.occurrences σ) :=
    fun v hv => Clause.mem_occurrences.mpr (.inl hv)
  rw [h.args, Clause.arguments]
  cases hd : σ.resolve c.head with
  | compound f args =>
    rw [hd] at hhead
    exact fun t => hhead.arg
  | _ => exact fun t ht => absurd ht List.not_mem_nil

/-- A clause is taken apart unless its head or the leftmost goal that cannot be called is reported. -/
theorem screens_ofClause (σ : Store) (c : Clause) :
    Screens (c.refusal σ) (Reads σ c) (ofClause σ c) := by
  have hvars (v : Var) : v ∈ Var.distinct (((σ.resolve c.head).postorder ++
      (σ.resolve c.body).postorder).filterMap Node.var?) ↔ v ∈ c.occurrences σ := by
    rw [Tree.postorder_eq, Tree.postorder_eq]
    exact ⟨Var.mem_of_mem_distinct, Var.mem_distinct⟩
  -- the arguments are found when the head is looked at, and the body is read in the same way then
  have hmade {args : List Tree} (hargs : args = c.arguments σ) :
      Screens (σ.resolve c.body).refusal (Reads σ c) (do
        return ⟨args, ← Body.ofTree (σ.resolve c.body), Var.distinct (((σ.resolve c.head).postorder ++
          (σ.resolve c.body).postorder).filterMap Node.var?)⟩ : EStateM CompileError Symbols Rule) :=
    (Body.screens_ofTree _).map fun gs hgs => .pure ⟨hargs, hgs, hvars⟩
  rw [ofClause, Clause.refusal]
  dsimp only
  cases hd : σ.resolve c.head with
  | var v => exact fun s => rfl
  | const k =>
    rw [hd] at hmade
    cases k with
    | atom a => exact hmade (by rw [Clause.arguments, hd])
    | _ => exact fun s => rfl
  | compound f args =>
    rw [hd] at hmade
    exact hmade (by rw [Clause.arguments, hd])

/-- Clauses are taken apart unless the first one that is refused is reported. -/
theorem screens_mapM (σ : Store) (clauses : List Clause) : Screens (clauses.findSome? (Clause.refusal σ))
    (List.Forall₂ (Reads σ) clauses) (clauses.mapM (ofClause σ)) :=
  .mapM fun c _ => screens_ofClause σ c

end Rule

end Resolvent
