import Resolvent.Proofs.Accepting
import Resolvent.Proofs.Decoding
import Resolvent.Proofs.Emission

/-!
# What the second pass writes

A goal is written in pieces: instructions and labels, trees that are built, and the goals inside it,
which are written in the same way. `Goal.pieces` gives the pieces of a goal from the first slot and the
first label that it takes; those inside it take the next ones. `Program.Listed` says which lines and
handlers are written for pieces, with the goals `catch/3` in whose first arguments each line stands.

The second pass writes what is listed, and it does not fail, if every variable has a slot and there are
enough slots left (`Program.Emit.writable`).
-/

namespace Resolvent

/-- The slot that an instruction writes. -/
def Instruction.setSlot? {κ τ ℓ : Type} : Instruction κ τ ℓ → Option UInt16
  | storeEnvironment n | saveCut n => some n
  | _ => none

namespace Program

/-- A goal `catch/3` with the slots and labels that it takes. -/
structure Catch where
  /-- The handler of its first argument. -/
  handler : Handler
  /-- The slot of the ball. -/
  ball : UInt16
  /-- The label of the code that throws the ball again. -/
  rethrow : Nat
  /-- The label behind the code. -/
  done : Nat
  /-- The first argument. -/
  body : List Goal
  /-- The second argument. -/
  catcher : Tree
  /-- The third argument. -/
  recovery : List Goal

/-- A piece of what is written. -/
inductive Piece where
  /-- An instruction. -/
  | instruction (i : Instruction Term Tag Nat)
  /-- The place of a label. -/
  | label (n : Nat)
  /-- Code that pushes a tree. -/
  | tree (t : Tree)
  /-- Code that pops a term into the slot of a variable. -/
  | store (v : Var)
  /-- The code of goals in which `!` cuts to a barrier. -/
  | goals (barrier : UInt16) (gs : List Goal)
  /-- The code of a goal `catch/3`. -/
  | guarded (k : Catch)
  /-- The code of clauses; a label leads to the first of them if there are others before it. -/
  | rules (pending : Option Nat) (r : Rule) (rest : List Rule)

/-- The pieces behind the first argument of a goal `catch/3`. -/
def Catch.pieces (k : Catch) : List Piece :=
  [.instruction (.jump k.done), .label k.handler.target, .instruction (.storeEnvironment k.ball),
    .instruction (.tryMeElse k.rethrow), .tree k.catcher, .instruction (.pushEnvironment k.ball),
    .instruction .unify, .instruction .trustMe, .goals k.handler.slot k.recovery,
    .instruction (.jump k.done), .label k.rethrow, .instruction .trustMe,
    .instruction (.pushEnvironment k.ball), .instruction .raise, .label k.done]

end Program

open Program (Piece)

namespace Goal

/-- How many slots a goal takes before the goals inside it. -/
def ownSlots : Goal → Nat
  | .ifThenElse .. | .ifThen .. | .negation _ => 1
  | .guard .. => 2
  | _ => 0

/-- How many labels a goal takes before the goals inside it. -/
def ownLabels : Goal → Nat
  | .either .. | .ifThenElse .. | .ifThen .. => 2
  | .negation _ => 1
  | .guard .. => 5
  | _ => 0

/-- The pieces of a goal in which `!` cuts to a barrier, if `n` is the next slot and `l` the next
label. -/
def pieces (b : UInt16) (n l : Nat) : Goal → List Piece
  | .callVar v => [.tree (.var v), .instruction (.call (.call 0))]
  | .succeed => [.instruction .succeed]
  | .fail => [.instruction .fail]
  | .cut => [.instruction (.cut b)]
  | .either x y =>
    [.instruction (.tryMeElse l), .goals b x, .instruction (.jump (l + 1)), .label l,
      .instruction .trustMe, .goals b y, .label (l + 1)]
  | .ifThenElse x y z =>
    [.instruction (.tryMeElse l), .instruction (.saveCut (.ofNat n)), .goals (.ofNat n) x,
      .instruction (.cut (.ofNat n)), .instruction .trustMe, .goals b y, .instruction (.jump (l + 1)),
      .label l, .instruction .trustMe, .goals b z, .label (l + 1)]
  | .ifThen x y =>
    [.instruction (.tryMeElse l), .instruction (.saveCut (.ofNat n)), .goals (.ofNat n) x,
      .instruction (.cut (.ofNat n)), .instruction .trustMe, .goals b y, .instruction (.jump (l + 1)),
      .label l, .instruction .trustMe, .instruction .fail, .label (l + 1)]
  | .negation x =>
    [.instruction (.tryMeElse l), .instruction (.saveCut (.ofNat n)), .goals (.ofNat n) x,
      .instruction (.cut (.ofNat n)), .instruction .trustMe, .instruction .fail, .label l,
      .instruction .trustMe]
  | .unify s t => [.tree s, .tree t, .instruction .unify]
  | .raise t => [.tree t, .instruction .raise]
  | .guard x catcher y =>
    [.guarded ⟨⟨l, l + 1, l + 2, .ofNat (n + 1)⟩, .ofNat n, l + 3, l + 4, x, catcher, y⟩]
  | .call tag args => args.map .tree ++ [.instruction (.call tag)]

end Goal

namespace Rule

/-- The pieces of the head arguments from number `n` on. -/
def argumentPieces : Nat → List (Tree × Option Var) → List Piece
  | _, [] => []
  | n, (_, some v) :: rest =>
    .instruction (.pushArgument (.ofNat n)) :: .store v :: argumentPieces (n + 1) rest
  | n, (t, none) :: rest =>
    .instruction (.pushArgument (.ofNat n)) :: .tree t :: .instruction .unify ::
      argumentPieces (n + 1) rest

/-- The variables that no head argument stores. -/
def created (r : Rule) : List Var :=
  r.vars.filter fun v => !(Program.Emit.storedVariables (directArguments r.args ∅)).contains v.id

/-- The pieces of a clause. -/
def pieces (r : Rule) : List Piece :=
  r.created.flatMap (fun v => [.instruction .createVariable, .store v]) ++
    (argumentPieces 0 (r.args.zip (directArguments r.args ∅)) ++
      [.goals 0 r.body, .instruction .leave])

/-- The pieces in front of a clause, if `l` is the next label. -/
def chainPieces (l : Nat) : Option Nat → List Rule → List Piece
  | none, [] => []
  | none, _ :: _ => [.instruction (.tryMeElse l)]
  | some n, [] => [.label n, .instruction .trustMe]
  | some n, _ :: _ => [.label n, .instruction (.retryMeElse l)]

/-- The pieces behind a clause, if `l` is the label that leads to them. -/
def restPieces (l : Nat) : List Rule → List Piece
  | [] => []
  | r :: rest => [.rules (some l) r rest]

/-- How many labels a clause takes in front of its goals. -/
def ownLabels : List Rule → Nat
  | [] => 0
  | _ :: _ => 1

end Rule

namespace Program

/-! ### Listings -/

/-- A line with the goals `catch/3` in whose first arguments it stands, the innermost one first. -/
structure Entry where
  /-- The line. -/
  line : Line
  /-- The goals `catch/3` around it. -/
  scopes : List Catch

/-- Entries and goals `catch/3` are listed for pieces that stand in the first arguments of the goals
`scopes`, if the next slot and label are `n` and `l` in front of the pieces and `n'` and `l'` behind them.
The goals `catch/3` are in the order in which their handlers are written. -/
inductive Listed (slots : Slots) : List Catch → Nat → Nat → List Piece → List Entry → List Catch →
    Nat → Nat → Prop
  | nil (scopes : List Catch) (n l : Nat) : Listed slots scopes n l [] [] [] n l
  | instruction {scopes : List Catch} {n l n' l' : Nat} {ps : List Piece} {es : List Entry}
    {ks : List Catch} (i : Instruction Term Tag Nat) (h : Listed slots scopes n l ps es ks n' l') :
    Listed slots scopes n l (.instruction i :: ps) (⟨.instruction i, scopes⟩ :: es) ks n' l'
  | label {scopes : List Catch} {n l n' l' : Nat} {ps : List Piece} {es : List Entry}
    {ks : List Catch} (m : Nat) (h : Listed slots scopes n l ps es ks n' l') :
    Listed slots scopes n l (.label m :: ps) (⟨.label m, scopes⟩ :: es) ks n' l'
  | tree {scopes : List Catch} {n l n' l' : Nat} {ps : List Piece} {es : List Entry}
    {ks : List Catch} {t : Tree} {ls : List Line} (hls : Emit.Writes slots t ls)
    (h : Listed slots scopes n l ps es ks n' l') :
    Listed slots scopes n l (.tree t :: ps) (ls.map (Entry.mk · scopes) ++ es) ks n' l'
  | store {scopes : List Catch} {n l n' l' : Nat} {ps : List Piece} {es : List Entry}
    {ks : List Catch} {v : Var} {s : UInt16} (hv : slots[v.id]? = some s)
    (h : Listed slots scopes n l ps es ks n' l') :
    Listed slots scopes n l (.store v :: ps) (⟨.instruction (.storeEnvironment s), scopes⟩ :: es) ks n' l'
  | none {scopes : List Catch} {n l n' l' : Nat} {ps : List Piece} {es : List Entry}
    {ks : List Catch} (b : UInt16) (h : Listed slots scopes n l ps es ks n' l') :
    Listed slots scopes n l (.goals b [] :: ps) es ks n' l'
  | goal {scopes : List Catch} {n l n' l' : Nat} {ps : List Piece} {es : List Entry}
    {ks : List Catch} {b : UInt16} {g : Goal} {gs : List Goal}
    (h : Listed slots scopes (n + g.ownSlots) (l + g.ownLabels) (g.pieces b n l ++ .goals b gs :: ps)
      es ks n' l') :
    Listed slots scopes n l (.goals b (g :: gs) :: ps) es ks n' l'
  | guarded {scopes : List Catch} {n l n₁ l₁ n₂ l₂ n' l' : Nat} {ps : List Piece}
    {es₁ es₂ es : List Entry} {ks₁ ks₂ ks : List Catch} {k : Catch}
    (hbody : Listed slots (k :: scopes) n l [.goals k.handler.slot k.body] es₁ ks₁ n₁ l₁)
    (hrest : Listed slots scopes n₁ l₁ k.pieces es₂ ks₂ n₂ l₂)
    (h : Listed slots scopes n₂ l₂ ps es ks n' l') :
    Listed slots scopes n l (.guarded k :: ps)
      (⟨.instruction (.saveCut k.handler.slot), scopes⟩ :: ⟨.label k.handler.start, scopes⟩ ::
        (es₁ ++ ⟨.label k.handler.stop, scopes⟩ :: (es₂ ++ es)))
      (ks₁ ++ (ks₂ ++ k :: ks)) n' l'
  | rules {scopes : List Catch} {n l n' l' : Nat} {ps : List Piece} {es : List Entry}
    {ks : List Catch} {pending : Option Nat} {r : Rule} {rest : List Rule}
    (h : Listed slots scopes n (l + Rule.ownLabels rest)
      (Rule.chainPieces l pending rest ++ (r.pieces ++ (Rule.restPieces l rest ++ ps))) es ks n' l') :
    Listed slots scopes n l (.rules pending r rest :: ps) es ks n' l'

namespace Piece

/-- How many slots the goals in a piece take. -/
def slots : Piece → Nat
  | .goals _ gs => Body.slots gs
  | .guarded k => Body.slots k.body + Body.slots k.recovery
  | .rules _ r rest => total ((r :: rest).map fun r => Body.slots r.body)
  | _ => 0

/-- A bound for the pieces that a piece is made of. -/
noncomputable def weight : Piece → Nat
  | .goals _ gs => sizeOf gs
  | .guarded k => sizeOf k.body + sizeOf k.recovery
  | .rules _ r rest => total ((r :: rest).map fun r => sizeOf r.body + 1)
  | _ => 0

end Piece

/-- The variables of the tree have slots. -/
def Slots.Has (slots : Slots) (t : Tree) : Prop :=
  t.Over fun v => ∃ s, slots[v.id]? = some s

/-- The variables of the clause have slots, and its arguments have numbers. -/
structure Slots.HasRule (slots : Slots) (r : Rule) : Prop where
  /-- The variables. -/
  vars : ∀ v ∈ r.vars, ∃ s, slots[v.id]? = some s
  /-- Those of the head. -/
  args : ∀ t ∈ r.args, slots.Has t
  /-- Those of the body. -/
  body : Body.Each slots.Has r.body
  /-- The arguments. -/
  length : r.args.length ≤ 65536

/-- The variables of the piece have slots. -/
def Slots.HasPiece (slots : Slots) : Piece → Prop
  | .instruction _ | .label _ => True
  | .tree t => slots.Has t
  | .store v => ∃ s, slots[v.id]? = some s
  | .goals _ gs => Body.Each slots.Has gs
  | .guarded k => Body.Each slots.Has k.body ∧ slots.Has k.catcher ∧ Body.Each slots.Has k.recovery
  | .rules _ r rest => ∀ r' ∈ r :: rest, slots.HasRule r'

namespace Emit

variable {slots : Slots}

/-- Writes a piece that is no goal `catch/3`. -/
def plain (slots : Slots) : Piece → Emit Unit
  | .instruction i => emit i
  | .label n => place n
  | .tree t => build slots t
  | .store v => do emit (.storeEnvironment (← slot slots v))
  | .goals b gs => body slots b gs
  | .guarded _ => pure ()
  | .rules pending r rest => rules slots (r :: rest) pending

/-- Writes a piece. -/
def piece (slots : Slots) : Piece → Emit Unit
  | .guarded k => do
    emit (.saveCut k.handler.slot)
    place k.handler.start
    body slots k.handler.slot k.body
    place k.handler.stop
    k.pieces.forM (plain slots)
    modify fun e => { e with handlers := e.handlers.push k.handler }
  | p => plain slots p

theorem bind_eq_of_ok {ε σ α β : Type} {x : EStateM ε σ α} {f : α → EStateM ε σ β} {a : α} {s s' : σ}
    (h : x s = .ok a s') : (x >>= f) s = f a s' := by
  simp only [bind, EStateM.bind, h]

theorem reserve_eq {e : Emitter} (h : e.nextSlot ≤ e.lastSlot) :
    reserve e = .ok (.ofNat e.nextSlot) { e with nextSlot := e.nextSlot + 1 } := by
  have hget : (get : Emit Emitter) e = .ok e e := rfl
  rw [reserve, bind_eq_of_ok hget, if_pos h]
  rfl

/-- A goal takes its slots and labels and is written in its pieces. -/
theorem goal_eq (b : UInt16) (g : Goal) {e : Emitter} (h : e.nextSlot + g.ownSlots ≤ e.lastSlot + 1) :
    goal slots b g e = (g.pieces b e.nextSlot e.nextLabel).forM (piece slots)
      { e with nextSlot := e.nextSlot + g.ownSlots, nextLabel := e.nextLabel + g.ownLabels } := by
  cases g with
  | callVar v =>
    rw [goal, Goal.pieces]
    simp only [List.forM_eq_forM, List.forM_cons, List.forM_nil, piece, plain, build, Tree.postorder_eq,
      Tree.nodes, node, bind_assoc, bind_pure_unit]
    rfl
  | succeed => rw [goal]; rfl
  | fail => rw [goal]; rfl
  | cut => rw [goal]; rfl
  | either x y => rw [goal]; rfl
  | ifThenElse x y z =>
    rw [goal, bind_eq_of_ok (reserve_eq (Nat.le_of_lt_succ h))]
    rfl
  | ifThen x y =>
    rw [goal, bind_eq_of_ok (reserve_eq (Nat.le_of_lt_succ h))]
    rfl
  | negation x =>
    rw [goal, bind_eq_of_ok (reserve_eq (Nat.le_of_lt_succ h))]
    rfl
  | unify s t => rw [goal]; rfl
  | raise t => rw [goal]; rfl
  | guard x catcher y =>
    have hball : e.nextSlot ≤ e.lastSlot := by rw [Goal.ownSlots] at h; omega
    have hinner : e.nextSlot + 1 ≤ e.lastSlot := Nat.le_of_lt_succ h
    rw [goal, bind_eq_of_ok (reserve_eq hball), bind_eq_of_ok (reserve_eq hinner)]
    simp only [Goal.pieces, List.forM_eq_forM, List.forM_cons, List.forM_nil, piece, plain, Catch.pieces,
      bind_assoc, bind_pure_unit]
    rfl
  | call tag args =>
    rw [goal, Goal.pieces]
    simp only [List.forM_eq_forM, List.forM_append, List.forM_map, List.forM_cons, List.forM_nil, piece,
      plain, bind_pure_unit]
    rfl

theorem headArguments_eq : ∀ (n : Nat) (args : List (Tree × Option Var)), n + args.length ≤ 65536 →
    headArguments slots n args = (Rule.argumentPieces n args).forM (piece slots)
  | n, [], _ => by rw [headArguments]; rfl
  | n, (t, direct) :: args, h => by
    rw [List.length_cons] at h
    rw [headArguments, if_neg (by omega), headArguments_eq (n + 1) args (by omega)]
    cases direct <;>
      simp only [Rule.argumentPieces, List.forM_eq_forM, List.forM_cons, piece, plain, bind_assoc]

theorem slot_eq {v : Var} {n : UInt16} (h : slots[v.id]? = some n) : slot slots v = pure n := by
  rw [slot, h]

theorem makeVariables_eq (r : Rule) (h : ∀ v ∈ r.vars, ∃ s, slots[v.id]? = some s) :
    makeVariables slots (Rule.directArguments r.args ∅) r.vars =
      (r.created.flatMap fun v => [.instruction .createVariable, .store v]).forM (piece slots) := by
  rw [makeVariables, Rule.created]
  generalize storedVariables (Rule.directArguments r.args ∅) = stored
  generalize r.vars = vs at h ⊢
  induction vs with
  | nil => rfl
  | cons v vs ih =>
    obtain ⟨n, hn⟩ := h v (.head vs)
    have ih := ih fun w hw => h w (.tail v hw)
    rw [List.forM_eq_forM, List.forM_eq_forM] at ih ⊢
    rw [List.forM_cons, ih, List.filter_cons]
    cases stored.contains v.id with
    | true => rfl
    | false =>
      simp only [Bool.not_false, if_true, List.flatMap_cons, List.cons_append, List.nil_append,
        List.forM_cons, piece, plain, slot_eq hn, bind_assoc, pure_bind]

/-- A clause is written in its pieces. -/
theorem rule_eq (r : Rule) (h : slots.HasRule r) : rule slots r = r.pieces.forM (piece slots) := by
  have hlength : 0 + (r.args.zip (Rule.directArguments r.args ∅)).length ≤ 65536 := by
    have := h.length
    rw [List.length_zip]
    omega
  rw [rule, headArguments_eq 0 _ hlength, makeVariables_eq r h.vars]
  simp only [Rule.pieces, List.forM_eq_forM, List.forM_append, List.forM_cons, List.forM_nil, piece, plain,
    bind_pure_unit]

theorem rules_nil (pending : Option Nat) : rules slots [] pending = pure () := by
  rw [rules]

/-- Clauses are written one after the other. -/
theorem rules_eq (pending : Option Nat) (r : Rule) (rest : List Rule) (h : slots.HasRule r) (e : Emitter) :
    rules slots (r :: rest) pending e = (Rule.chainPieces e.nextLabel pending rest ++
      (r.pieces ++ Rule.restPieces e.nextLabel rest)).forM (piece slots)
        { e with nextLabel := e.nextLabel + Rule.ownLabels rest } := by
  cases pending <;> cases rest <;> rw [rules, rule_eq r h] <;>
    simp only [Rule.chainPieces, Rule.restPieces, List.forM_eq_forM, List.forM_append, List.forM_cons,
      List.forM_nil, piece, plain, rules_nil, bind_assoc, bind_pure_unit, pure_bind] <;> rfl

theorem exists_node {x : Node} (h : ∀ v, x = .var v → ∃ s, slots[v.id]? = some s) (e : Emitter) :
    ∃ e', node slots x e = .ok () e' := by
  cases x with
  | var v =>
    obtain ⟨n, hn⟩ := h v rfl
    exact ⟨_, by rw [node, slot_eq hn]; rfl⟩
  | const c => exact ⟨_, rfl⟩
  | functor tag arity =>
    have hget : (get : Emit Emitter) e = .ok e e := rfl
    rw [node, bind_eq_of_ok hget]
    cases lastConstants? e.lines arity <;> exact ⟨_, rfl⟩

/-- A tree is built if its variables have slots. -/
theorem exists_build {t : Tree} (h : slots.Has t) (e : Emitter) : ∃ e', build slots t e = .ok () e' := by
  have hnodes : ∀ (xs : List Node) (e : Emitter), (∀ v, .var v ∈ xs → ∃ s, slots[v.id]? = some s) →
      ∃ e', xs.forM (node slots) e = .ok () e' := by
    intro xs
    induction xs with
    | nil => exact fun e _ => ⟨e, rfl⟩
    | cons x xs ih =>
      intro e hxs
      obtain ⟨e₁, h₁⟩ := exists_node (fun v hv => hxs v (hv ▸ .head _)) e
      obtain ⟨e', h'⟩ := ih e₁ fun v hv => hxs v (.tail _ hv)
      exact ⟨e', (bind_eq_of_ok h₁).trans h'⟩
  rw [build, Tree.postorder_eq]
  exact hnodes _ e h

/-- What is listed for pieces has been written between two states of the pass. -/
structure Lists (slots : Slots) (scopes : List Catch) (e : Emitter) (ps : List Piece) (es : List Entry)
    (ks : List Catch) (e' : Emitter) : Prop where
  /-- The listing. -/
  listed : Listed slots scopes e.nextSlot e.nextLabel ps es ks e'.nextSlot e'.nextLabel
  /-- The lines. -/
  lines : e'.lines.toList = e.lines.toList ++ es.map Entry.line
  /-- The handlers. -/
  handlers : e'.handlers.toList = e.handlers.toList ++ ks.map Catch.handler
  /-- The last slot is kept. -/
  lastSlot : e'.lastSlot = e.lastSlot

variable {scopes : List Catch} {e e₁ e' : Emitter} {p : Piece} {ps : List Piece} {es : List Entry}
  {ks : List Catch} {ls : List Line}

theorem wrote_place (n : Nat) (e : Emitter) :
    Wrote e { e with lines := e.lines.push (.label n) } [.label n] :=
  ⟨by simp, rfl⟩

/-- Lines that are written for a piece. -/
theorem Lists.wrote (hw : Wrote e e₁ ls) (h : Lists slots scopes e₁ ps es ks e')
    (hlisted : ∀ {n l n' l' : Nat}, Listed slots scopes n l ps es ks n' l' →
      Listed slots scopes n l (p :: ps) (ls.map (Entry.mk · scopes) ++ es) ks n' l') :
    Lists slots scopes e (p :: ps) (ls.map (Entry.mk · scopes) ++ es) ks e' := by
  have hstill := hw.still
  refine ⟨?_, ?_, ?_, h.lastSlot.trans hstill.lastSlot⟩
  · rw [← hstill.nextSlot, ← hstill.nextLabel]
    exact hlisted h.listed
  · rw [h.lines, hw.lines, List.append_assoc, List.map_append, List.map_map]
    simp [Function.comp_def]
  · rw [h.handlers, hw.rest]

end Emit

theorem total_replicate_zero (n : Nat) : total (List.replicate n 0) = 0 := by
  induction n with
  | zero => rfl
  | succ n ih => rw [List.replicate_succ, total_cons, ih]

/-- The slots of a goal are its own and those of the goals inside it. -/
theorem total_slots_pieces (b : UInt16) (n l : Nat) (g : Goal) :
    g.ownSlots + total ((g.pieces b n l).map Piece.slots) = g.slots := by
  cases g <;> simp [Goal.pieces, Goal.ownSlots, Goal.slots, Piece.slots, Function.comp_def,
    total_replicate_zero] <;> omega

theorem sizeOf_pos (gs : List Goal) : 0 < sizeOf gs := by
  cases gs with
  | nil => decide
  | cons g gs =>
    rw [List.cons.sizeOf_spec]
    omega

theorem total_weight_pieces (b : UInt16) (n l : Nat) (g : Goal) :
    total ((g.pieces b n l).map Piece.weight) < sizeOf g := by
  cases g <;> simp [Goal.pieces, Piece.weight, Function.comp_def, total_replicate_zero] <;> omega

namespace Slots

variable {slots : Slots}

theorem hasPiece_goal (b : UInt16) (n l : Nat) {g : Goal} (h : g.Each slots.Has) :
    ∀ p ∈ g.pieces b n l, slots.HasPiece p := by
  cases g with
  | callVar v =>
    have hv : slots.Has (.var v) := Tree.Over.arg h (List.mem_singleton_self _)
    simp [Goal.pieces, HasPiece, hv]
  | call tag args =>
    intro p hp
    rw [Goal.pieces, List.mem_append, List.mem_map, List.mem_singleton] at hp
    obtain ⟨t, ht, rfl⟩ | rfl := hp
    · exact Tree.Over.arg h ht
    · trivial
  | _ => simp_all [Goal.pieces, HasPiece, Goal.Each]

theorem hasPiece_catch {k : Catch} (hcatcher : slots.Has k.catcher)
    (hrecovery : Body.Each slots.Has k.recovery) : ∀ p ∈ k.pieces, slots.HasPiece p := by
  simp [Catch.pieces, HasPiece, hcatcher, hrecovery]

/-- An argument that is stored directly is a variable. -/
theorem eq_var_of_direct : ∀ {args : List Tree} {seen : Std.TreeMap Nat Unit} {t : Tree} {v : Var},
    (t, some v) ∈ args.zip (Rule.directArguments args seen) → t = .var v
  | [], _, _, _, h => by cases h
  | arg :: args, seen, t, v, h => by
    simp only [Rule.directArguments, List.zip_cons_cons, List.mem_cons, Prod.mk.injEq] at h
    obtain ⟨rfl, hv⟩ | h := h
    · cases t with
      | var w =>
        simp only at hv
        split at hv
        · cases hv
        · rw [Option.some.inj hv]
      | _ => cases hv
    · exact eq_var_of_direct h

theorem hasPiece_arguments : ∀ {args : List (Tree × Option Var)} {n : Nat},
    (∀ x ∈ args, slots.Has x.1 ∧ ∀ v, x.2 = some v → ∃ s, slots[v.id]? = some s) →
    ∀ p ∈ Rule.argumentPieces n args, slots.HasPiece p
  | [], _, _ => by simp [Rule.argumentPieces]
  | (t, some v) :: args, n, h => by
    rw [List.forall_mem_cons] at h
    simp only [Rule.argumentPieces, List.forall_mem_cons]
    exact ⟨trivial, h.1.2 v rfl, hasPiece_arguments h.2⟩
  | (t, none) :: args, n, h => by
    rw [List.forall_mem_cons] at h
    simp only [Rule.argumentPieces, List.forall_mem_cons]
    exact ⟨trivial, h.1.1, trivial, hasPiece_arguments h.2⟩

theorem hasPiece_rule {r : Rule} (h : slots.HasRule r) : ∀ p ∈ r.pieces, slots.HasPiece p := by
  intro p hp
  rw [Rule.pieces, List.mem_append, List.mem_append] at hp
  obtain hp | hp | hp := hp
  · obtain ⟨v, hv, hp⟩ := List.mem_flatMap.mp hp
    have hslot := h.vars v (List.mem_of_mem_filter hv)
    simp only [List.mem_cons, List.not_mem_nil, or_false] at hp
    obtain rfl | rfl := hp
    · trivial
    · exact hslot
  · refine hasPiece_arguments (fun x hx => ?_) p hp
    have hargs := h.args x.1 (List.of_mem_zip hx).1
    refine ⟨hargs, fun v hv => hargs v ?_⟩
    obtain ⟨t, direct⟩ := x
    obtain rfl : direct = some v := hv
    rw [eq_var_of_direct hx, Tree.nodes]
    exact List.mem_singleton_self _
  · simp only [List.mem_cons, List.not_mem_nil, or_false] at hp
    obtain rfl | rfl := hp
    · exact h.body
    · trivial

theorem hasPiece_chain (l : Nat) {pending : Option Nat} {rest : List Rule} :
    ∀ p ∈ Rule.chainPieces l pending rest, slots.HasPiece p := by
  cases pending <;> cases rest <;> simp [Rule.chainPieces, HasPiece]

theorem hasPiece_rest {l : Nat} {rest : List Rule} (h : ∀ r ∈ rest, slots.HasRule r) :
    ∀ p ∈ Rule.restPieces l rest, slots.HasPiece p := by
  cases rest with
  | nil => simp [Rule.restPieces]
  | cons r rest =>
    rw [Rule.restPieces, List.forall_mem_singleton]
    exact h

end Slots

/-! ### Slots that are taken -/

/-- The piece refers to no label and has no goals in it, and it writes no slot but that of a variable. -/
def Piece.Plain : Piece → Prop
  | .instruction i => i.place? = none ∧ i.setSlot? = none
  | .tree _ | .store _ => True
  | _ => False

theorem plain_arguments (n : Nat) (args : List (Tree × Option Var)) :
    ∀ p ∈ Rule.argumentPieces n args, p.Plain := by
  induction args generalizing n with
  | nil => exact fun p hp => absurd hp List.not_mem_nil
  | cons x args ih =>
    obtain ⟨t, _ | v⟩ := x
    · exact List.forall_mem_cons.mpr ⟨⟨rfl, rfl⟩, List.forall_mem_cons.mpr ⟨trivial,
        List.forall_mem_cons.mpr ⟨⟨rfl, rfl⟩, ih (n + 1)⟩⟩⟩
    · exact List.forall_mem_cons.mpr ⟨⟨rfl, rfl⟩, List.forall_mem_cons.mpr ⟨trivial, ih (n + 1)⟩⟩

/-- In front of the goals of a clause there are plain pieces. -/
theorem exists_front (r : Rule) : ∃ front, r.pieces = front ++ [.goals 0 r.body, .instruction .leave] ∧
    ∀ p ∈ front, p.Plain := by
  refine ⟨_, (List.append_assoc ..).symm, List.forall_mem_append.mpr ⟨fun p hp => ?_, plain_arguments _ _⟩⟩
  obtain ⟨v, -, hp⟩ := List.mem_flatMap.mp hp
  obtain rfl | hp := List.mem_cons.mp hp
  · exact ⟨rfl, rfl⟩
  · exact List.mem_singleton.mp hp ▸ trivial

/-- A measure of pieces that counts nothing of what is plain is that of the goals. -/
theorem total_rule {f : Piece → Nat} (hf : ∀ p, p.Plain → f p = 0) (r : Rule) :
    total (r.pieces.map f) = f (.goals 0 r.body) := by
  obtain ⟨front, hfront, hplain⟩ := exists_front r
  have hzero : total (front.map f) = 0 := by
    rw [List.map_congr_left fun p hp => hf p (hplain p hp), List.map_const', total_replicate_zero]
  rw [hfront, List.map_append, total_append, hzero]
  simp [hf (.instruction .leave) ⟨rfl, rfl⟩]

theorem Piece.Plain.slots_eq : ∀ {p : Piece}, p.Plain → p.slots = 0
  | .instruction _, _ | .tree _, _ | .store _, _ => rfl

theorem Piece.Plain.weight_eq : ∀ {p : Piece}, p.Plain → p.weight = 0
  | .instruction _, _ | .tree _, _ | .store _, _ => rfl

theorem total_slots_catch (k : Catch) : total (k.pieces.map Piece.slots) = Body.slots k.recovery := by
  simp [Catch.pieces, Piece.slots]

theorem total_weight_catch (k : Catch) : total (k.pieces.map Piece.weight) = sizeOf k.recovery := by
  simp [Catch.pieces, Piece.weight]

theorem total_slots_chain (l : Nat) (pending : Option Nat) (rest : List Rule) :
    total ((Rule.chainPieces l pending rest).map Piece.slots) = 0 := by
  cases pending <;> cases rest <;> rfl

theorem total_weight_chain (l : Nat) (pending : Option Nat) (rest : List Rule) :
    total ((Rule.chainPieces l pending rest).map Piece.weight) = 0 := by
  cases pending <;> cases rest <;> rfl

theorem total_slots_rest (l : Nat) (rest : List Rule) :
    total ((Rule.restPieces l rest).map Piece.slots) = total (rest.map fun r => Body.slots r.body) := by
  cases rest <;> simp [Rule.restPieces, Piece.slots]

theorem total_weight_rest (l : Nat) (rest : List Rule) : total ((Rule.restPieces l rest).map Piece.weight) =
    total (rest.map fun r => sizeOf r.body + 1) := by
  cases rest <;> simp [Rule.restPieces, Piece.weight]

/-- As many slots are taken as the goals in the pieces need. -/
theorem Listed.slots_eq {slots : Slots} {scopes : List Catch} {n l n' l' : Nat} {ps : List Piece}
    {es : List Entry} {ks : List Catch} (h : Listed slots scopes n l ps es ks n' l') :
    n' = n + total (ps.map Piece.slots) := by
  induction h with
  | nil => rfl
  | instruction | label | tree | store => simpa [Piece.slots]
  | none => simpa [Piece.slots, Body.slots]
  | @goal scopes n l n' l' ps es ks b g gs _ ih =>
    have hg := total_slots_pieces b n l g
    simp only [List.map_append, List.map_cons, total_append, total_cons, Piece.slots, Body.slots] at ih ⊢
    omega
  | @guarded scopes n l n₁ l₁ n₂ l₂ n' l' ps es₁ es₂ es ks₁ ks₂ ks k _ _ _ ihbody ihrest ih =>
    rw [total_slots_catch] at ihrest
    simp only [List.map_cons, List.map_nil, total_cons, total_nil, Piece.slots] at ihbody ihrest ih ⊢
    omega
  | rules _ ih =>
    rw [List.map_append, List.map_append, List.map_append, total_append, total_append, total_append,
      total_slots_chain, total_rule fun _ => Piece.Plain.slots_eq, total_slots_rest] at ih
    simp only [List.map_cons, total_cons, Piece.slots] at ih ⊢
    omega

/-! ### Writing pieces -/

namespace Emit

variable {slots : Slots} {scopes : List Catch} {e e₁ e' : Emitter} {p : Piece} {ps : List Piece}
  {ls : List Line}

/-- The pieces are written as they are listed. -/
def Writable (slots : Slots) (scopes : List Catch) (ps : List Piece) (e : Emitter) : Prop :=
  ∃ e', ps.forM (piece slots) e = .ok () e' ∧ ∃ es ks, Lists slots scopes e ps es ks e'

/-- A piece that is written as lines, in front of others. -/
theorem Writable.wrote (hp : piece slots p e = .ok () e₁) (hw : Wrote e e₁ ls)
    (h : Writable slots scopes ps e₁)
    (hlisted : ∀ {n l n' l' : Nat} {es : List Entry} {ks : List Catch},
      Listed slots scopes n l ps es ks n' l' →
      Listed slots scopes n l (p :: ps) (ls.map (Entry.mk · scopes) ++ es) ks n' l') :
    Writable slots scopes (p :: ps) e := by
  obtain ⟨e', hrun, es, ks, h⟩ := h
  exact ⟨e', (bind_eq_of_ok hp).trans hrun, _, _, h.wrote hw hlisted⟩

theorem bind_congr_state {ε σ α β : Type} {x y : EStateM ε σ α} {f : α → EStateM ε σ β} {s s' : σ}
    (h : x s = y s') : (x >>= f) s = (y >>= f) s' := by
  simp only [bind, EStateM.bind, h]

theorem forM_goals (b : UInt16) (g : Goal) (gs : List Goal) (ps : List Piece)
    (h : e.nextSlot + g.ownSlots ≤ e.lastSlot + 1) :
    (Piece.goals b (g :: gs) :: ps).forM (piece slots) e =
      (g.pieces b e.nextSlot e.nextLabel ++ .goals b gs :: ps).forM (piece slots)
        { e with nextSlot := e.nextSlot + g.ownSlots, nextLabel := e.nextLabel + g.ownLabels } := by
  have hgoal : goal slots b g e = _ := goal_eq b g h
  simp only [List.forM_eq_forM] at hgoal ⊢
  simp only [List.forM_append, List.forM_cons, piece, plain, body, bind_assoc]
  exact bind_congr_state hgoal

theorem forM_catch (k : Catch) : k.pieces.forM (plain slots) = k.pieces.forM (piece slots) :=
  rfl

theorem forM_rules (pending : Option Nat) (r : Rule) (rest : List Rule) (ps : List Piece)
    (h : slots.HasRule r) : (Piece.rules pending r rest :: ps).forM (piece slots) e =
      (Rule.chainPieces e.nextLabel pending rest ++
        (r.pieces ++ (Rule.restPieces e.nextLabel rest ++ ps))).forM (piece slots)
        { e with nextLabel := e.nextLabel + Rule.ownLabels rest } := by
  have hrules := rules_eq pending r rest h e
  simp only [List.forM_eq_forM] at hrules ⊢
  rw [← List.append_assoc r.pieces, ← List.append_assoc, List.forM_append]
  simp only [List.forM_cons, piece, plain]
  exact bind_congr_state hrules

/-- There is room for the goals in the pieces. -/
def Room (ps : List Piece) (e : Emitter) : Prop :=
  e.nextSlot + total (ps.map Piece.slots) ≤ e.lastSlot + 1

/-- A goal is written in its pieces. -/
theorem Writable.goal {b : UInt16} {g : Goal} {gs : List Goal}
    (hpieces : ∀ e : Emitter, Room (g.pieces b e.nextSlot e.nextLabel ++ .goals b gs :: ps)
      { e with nextSlot := e.nextSlot + g.ownSlots, nextLabel := e.nextLabel + g.ownLabels } →
      Writable slots scopes (g.pieces b e.nextSlot e.nextLabel ++ .goals b gs :: ps)
        { e with nextSlot := e.nextSlot + g.ownSlots, nextLabel := e.nextLabel + g.ownLabels })
    (hroom : Room (.goals b (g :: gs) :: ps) e) :
    Writable slots scopes (.goals b (g :: gs) :: ps) e := by
  have hown := total_slots_pieces b e.nextSlot e.nextLabel g
  simp only [Room, List.map_cons, total_cons, Piece.slots, Body.slots] at hroom
  obtain ⟨e', hrun, es, ks, h⟩ := hpieces e (by
    simp only [Room, List.map_append, List.map_cons, total_append, total_cons, Piece.slots]
    omega)
  exact ⟨e', (forM_goals b g gs ps (by omega)).trans hrun, es, ks, .goal h.listed, h.lines, h.handlers,
    h.lastSlot⟩

/-- The first argument of a goal `catch/3` is written between the labels of the range, and the rest
behind it. -/
theorem Writable.guarded {k : Catch}
    (hbody : ∀ e : Emitter, Room [.goals k.handler.slot k.body] e →
      Writable slots (k :: scopes) [.goals k.handler.slot k.body] e)
    (hrest : ∀ e : Emitter, Room k.pieces e → Writable slots scopes k.pieces e)
    (hps : ∀ e : Emitter, Room ps e → Writable slots scopes ps e) (hroom : Room (.guarded k :: ps) e) :
    Writable slots scopes (.guarded k :: ps) e := by
  simp only [Room, List.map_cons, List.map_nil, total_cons, total_nil, Piece.slots, total_slots_catch]
    at hbody hrest hps hroom
  obtain ⟨e₁, hrun₁, es₁, ks₁, h₁⟩ := hbody
    { e with lines :=
        (e.lines.push (.instruction (.saveCut k.handler.slot))).push (.label k.handler.start) }
    (by show e.nextSlot + _ ≤ e.lastSlot + 1; omega)
  have hslots₁ : e₁.nextSlot = e.nextSlot + (Body.slots k.body + 0) := h₁.listed.slots_eq
  have hlast₁ : e₁.lastSlot = e.lastSlot := h₁.lastSlot
  obtain ⟨e₂, hrun₂, es₂, ks₂, h₂⟩ := hrest { e₁ with lines := e₁.lines.push (.label k.handler.stop) }
    (by show e₁.nextSlot + _ ≤ e₁.lastSlot + 1; omega)
  have hslots₂ : e₂.nextSlot = e₁.nextSlot + _ := h₂.listed.slots_eq.trans (by rw [total_slots_catch])
  have hlast₂ : e₂.lastSlot = e₁.lastSlot := h₂.lastSlot
  obtain ⟨e', hrun, es, ks, h⟩ := hps { e₂ with handlers := e₂.handlers.push k.handler }
    (by show e₂.nextSlot + _ ≤ e₂.lastSlot + 1; omega)
  rw [List.forM_eq_forM, List.forM_cons, List.forM_nil, bind_pure_unit] at hrun₁
  rw [← forM_catch] at hrun₂
  refine ⟨e', ?_, _, _, .guarded h₁.listed h₂.listed h.listed, ?_, ?_, ?_⟩
  · rw [List.forM_eq_forM, List.forM_cons]
    refine (bind_eq_of_ok (a := ()) ?_).trans hrun
    exact (bind_eq_of_ok hrun₁).trans (bind_eq_of_ok hrun₂)
  · rw [h.lines, h₂.lines, Array.toList_push, h₁.lines]
    simp
  · rw [h.handlers, Array.toList_push, h₂.handlers, h₁.handlers]
    simp
  · exact h.lastSlot.trans (hlast₂.trans hlast₁)

/-- Clauses are written one after the other. -/
theorem Writable.rules {pending : Option Nat} {r : Rule} {rest : List Rule} (hr : slots.HasRule r)
    (hpieces : ∀ e : Emitter, Room (Rule.chainPieces e.nextLabel pending rest ++
        (r.pieces ++ (Rule.restPieces e.nextLabel rest ++ ps)))
        { e with nextLabel := e.nextLabel + Rule.ownLabels rest } →
      Writable slots scopes (Rule.chainPieces e.nextLabel pending rest ++
        (r.pieces ++ (Rule.restPieces e.nextLabel rest ++ ps)))
        { e with nextLabel := e.nextLabel + Rule.ownLabels rest })
    (hroom : Room (.rules pending r rest :: ps) e) :
    Writable slots scopes (.rules pending r rest :: ps) e := by
  simp only [Room, List.map_cons, total_cons, Piece.slots] at hroom
  obtain ⟨e', hrun, es, ks, h⟩ := hpieces e (by
    simp only [Room, List.map_append, total_append, total_slots_chain,
      total_rule fun _ => Piece.Plain.slots_eq, total_slots_rest, Piece.slots]
    omega)
  exact ⟨e', (forM_rules pending r rest ps hr).trans hrun, es, ks, .rules h.listed, h.lines, h.handlers,
    h.lastSlot⟩

/-- The second pass writes what is listed for pieces, and it does not fail, if every variable in them
has a slot and there is room for their goals. -/
theorem writable : ∀ (ps : List Piece) (scopes : List Catch) (e : Emitter),
    (∀ p ∈ ps, slots.HasPiece p) → Room ps e → Writable slots scopes ps e
  | [], scopes, e, _, _ => ⟨e, rfl, [], [], .nil .., by simp, by simp, rfl⟩
  | .instruction i :: ps, scopes, e, hps, hroom => by
    rw [List.forall_mem_cons] at hps
    refine .wrote rfl (wrote_emit i e) (writable ps scopes _ hps.2 ?_) (.instruction i)
    simpa [Room, Piece.slots] using hroom
  | .label m :: ps, scopes, e, hps, hroom => by
    rw [List.forall_mem_cons] at hps
    refine .wrote rfl (wrote_place m e) (writable ps scopes _ hps.2 ?_) (.label m)
    simpa [Room, Piece.slots] using hroom
  | .tree t :: ps, scopes, e, hps, hroom => by
    rw [List.forall_mem_cons] at hps
    obtain ⟨e₁, h₁⟩ := exists_build hps.1 e
    obtain ⟨ls, hw, hls⟩ := writes_of_build h₁
    refine .wrote h₁ hw (writable ps scopes e₁ hps.2 ?_) (.tree hls)
    rw [Room, hw.still.nextSlot, hw.still.lastSlot]
    simpa [Room, Piece.slots] using hroom
  | .store v :: ps, scopes, e, hps, hroom => by
    rw [List.forall_mem_cons] at hps
    obtain ⟨n, hn⟩ := hps.1
    have h₁ : piece slots (.store v) e = emit (.storeEnvironment n) e := by
      simp only [piece, plain, slot_eq hn, pure_bind]
    refine .wrote (h₁.trans rfl) (wrote_emit _ e) (writable ps scopes _ hps.2 ?_) (.store hn)
    simpa [Room, Piece.slots] using hroom
  | .goals b [] :: ps, scopes, e, hps, hroom => by
    rw [List.forall_mem_cons] at hps
    obtain ⟨e', hrun, es, ks, h⟩ := writable ps scopes e hps.2
      (by simpa [Room, Piece.slots, Body.slots] using hroom)
    exact ⟨e', hrun, es, ks, .none b h.listed, h.lines, h.handlers, h.lastSlot⟩
  | .goals b (g :: gs) :: ps, scopes, e, hps, hroom => by
    rw [List.forall_mem_cons] at hps
    obtain ⟨hg, hgs⟩ : g.Each slots.Has ∧ Body.Each slots.Has gs := hps.1
    refine .goal (fun e => writable _ scopes _ fun p hp => ?_) hroom
    obtain hp | hp := List.mem_append.mp hp
    · exact slots.hasPiece_goal b _ _ hg p hp
    obtain rfl | hp := List.mem_cons.mp hp
    · exact hgs
    · exact hps.2 p hp
  | .guarded k :: ps, scopes, e, hps, hroom => by
    rw [List.forall_mem_cons] at hps
    obtain ⟨hbody, hcatcher, hrecovery⟩ := hps.1
    exact .guarded (fun e => writable [.goals k.handler.slot k.body] (k :: scopes) e 
        (List.forall_mem_singleton.mpr hbody))
      (fun e => writable k.pieces scopes e (slots.hasPiece_catch hcatcher hrecovery))
      (fun e => writable ps scopes e hps.2) hroom
  | .rules pending r rest :: ps, scopes, e, hps, hroom => by
    rw [List.forall_mem_cons] at hps
    obtain ⟨hr, hrest⟩ := List.forall_mem_cons.mp hps.1
    refine .rules hr (fun e => writable _ scopes _ fun p hp => ?_) hroom
    rw [List.mem_append, List.mem_append, List.mem_append] at hp
    obtain hp | hp | hp | hp := hp
    · exact slots.hasPiece_chain _ p hp
    · exact slots.hasPiece_rule hr p hp
    · exact slots.hasPiece_rest hrest p hp
    · exact hps.2 p hp
termination_by ps => (total (ps.map Piece.weight), ps.length)
decreasing_by
  all_goals
    simp only [Prod.lex_def, List.map_cons, List.map_append, List.map_nil, total_cons, total_append,
      total_nil, total_weight_catch, total_weight_chain, total_rule fun _ => Piece.Plain.weight_eq,
      total_weight_rest, Piece.weight, List.length_cons, List.cons.sizeOf_spec]
  any_goals omega
  · have hg := total_weight_pieces b e.nextSlot e.nextLabel g
    omega
  · have hrecovery := sizeOf_pos k.recovery
    omega
  · have hbody := sizeOf_pos k.body
    omega

end Emit

end Program

end Resolvent
