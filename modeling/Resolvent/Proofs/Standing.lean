import Resolvent.Proofs.Building

/-!
# Code of goals

`Goal.Stands` says that the code of a goal stands in a chunk between two offsets. It is read off the
second pass of the compiler with the labels replaced by the offsets they are placed at, so it is a
statement about packed code, and it follows the goals: the code of a goal is made of the code of its
parts and of the instructions around them.

A goal also takes slots: those from `n` up to `n'` are set apart for its barriers and balls.
-/

namespace Resolvent

namespace Chunk

/-- The instruction, its place given by an offset, is read at `pc`; the one behind it stands at
`next`, and balls thrown at it go to `h`. -/
structure Stands (c : Chunk) (h : Option Handler) (pc : Nat) (i : Instruction Term Tag Nat)
    (next : Nat) : Prop where
  /-- It is read there. -/
  fetch : ∃ j, c.fetch pc = .ok (j, next) ∧ c.Packs (fun o a => a.toNat = o) i j
  /-- Balls go to the handler. -/
  handler : c.handlerFor? pc = h

mutual

/-- The code between the offsets pushes the tree. -/
inductive Builds (c : Chunk) (slots : Program.Slots) (h : Option Handler) :
    Tree → Nat → Nat → Prop where
  | var {v : Var} {n : UInt16} {pc next : Nat} (hn : slots[v.id]? = some n)
      (hi : c.Stands h pc (.pushEnvironment n) next) : Builds c slots h (.var v) pc next
  | constant {t : Term} {pc next : Nat} (ht : t.Ground)
      (hi : c.Stands h pc (.pushConstant t) next) : Builds c slots h t.erase pc next
  | compound {tag : Tag} {args : List Tree} {pc pc₁ next : Nat}
      (hargs : BuildsAll c slots h args pc pc₁)
      (hi : c.Stands h pc₁ (.createCompound tag) next) :
      Builds c slots h (.compound tag args) pc next

/-- The code between the offsets pushes the trees, one after the other. -/
inductive BuildsAll (c : Chunk) (slots : Program.Slots) (h : Option Handler) :
    List Tree → Nat → Nat → Prop where
  | nil {pc : Nat} : BuildsAll c slots h [] pc pc
  | cons {t : Tree} {ts : List Tree} {pc pc₁ next : Nat} (ht : Builds c slots h t pc pc₁)
      (hts : BuildsAll c slots h ts pc₁ next) : BuildsAll c slots h (t :: ts) pc next

end

end Chunk

mutual

/-- The code of the goal stands from `pc` to `pc'`, and takes the slots from `n` up to `n'`; `!` in
it cuts to the barrier in slot `b`, and balls thrown in it go to `h`. -/
def Goal.Stands (c : Chunk) (slots : Program.Slots) (h : Option Chunk.Handler) (b : UInt16) :
    Goal → (pc n pc' n' : Nat) → Prop
  | .callVar v, pc, n, pc', n' => n' = n ∧ ∃ s pc₁, slots[v.id]? = some s ∧
    c.Stands h pc (.pushEnvironment s) pc₁ ∧ c.Stands h pc₁ (.call (.call 0)) pc'
  | .succeed, pc, n, pc', n' => n' = n ∧ c.Stands h pc .succeed pc'
  | .fail, pc, n, pc', n' => n' = n ∧ c.Stands h pc .fail pc'
  | .cut, pc, n, pc', n' => n' = n ∧ c.Stands h pc (.cut b) pc'
  | .either x y, pc, n, pc', n' => ∃ pc₁ pc₂ pc₃ pc₄ n₁,
    c.Stands h pc (.tryMeElse pc₃) pc₁ ∧ Body.Stands c slots h b x pc₁ n pc₂ n₁ ∧
    c.Stands h pc₂ (.jump pc') pc₃ ∧ c.Stands h pc₃ .trustMe pc₄ ∧
    Body.Stands c slots h b y pc₄ n₁ pc' n'
  | .ifThenElse x y z, pc, n, pc', n' => ∃ (s : UInt16) (pc₁ pc₂ pc₃ pc₄ pc₅ pc₆ pc₇ pc₈ n₁ n₂ : Nat),
    s.toNat = n ∧ c.Stands h pc (.tryMeElse pc₇) pc₁ ∧ c.Stands h pc₁ (.saveCut s) pc₂ ∧
    Body.Stands c slots h s x pc₂ (n + 1) pc₃ n₁ ∧ c.Stands h pc₃ (.cut s) pc₄ ∧
    c.Stands h pc₄ .trustMe pc₅ ∧ Body.Stands c slots h b y pc₅ n₁ pc₆ n₂ ∧
    c.Stands h pc₆ (.jump pc') pc₇ ∧ c.Stands h pc₇ .trustMe pc₈ ∧
    Body.Stands c slots h b z pc₈ n₂ pc' n'
  | .ifThen x y, pc, n, pc', n' => ∃ (s : UInt16) (pc₁ pc₂ pc₃ pc₄ pc₅ pc₆ pc₇ pc₈ n₁ : Nat),
    s.toNat = n ∧ c.Stands h pc (.tryMeElse pc₇) pc₁ ∧ c.Stands h pc₁ (.saveCut s) pc₂ ∧
    Body.Stands c slots h s x pc₂ (n + 1) pc₃ n₁ ∧ c.Stands h pc₃ (.cut s) pc₄ ∧
    c.Stands h pc₄ .trustMe pc₅ ∧ Body.Stands c slots h b y pc₅ n₁ pc₆ n' ∧
    c.Stands h pc₆ (.jump pc') pc₇ ∧ c.Stands h pc₇ .trustMe pc₈ ∧ c.Stands h pc₈ .fail pc'
  | .negation x, pc, n, pc', n' => ∃ (s : UInt16) (pc₁ pc₂ pc₃ pc₄ pc₅ pc₆ : Nat),
    s.toNat = n ∧ c.Stands h pc (.tryMeElse pc₆) pc₁ ∧ c.Stands h pc₁ (.saveCut s) pc₂ ∧
    Body.Stands c slots h s x pc₂ (n + 1) pc₃ n' ∧ c.Stands h pc₃ (.cut s) pc₄ ∧
    c.Stands h pc₄ .trustMe pc₅ ∧ c.Stands h pc₅ .fail pc₆ ∧ c.Stands h pc₆ .trustMe pc'
  | .unify x y, pc, n, pc', n' => n' = n ∧ ∃ pc₁ pc₂, c.Builds slots h x pc pc₁ ∧
    c.Builds slots h y pc₁ pc₂ ∧ c.Stands h pc₂ .unify pc'
  | .raise x, pc, n, pc', n' => n' = n ∧ ∃ pc₁, c.Builds slots h x pc pc₁ ∧
    c.Stands h pc₁ .raise pc'
  | .guard x catcher y, pc, n, pc', n' =>
    ∃ (ball : UInt16) (k : Chunk.Handler) (pc₁ pc₂ pc₃ pc₄ pc₅ pc₆ pc₇ pc₈ pc₉ pc₁₀ pc₁₁ pc₁₂ pc₁₃
      n₁ : Nat),
    ball.toNat = n ∧ k.slot.toNat = n + 1 ∧ k.start.toNat = pc₁ ∧ k.stop.toNat = pc₂ ∧
    k.target.toNat = pc₃ ∧ c.Stands h pc (.saveCut k.slot) pc₁ ∧
    Body.Stands c slots (some k) k.slot x pc₁ (n + 2) pc₂ n₁ ∧ c.Stands h pc₂ (.jump pc') pc₃ ∧
    c.Stands h pc₃ (.storeEnvironment ball) pc₄ ∧ c.Stands h pc₄ (.tryMeElse pc₁₁) pc₅ ∧
    c.Builds slots h catcher pc₅ pc₆ ∧ c.Stands h pc₆ (.pushEnvironment ball) pc₇ ∧
    c.Stands h pc₇ .unify pc₈ ∧ c.Stands h pc₈ .trustMe pc₉ ∧
    Body.Stands c slots h k.slot y pc₉ n₁ pc₁₀ n' ∧ c.Stands h pc₁₀ (.jump pc') pc₁₁ ∧
    c.Stands h pc₁₁ .trustMe pc₁₂ ∧ c.Stands h pc₁₂ (.pushEnvironment ball) pc₁₃ ∧
    c.Stands h pc₁₃ .raise pc'
  | .call tag args, pc, n, pc', n' => n' = n ∧ ∃ pc₁, c.BuildsAll slots h args pc pc₁ ∧
    c.Stands h pc₁ (.call tag) pc'

/-- The code of the goals stands from `pc` to `pc'`, and takes the slots from `n` up to `n'`. -/
def Body.Stands (c : Chunk) (slots : Program.Slots) (h : Option Chunk.Handler) (b : UInt16) :
    List Goal → (pc n pc' n' : Nat) → Prop
  | [], pc, n, pc', n' => pc' = pc ∧ n' = n
  | g :: gs, pc, n, pc', n' => ∃ pc₁ n₁, Goal.Stands c slots h b g pc n pc₁ n₁ ∧
    Body.Stands c slots h b gs pc₁ n₁ pc' n'

end

/-! ### Handlers -/

/-- The slots of variables are numbers behind the last of the other slots. -/
structure Program.Slots.Behind (slots : Program.Slots) (last : Nat) : Prop where
  /-- The other slots have numbers. -/
  lt : last < 65536
  /-- Those of variables lie behind them. -/
  behind : ∀ (i : Nat) s, slots[i]? = some s → last < s.toNat

namespace Chunk

/-- The handler covers all offsets from `pc` up to `pc'` or none of them. -/
def Handler.Uniform (k : Handler) (pc pc' : Nat) : Prop :=
  (∀ o, pc ≤ o → o < pc' → k.covers o) ∨ ∀ o, pc ≤ o → o < pc' → ¬k.covers o

theorem Handler.Uniform.mono {k : Handler} {pc pc' o o' : Nat} (h : k.Uniform pc pc') (hlo : pc ≤ o)
    (hhi : o' ≤ pc') : k.Uniform o o' :=
  h.imp (fun h i hi hi' => h i (Nat.le_trans hlo hi) (Nat.lt_of_lt_of_le hi' hhi))
    fun h i hi hi' => h i (Nat.le_trans hlo hi) (Nat.lt_of_lt_of_le hi' hhi)

/-- A handler whose range starts behind the offsets covers none of them. -/
theorem Handler.uniform_of_le_start {k : Handler} {pc pc' : Nat} (h : pc' ≤ k.start.toNat) :
    k.Uniform pc pc' := by
  refine .inr fun o _ ho => ?_
  simp only [covers, Bool.and_eq_true, decide_eq_true_eq]
  omega

/-- A handler whose range ends before the offsets covers none of them. -/
theorem Handler.uniform_of_stop_le {k : Handler} {pc pc' : Nat} (h : k.stop.toNat ≤ pc) :
    k.Uniform pc pc' := by
  refine .inr fun o ho _ => ?_
  simp only [covers, Bool.and_eq_true, decide_eq_true_eq]
  omega

/-- The code of a goal `catch(x, catcher, y)` stands from `pc` to `pc'`, as `Goal.Stands` has it, and
`k` is its handler. -/
def Guards (c : Chunk) (slots : Program.Slots) (h : Option Handler) (k : Handler) (x : List Goal)
    (catcher : Tree) (y : List Goal) (pc n pc' n' : Nat) : Prop :=
  ∃ (ball : UInt16) (pc₁ pc₂ pc₃ pc₄ pc₅ pc₆ pc₇ pc₈ pc₉ pc₁₀ pc₁₁ pc₁₂ pc₁₃ n₁ : Nat),
    ball.toNat = n ∧ k.slot.toNat = n + 1 ∧ k.start.toNat = pc₁ ∧ k.stop.toNat = pc₂ ∧
    k.target.toNat = pc₃ ∧ c.Stands h pc (.saveCut k.slot) pc₁ ∧
    Body.Stands c slots (some k) k.slot x pc₁ (n + 2) pc₂ n₁ ∧ c.Stands h pc₂ (.jump pc') pc₃ ∧
    c.Stands h pc₃ (.storeEnvironment ball) pc₄ ∧ c.Stands h pc₄ (.tryMeElse pc₁₁) pc₅ ∧
    c.Builds slots h catcher pc₅ pc₆ ∧ c.Stands h pc₆ (.pushEnvironment ball) pc₇ ∧
    c.Stands h pc₇ .unify pc₈ ∧ c.Stands h pc₈ .trustMe pc₉ ∧
    Body.Stands c slots h k.slot y pc₉ n₁ pc₁₀ n' ∧ c.Stands h pc₁₀ (.jump pc') pc₁₁ ∧
    c.Stands h pc₁₁ .trustMe pc₁₂ ∧ c.Stands h pc₁₂ (.pushEnvironment ball) pc₁₃ ∧
    c.Stands h pc₁₃ .raise pc'

theorem Guards.stands {c : Chunk} {slots : Program.Slots} {h : Option Handler} {b : UInt16}
    {k : Handler} {x : List Goal} {catcher : Tree} {y : List Goal} {pc n pc' n' : Nat}
    (hk : c.Guards slots h k x catcher y pc n pc' n') :
    (Goal.guard x catcher y).Stands c slots h b pc n pc' n' := by
  obtain ⟨ball, hk⟩ := hk
  rw [Goal.Stands]
  exact ⟨ball, k, hk⟩

/-- Handler number `j` is that of a goal `catch(x, catcher, y)` with code between two offsets, which the
handlers behind it cover all or none of; the catcher has the property, and the slot of the ball lies
before those of the variables. -/
def Catches (c : Chunk) (slots : Program.Slots) (T : Tree → Prop) (j : Nat) : Prop :=
  ∃ k h x catcher y pc n pc' n', c.handlers.toList[j]? = some k ∧ T catcher ∧
    c.Guards slots h k x catcher y pc n pc' n' ∧ (∀ (i : Nat) s, slots[i]? = some s → n < s.toNat) ∧
    pc ≤ k.start.toNat ∧ k.stop.toNat ≤ pc' ∧
    ∀ k' ∈ c.handlers.toList.drop (j + 1), k'.Uniform pc pc'

end Chunk

/-! ### Clauses -/

/-- The code that unifies head arguments from number `i` on with those of the call. -/
def Chunk.StandsHead (c : Chunk) (slots : Program.Slots) :
    Nat → List (Tree × Option Var) → Nat → Nat → Prop
  | _, [], pc, pc' => pc' = pc
  | i, (_, some v) :: rest, pc, pc' => ∃ (k s : UInt16) (pc₁ pc₂ : Nat), k.toNat = i ∧
    slots[v.id]? = some s ∧ c.Stands none pc (.pushArgument k) pc₁ ∧
    c.Stands none pc₁ (.storeEnvironment s) pc₂ ∧ Chunk.StandsHead c slots (i + 1) rest pc₂ pc'
  | i, (t, none) :: rest, pc, pc' => ∃ (k : UInt16) (pc₁ pc₂ pc₃ : Nat), k.toNat = i ∧
    c.Stands none pc (.pushArgument k) pc₁ ∧ c.Builds slots none t pc₁ pc₂ ∧
    c.Stands none pc₂ .unify pc₃ ∧ Chunk.StandsHead c slots (i + 1) rest pc₃ pc'

/-- The code that makes variables. -/
def Chunk.StandsVariables (c : Chunk) (slots : Program.Slots) : List Var → Nat → Nat → Prop
  | [], pc, pc' => pc' = pc
  | v :: vs, pc, pc' => ∃ s pc₁ pc₂, slots[v.id]? = some s ∧ c.Stands none pc .createVariable pc₁ ∧
    c.Stands none pc₁ (.storeEnvironment s) pc₂ ∧ Chunk.StandsVariables c slots vs pc₂ pc'

namespace Rule

/-- The variables of a clause that no head argument stores. -/
def unstored (r : Rule) : List Var :=
  r.vars.filter fun v => some v ∉ directArguments r.args ∅

/-- The code of a clause. -/
def Stands (c : Chunk) (slots : Program.Slots) (r : Rule) (pc n pc' n' : Nat) : Prop :=
  ∃ pc₁ pc₂ pc₃, c.StandsVariables slots r.unstored pc pc₁ ∧
    c.StandsHead slots 0 (r.args.zip (directArguments r.args ∅)) pc₁ pc₂ ∧
    Body.Stands c slots none 0 r.body pc₂ n pc₃ n' ∧ c.Stands none pc₃ .leave pc'

/-- The code of the clauses behind the first one. -/
def StandsRest (c : Chunk) (slots : Program.Slots) : Rule → List Rule → Nat → Nat → Prop
  | r, [], pc, n => ∃ pc₁ pc' n', c.Stands none pc .trustMe pc₁ ∧ r.Stands c slots pc₁ n pc' n'
  | r, r' :: rs, pc, n => ∃ pc₁ pc' n', c.Stands none pc (.retryMeElse pc') pc₁ ∧
    r.Stands c slots pc₁ n pc' n' ∧ StandsRest c slots r' rs pc' n'

/-- The code of clauses, each but the last with an alternative that leads to the next. -/
def StandsAll (c : Chunk) (slots : Program.Slots) : List Rule → Nat → Nat → Prop
  | [], _, _ => False
  | [r], pc, n => ∃ pc' n', r.Stands c slots pc n pc' n'
  | r :: r' :: rs, pc, n => ∃ pc₁ pc' n', c.Stands none pc (.tryMeElse pc') pc₁ ∧
    r.Stands c slots pc₁ n pc' n' ∧ StandsRest c slots r' rs pc' n'

end Rule

end Resolvent
