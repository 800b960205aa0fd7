import Resolvent.Clause
import Resolvent.Program

/-!
# Programs of predicates

`Program.ofClauses` writes the program of the clauses of a predicate, in two passes.

The first pass reads every clause through its bindings and takes its body apart; it gives slot 0 to
the barrier of the predicate, the next slots to the barriers and balls of its goals, and every
distinct variable of the clauses a slot of its own behind them.

The second pass writes the lines. The clauses are chained by alternatives. A clause makes its
variables, unifies its head with the arguments and goes through its body; a head argument that is
the first occurrence of a variable is stored without unification. A goal takes the next of the slots
set apart by the first pass.
-/

namespace Resolvent

/-- A clause taken apart. -/
structure Rule where
  /-- The arguments of the head. -/
  args : List Tree
  /-- The goals of the body. -/
  body : List Goal
  /-- The distinct variables, in order of first occurrence from the left. -/
  vars : List Var

namespace Rule

/-- Takes a clause apart, its terms read through the bindings of the store. -/
def ofClause (σ : Store) (c : Clause) : EStateM CompileError Symbols Rule := do
  let head := σ.resolve c.head
  let body := σ.resolve c.body
  let args ← match head with
    | .var v => throw (.variableHead v)
    | .const (.atom _) => pure []
    | .const c => throw (.invalidHead c)
    | .compound _ args => pure args
  return ⟨args, ← Body.ofTree body, Var.distinct
    ((head.postorder ++ body.postorder).filterMap Node.var?)⟩

/-- The arguments that are the first occurrence of a variable among the arguments, `seen` being the
variables of those before. -/
def directArguments : List Tree → Std.TreeMap Nat Unit → List (Option Var)
  | [], _ => []
  | arg :: args, seen =>
    let direct := match arg with
      | .var v => if seen.contains v.id then none else some v
      | _ => none
    let seen := arg.vars.foldl (fun seen v => seen.insert v.id ()) seen
    direct :: directArguments args seen

end Rule

namespace Program

/-- The slots of the variables of a predicate, by their numbers. -/
abbrev Slots := Std.TreeMap Nat UInt16

/-- What the second pass has written so far. -/
structure Emitter where
  /-- The lines. -/
  lines : Array Line
  /-- The handlers, an inner one before those around it. -/
  handlers : Array Handler
  /-- The next slot for a barrier or a ball. -/
  nextSlot : Nat
  /-- The last of these slots. -/
  lastSlot : Nat
  /-- The next label. -/
  nextLabel : Nat
  /-- The stamp of the next compound. -/
  stamps : Nat

/-- A step of the second pass. -/
abbrev Emit := EStateM CompileError Emitter

namespace Emit

/-- Writes an instruction. -/
def emit (i : Instruction Term Tag Nat) : Emit Unit :=
  modify fun e => { e with lines := e.lines.push (.instruction i) }

/-- Places a label. -/
def place (n : Nat) : Emit Unit :=
  modify fun e => { e with lines := e.lines.push (.label n) }

/-- A label that has not been used. -/
def label : Emit Nat :=
  modifyGet fun e => (e.nextLabel, { e with nextLabel := e.nextLabel + 1 })

/-- The next slot for a barrier or a ball. -/
def reserve : Emit UInt16 := do
  let e ← get
  if e.nextSlot ≤ e.lastSlot then
    set { e with nextSlot := e.nextSlot + 1 }
    return .ofNat e.nextSlot
  else throw .tooManySlots

/-- The slot of a variable. -/
def slot (slots : Slots) (v : Var) : Emit UInt16 :=
  match slots[v.id]? with
  | some n => pure n
  | none => throw (.variableNotFound v)

/-! ### Terms -/

/-- The constant that a line pushes, if that is what it does. -/
def pushedConstant? : Line → Option Term
  | .instruction (.pushConstant c) => some c
  | _ => none

/-- The constants that the last `n` lines push, if that is what they do. -/
def lastConstants? (lines : Array Line) (n : Nat) : Option (List Term) :=
  if n ≤ lines.size then
    (lines.extract (lines.size - n) lines.size).toList.mapM pushedConstant?
  else none

/-- Writes the code of a node. A functor all of whose arguments have come out as one constant each
is made a constant itself. -/
def node (slots : Slots) : Node → Emit Unit
  | .var v => do emit (.pushEnvironment (← slot slots v))
  | .const c => emit (.pushConstant (.const c))
  | .functor tag arity => do
    let lines := (← get).lines
    match lastConstants? lines arity with
    | some args =>
      modify fun e => { e with
        lines := (e.lines.shrink (e.lines.size - arity)).push
          (.instruction (.pushConstant (.compound e.stamps tag args)))
        stamps := e.stamps + 1 }
    | none => emit (.createCompound tag)

/-- Writes the code that pushes a tree. -/
def build (slots : Slots) (t : Tree) : Emit Unit :=
  t.postorder.forM (node slots)

/-! ### Goals -/

mutual

/-- Writes the code of a goal; `barrier` is the slot that `!` cuts to. -/
def goal (slots : Slots) (barrier : UInt16) : Goal → Emit Unit
  | .callVar v => do
    emit (.pushEnvironment (← slot slots v))
    emit (.call (.call 0))
  | .succeed => emit .succeed
  | .fail => emit .fail
  | .cut => emit (.cut barrier)
  | .either a b => do
    let alternative ← label
    let done ← label
    emit (.tryMeElse alternative)
    body slots barrier a
    emit (.jump done)
    place alternative
    emit .trustMe
    body slots barrier b
    place done
  | .ifThenElse c t e => do
    let inner ← reserve
    let alternative ← label
    let done ← label
    emit (.tryMeElse alternative)
    emit (.saveCut inner)
    body slots inner c
    emit (.cut inner)
    emit .trustMe
    body slots barrier t
    emit (.jump done)
    place alternative
    emit .trustMe
    body slots barrier e
    place done
  | .ifThen c t => do
    let inner ← reserve
    let alternative ← label
    let done ← label
    emit (.tryMeElse alternative)
    emit (.saveCut inner)
    body slots inner c
    emit (.cut inner)
    emit .trustMe
    body slots barrier t
    emit (.jump done)
    place alternative
    emit .trustMe
    emit .fail
    place done
  | .negation b => do
    let inner ← reserve
    let alternative ← label
    emit (.tryMeElse alternative)
    emit (.saveCut inner)
    body slots inner b
    emit (.cut inner)
    emit .trustMe
    emit .fail
    place alternative
    emit .trustMe
  | .unify a b => do
    build slots a
    build slots b
    emit .unify
  | .raise ball => do
    build slots ball
    emit .raise
  | .guard b catcher recovery => do
    let ball ← reserve
    let inner ← reserve
    let start ← label
    let stop ← label
    let target ← label
    let rethrow ← label
    let done ← label
    emit (.saveCut inner)
    place start
    body slots inner b
    place stop
    emit (.jump done)
    place target
    emit (.storeEnvironment ball)
    emit (.tryMeElse rethrow)
    build slots catcher
    emit (.pushEnvironment ball)
    emit .unify
    emit .trustMe
    body slots inner recovery
    emit (.jump done)
    place rethrow
    emit .trustMe
    emit (.pushEnvironment ball)
    emit .raise
    place done
    modify fun e => { e with handlers := e.handlers.push ⟨start, stop, target, inner⟩ }
  | .call tag args => do
    args.forM (build slots)
    emit (.call tag)

/-- Writes the code of the goals of a body, one after the other. -/
def body (slots : Slots) (barrier : UInt16) : List Goal → Emit Unit
  | [] => pure ()
  | g :: gs => do
    goal slots barrier g
    body slots barrier gs

end

/-! ### Clauses -/

/-- Writes the code that unifies the head arguments from number `n` on with those of the call. -/
def headArguments (slots : Slots) : Nat → List (Tree × Option Var) → Emit Unit
  | _, [] => pure ()
  | n, (arg, direct) :: rest => do
    if 65536 ≤ n then throw .tooManyArguments
    emit (.pushArgument (.ofNat n))
    match direct with
    | some v => emit (.storeEnvironment (← slot slots v))
    | none =>
      build slots arg
      emit .unify
    headArguments slots (n + 1) rest

/-- Adds the variable that a head argument stores, if it stores one. -/
def addStored (stored : Std.TreeMap Nat Unit) : Option Var → Std.TreeMap Nat Unit
  | some v => stored.insert v.id ()
  | none => stored

/-- The variables that head arguments store, by their numbers. -/
def storedVariables (direct : List (Option Var)) : Std.TreeMap Nat Unit :=
  direct.foldl addStored ∅

/-- Writes the code that makes the variables of a clause that no head argument stores. -/
def makeVariables (slots : Slots) (direct : List (Option Var)) (vars : List Var) :
    Emit Unit := do
  let stored := storedVariables direct
  vars.forM fun v => do
    if !stored.contains v.id then
      let n ← slot slots v
      emit .createVariable
      emit (.storeEnvironment n)

/-- Writes the code of a clause. -/
def rule (slots : Slots) (r : Rule) : Emit Unit := do
  let direct := Rule.directArguments r.args ∅
  makeVariables slots direct r.vars
  headArguments slots 0 (r.args.zip direct)
  body slots 0 r.body
  emit .leave

/-- Writes the code of clauses, each but the last with an alternative that leads to the next;
`pending` is the label that the clauses before lead to. -/
def rules (slots : Slots) : List Rule → Option Nat → Emit Unit
  | [], _ => pure ()
  | r :: rest, pending => do
    match pending with
    | some n => place n
    | none => pure ()
    let next ← match pending, rest with
      | none, [] => pure none
      | none, _ :: _ => do
        let n ← label
        emit (.tryMeElse n)
        pure (some n)
      | some _, _ :: _ => do
        let n ← label
        emit (.retryMeElse n)
        pure (some n)
      | some _, [] => do
        emit .trustMe
        pure none
    rule slots r
    rules slots rest next

end Emit

/-! ### Predicates -/

/-- The greatest number that a slot, an argument or a table index can have. -/
def maxOperand : Nat := 65535

/-- The slots of the distinct variables of clauses, from slot `first` on, and the slot behind. -/
def variableSlots (first : Nat) (rules : List Rule) : Slots × Nat :=
  rules.foldl (fun acc r => r.vars.foldl (fun (slots, next) v =>
    if slots.contains v.id then (slots, next)
    else (slots.insert v.id (.ofNat next), next + 1)) acc) (∅, first)

/-- Runs a step on the symbols of a universe. -/
def onSymbols {ε α : Type} (step : EStateM ε Symbols α) : EStateM ε Universe α :=
  fun ⟨symbols, store⟩ =>
    match step symbols with
    | .ok a symbols => .ok a ⟨symbols, store⟩
    | .error e symbols => .error e ⟨symbols, store⟩

/-- The program of a predicate with the given clauses. -/
def ofClauses (tag : Tag) (clauses : List Clause) : EStateM CompileError Universe Program := do
  let symbols := (← get).symbols
  let arity := symbols.arity tag
  let name := symbols.indicator tag
  if maxOperand < arity then throw .tooManyArguments
  let σ := (← get).store
  let rules ← onSymbols (clauses.mapM (Rule.ofClause σ))
  let reserved := total (rules.map fun r => Body.slots r.body)
  let (slots, size) := variableSlots (1 + reserved) rules
  if maxOperand < size then throw .tooManySlots
  if rules.isEmpty then
    return ⟨name, .ofNat arity, 0, #[.instruction .fail], #[]⟩
  clauses.forM fun c => modify fun u => (c.predicate? u).2
  let first : Emitter :=
    ⟨#[.instruction (.allocate (.ofNat size)), .instruction (.saveCut 0)], #[], 1, reserved, 0,
      (← get).store.stamps⟩
  match Emit.rules slots rules none first with
  | .error e _ => throw e
  | .ok _ emitter =>
    modify fun u => { u with store := { u.store with stamps := emitter.stamps } }
    return ⟨name, .ofNat arity, .ofNat size, emitter.lines, emitter.handlers⟩

end Program

end Resolvent
