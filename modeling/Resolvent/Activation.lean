import Resolvent.Search

/-!
# Activations of code

An activation is one run of packed code for one call. It has operands, slots and a place in the
code; the choice stack and the trail it shares with all others. On the choice stack it lies between
its entry and the top. Left with choice points above its entry, it puts its slots on top of them,
where a redo finds them; left without, it takes its entry away.

`Activation.run` goes through the code instruction by instruction. Where unification or a call
fails it goes back to the newest choice point, and where a ball is thrown it goes to the innermost
handler around that place. A failing or throwing activation undoes all bindings made since its
entry.
-/

namespace Resolvent

/-- One run of packed code. -/
structure Activation where
  /-- The code. -/
  code : Code
  /-- The arguments of the call. -/
  args : Array Term
  /-- The offset of the next instruction. -/
  next : Nat
  /-- The offset of the instruction that is being carried out. -/
  current : Nat
  /-- The operands, the newest last. -/
  operands : Array Term
  /-- The slots. -/
  slots : Array Slot
  /-- The height of the choice stack above the entry of the activation. -/
  entry : Nat

/-- An activation in its surroundings. -/
structure Machine where
  /-- The database and the engine. -/
  workspace : Workspace
  /-- The activation. -/
  activation : Activation

/-- What keeps an instruction from being carried out. -/
inductive Interrupt where
  /-- Something that ends the run of the instruction's callee. -/
  | stop (s : Stop)
  /-- A fault of the code. -/
  | fault (f : Fault)

/-- A step of an activation. -/
abbrev MachineM := EStateM Interrupt Machine

/-- How an activation goes on. -/
inductive Course where
  /-- With the next instruction. -/
  | forward
  /-- With the newest choice point. -/
  | backward
  /-- Not at all: this is the answer. -/
  | answer (a : Answer)

namespace Activation

/-- A step of the run. -/
@[inline] def onWorkspace {α : Type} (step : EngineM α) : MachineM α :=
  fun ⟨workspace, activation⟩ =>
    match step workspace with
    | .ok a workspace => .ok a ⟨workspace, activation⟩
    | .error e workspace => .error (.stop e) ⟨workspace, activation⟩

instance : MonadLift EngineM MachineM := ⟨onWorkspace⟩

/-- A change of the activation. -/
@[inline] def update (f : Activation → Activation) : MachineM Unit :=
  fun ⟨workspace, activation⟩ => .ok () ⟨workspace, f activation⟩

/-- The activation faults. -/
@[inline] def fault {α : Type} (f : Fault) : MachineM α :=
  throw (.fault f)

/-- A value that is missing because of a fault. -/
@[inline] def orFault {α : Type} (f : Fault) : Option α → MachineM α
  | some a => pure a
  | none => fault f

/-! ### Operands and slots -/

/-- Pushes an operand. -/
def push (t : Term) : MachineM Unit :=
  fun ⟨workspace, a⟩ =>
    if a.operands.size < workspace.engine.config.maxOperands then
      .ok () ⟨workspace, { a with operands := a.operands.push t }⟩
    else .error (.fault .stackOverflow) ⟨workspace.note (.of .limited), a⟩

/-- Takes the newest operand. -/
def pop : MachineM Term :=
  fun ⟨workspace, a⟩ =>
    match a.operands.back? with
    | some t => .ok t ⟨workspace, { a with operands := a.operands.pop }⟩
    | none => .error (.fault .stackUnderflow) ⟨workspace, a⟩

/-- Takes the newest `n` operands, in the order in which they were pushed. -/
def popMany (n : Nat) : MachineM (Array Term) :=
  fun ⟨workspace, a⟩ =>
    let size := a.operands.size
    if n ≤ size then
      let taken := a.operands.extract (size - n) size
      .ok taken ⟨workspace, { a with operands := a.operands.shrink (size - n) }⟩
    else .error (.fault .stackUnderflow) ⟨workspace, a⟩

/-- Writes a slot. -/
def store (n : UInt16) (s : Slot) : MachineM Unit :=
  fun ⟨workspace, a⟩ =>
    if n.toNat < a.slots.size then
      .ok () ⟨workspace, { a with slots := a.slots.setIfInBounds n.toNat s }⟩
    else .error (.fault (.invalidSlot n)) ⟨workspace, a⟩

/-- The barrier in a slot. -/
def barrier (n : UInt16) : MachineM Barrier := do
  match (← get).activation.slots[n.toNat]? with
  | some (.barrier b) => return b
  | some _ => fault (.slotKind n "cut barrier")
  | none => fault (.invalidSlot n)

/-- The term in a slot. -/
def slotTerm (n : UInt16) : MachineM Term := do
  match (← get).activation.slots[n.toNat]? with
  | some (.term t) => return t
  | some _ => fault (.slotKind n "term")
  | none => fault (.invalidSlot n)

/-- A place in the code. -/
def place (target : UInt32) : MachineM Nat := do
  if target.toNat < (← get).activation.code.chunk.code.size then return target.toNat
  else fault .outOfCode

/-- The tag that an index names. -/
def tag (n : UInt16) : MachineM Tag := do
  orFault (.invalidTag n) (← get).activation.code.chunk.tags[n.toNat]?

/-! ### Calls -/

/-- What a call of a tag leads to and the arguments for it; `none` if it fails at once. The call
site, with the given number, remembers everything but control constructs. -/
def findCallee (site : Nat) (tag : Tag) (args : Array Term) :
    EngineM (Option (Callee × Array Term)) := do
  let generation := (← get).database.generation
  match (← get).database.known? site tag with
  | some callee => return some (callee, args)
  | none =>
    match ← Engine.onDatabase (Database.resolve tag) with
    | .callee callee =>
      modify fun s => { s with database := { s.database with
        sites := s.database.sites.setIfInBounds site (tag, .ofCallee generation callee) } }
      return some (callee, args)
    | .control =>
      let (code, args) ← Engine.onDatabase (Database.controlCode tag args.toList)
      return some (.code code, args)
    | .undefined =>
      match (← get).unknownPolicy with
      | .fail => return none
      | .error => throw (.thrown (← Engine.onTerms (Exception.unknownProcedure tag)))

/-- Finds what a call leads to, for all to know. -/
def look (site : Nat) (tag : Tag) (args : Array Term) :
    EngineM (Option (Callee × Array Term)) := fun s =>
  match findCallee site tag args s with
  | .ok found s' =>
    .ok found (s'.note (.of (.looked ⟨s.database, s.unknownPolicy, tag, args, .ok found⟩)))
  | .error e s' =>
    .error e (s'.note (.of (.looked ⟨s.database, s.unknownPolicy, tag, args, .error e⟩)))

/-- Calls a callee that a call led to, or asks it for another solution, for all to know. -/
def invoke (ctx : Context) (callee : Callee) (args : Array Term) (redo : Bool) : EngineM Answer := do
  Engine.note (.invoked callee args redo)
  ctx.invoke callee args redo

/-- Goes on after a callee has answered; a callee that may have more solutions gets a choice point,
at which it is asked for them before the activation goes on at `resume` again. -/
def proceed (callee : Callee) (args : Array Term) (resume callAt : Nat) (a : Answer) :
    MachineM Course := do
  match a with
  | .more =>
    onWorkspace (Engine.pushChoice (.retry callee args resume callAt))
    return .forward
  | .last => return .forward
  | .fail => return .backward

/-- What a call of a tag with the newest operands as arguments leads to. -/
def find (n : UInt16) : MachineM (Option (Callee × Array Term)) := do
  let tag ← tag n
  let args ← popMany ((← get).workspace.database.terms.symbols.arity tag)
  let site := (← get).activation.code.firstSite + n.toNat
  onWorkspace (look site tag args)

/-- Calls a tag with the newest operands as arguments. -/
def call (ctx : Context) (n : UInt16) : MachineM Course := do
  match ← find n with
  | none => return .backward
  | some (callee, args) =>
    let answer ← onWorkspace (invoke ctx callee args false)
    let a := (← get).activation
    proceed callee args a.next a.current answer

/-- Leaves the activation: with choice points above its entry it may be redone. -/
def leave : MachineM Course := do
  let height ← onWorkspace Engine.height
  let entry := (← get).activation.entry
  if height < entry then fault .entryMissing
  else if height = entry then
    onWorkspace Engine.pop
    return .answer .last
  else
    let slots ← modifyGet fun m =>
      (m.activation.slots, { m with activation := { m.activation with slots := #[] } })
    onWorkspace (Engine.pushChoice (.exit slots entry))
    return .answer .more

/-! ### Instructions -/

/-- Carries out an instruction. -/
def perform (ctx : Context) : Instruction UInt16 UInt16 UInt32 → MachineM Course
  | .pop => do
    discard pop
    return .forward
  | .dup => do
    let t ← orFault .stackUnderflow (← get).activation.operands.back?
    push t
    return .forward
  | .pushConstant n => do
    push (← orFault (.invalidConstant n) (← get).activation.code.chunk.constants[n.toNat]?)
    return .forward
  | .pushArgument n => do
    push (← orFault (.invalidArgument n) (← get).activation.args[n.toNat]?)
    return .forward
  | .pushEnvironment n => do
    push (← slotTerm n)
    return .forward
  | .createVariable => do
    push (.var (← onWorkspace (Engine.onTerms Universe.fresh)))
    return .forward
  | .createCompound n => do
    let tag ← tag n
    let args ← popMany ((← get).workspace.database.terms.symbols.arity tag)
    push (← onWorkspace (Engine.onTerms (Universe.compound tag args.toList)))
    return .forward
  | .allocate n => do
    update fun a => { a with slots := Array.replicate n.toNat .empty }
    return .forward
  | .storeEnvironment n => do
    let t ← pop
    store n (.term t)
    return .forward
  | .jump l => do
    let target ← place l
    update fun a => { a with next := target }
    return .forward
  | .call n => call ctx n
  | .leave => leave
  | .succeed => return .forward
  | .unify => do
    let t ← pop
    let s ← pop
    return if ← onWorkspace (Engine.unifyInPlace ctx.fuel s t) then .forward else .backward
  | .tryMeElse l => do
    let target ← place l
    onWorkspace (Engine.pushChoice (.alternative target))
    return .forward
  | .retryMeElse l => do
    let target ← place l
    match ← onWorkspace Engine.top? with
    | some ⟨m, .alternative _⟩ =>
      onWorkspace (Engine.onChoices fun choices => ((), choices.setTop ⟨m, .alternative target⟩))
      return .forward
    | _ => fault .noAlternative
  | .trustMe => do
    match ← onWorkspace Engine.top? with
    | some ⟨_, .alternative _⟩ =>
      onWorkspace Engine.pop
      return .forward
    | _ => fault .noAlternative
  | .fail => return .backward
  | .cut n => do
    let b ← barrier n
    let cleanups ← onWorkspace (Engine.cutTo (max b.height (← get).activation.entry))
    unless cleanups.isEmpty do onWorkspace (ctx.runCleanups cleanups)
    return .forward
  | .saveCut n => do
    let height ← onWorkspace Engine.height
    let mark ← onWorkspace Engine.mark
    store n (.barrier ⟨height, mark⟩)
    return .forward
  | .raise => do
    let ball ← pop
    match ← onWorkspace (Engine.deref ball) with
    | .var _ => onWorkspace (Engine.raise .instantiation)
    | _ => onWorkspace (Engine.throwTerm ball)

/-- Carries out the next instruction. -/
def advance (ctx : Context) : MachineM Course := do
  let a := (← get).activation
  match a.code.chunk.fetch a.next with
  | .error f =>
    update fun a => { a with current := a.next }
    fault f
  | .ok (i, behind) =>
    update fun a => { a with current := a.next, next := behind }
    perform ctx i

/-- Goes back to the newest choice point. An alternative stays; any other is taken away. -/
def backtrack (ctx : Context) : MachineM Course := do
  if (← onWorkspace Engine.height) < (← get).activation.entry then fault .entryMissing
  match ← onWorkspace Engine.top? with
  | none => fault .entryMissing
  | some ⟨m, .alternative resume⟩ =>
    onWorkspace (Engine.undoTo m)
    update fun a => { a with operands := #[], next := resume }
    return .forward
  | some ⟨m, kind⟩ =>
    onWorkspace Engine.pop
    onWorkspace (Engine.undoTo m)
    match kind with
    | .entry _ => return .answer .fail
    | .retry callee args resume callAt =>
      update fun a => { a with operands := #[], next := resume, current := callAt }
      proceed callee args resume callAt (← onWorkspace (invoke ctx callee args true))
    | .cleanup goal =>
      onWorkspace (ctx.runCleanups [goal])
      return .backward
    | .alternative _ | .native _ | .exit .. => return .backward

/-- Goes one step on a course. -/
def step (ctx : Context) : Course → MachineM Course
  | .forward => advance ctx
  | .backward => backtrack ctx
  | .answer a => return .answer a

/-! ### Exceptions -/

/-- The exception that a fault is thrown as. -/
def faultException (f : Fault) : StateM Universe Exception :=
  Exception.ofError <| match f with
    | .stackOverflow => .resource "operand_stack"
    | f => .system f.message

/-- The innermost handler around the current instruction, with the barrier saved for it. -/
def handler? (a : Activation) : Option (Chunk.Handler × Barrier) :=
  match a.code.chunk.handlerFor? a.current with
  | none => none
  | some h =>
    match a.slots[h.slot.toNat]? with
    | some (.barrier b) => some (h, b)
    | _ => none

/-- Brings a ball to the innermost handler around the current instruction, where the activation goes
on; without a handler the activation is undone and the ball thrown on. -/
def handle (ctx : Context) (e : Exception) (a : Activation) : EngineM Activation := do
  match a.handler? with
  | some (h, b) =>
    ctx.runCleanups (← Engine.cutTo (max b.height a.entry))
    Engine.undoTo b.mark
    return { a with operands := #[e.ball], next := h.target.toNat }
  | none =>
    let bottom := a.entry - 1
    let mark := ((← get).engine.choices.get? bottom).map (·.mark)
    ctx.runCleanups (← Engine.cutTo bottom)
    match mark with
    | some m => Engine.undoTo m
    | none => pure ()
    throw (.thrown e)

/-- Brings what an instruction was interrupted by to the activation's handlers. Only exceptions and
faults can be handled. -/
def settle (ctx : Context) (i : Interrupt) (a : Activation) : EngineM Activation := do
  match i with
  | .stop (.thrown e) => handle ctx e a
  | .stop s => throw s
  | .fault f => handle ctx (← ctx.report f) a

/-! ### Runs -/

/-- Runs an activation, in at most `n` steps. -/
def run (ctx : Context) : Nat → Course → Activation → EngineM Answer
  | 0, _, _ => throw .spent
  | _, .answer answer, _ => return answer
  | n + 1, course, a => fun workspace =>
    match step ctx course ⟨workspace.pass, a⟩ with
    | .ok course ⟨workspace, a⟩ => run ctx n course a workspace
    | .error i ⟨workspace, a⟩ =>
      match settle ctx i a workspace with
      | .ok a workspace => run ctx n .forward a workspace
      | .error s workspace => .error s workspace

/-- Calls code with arguments. -/
def start (ctx : Context) (code : Code) (args : Array Term) : EngineM Answer := do
  Engine.pushChoice (.entry code)
  run ctx ctx.fuel .forward ⟨code, args, 0, 0, #[], #[], ← Engine.height⟩

/-- Asks code for another solution, where it has been left with solutions to come. -/
def resume (ctx : Context) (code : Code) (args : Array Term) : EngineM Answer := do
  match ← Engine.top? with
  | some ⟨m, .exit slots entry⟩ =>
    Engine.pop
    Engine.undoTo m
    run ctx ctx.fuel .backward ⟨code, args, 0, 0, #[], slots, entry⟩
  | _ => throw (.thrown (← ctx.report .noExit))

end Activation

end Resolvent
