import Resolvent.Search

/-!
# Predicates that every database has

`between/3` enumerates a range of integers, `findall/3` collects the solutions of a goal,
`call_cleanup/2` runs a goal when another one is finished, and `halt/0` and `halt/1` end the run.

A native predicate with more than one solution keeps what it needs for the next one on the choice
stack, below the bindings of the present one; a redo takes it back and undoes them.
-/

namespace Resolvent

namespace Builtin

/-- The argument at an index. -/
def argument (args : Array Term) (i : Nat) : Term :=
  args[i]?.getD (.atom .nil)

/-- The machine integer that an argument is. -/
def integer (t : Term) : EngineM Int64 := do
  match ← Engine.deref t with
  | .var _ => Engine.raise .instantiation
  | .const (.int n) => return n
  | t => Engine.raise (.type "integer" t)

/-! ### Ranges -/

/-- The end of a range: an integer, or `none` for the names of the unbounded one. -/
def rangeEnd (t : Term) : EngineM (Option Int64) := do
  match ← Engine.deref t with
  | .const (.atom a) =>
    let name := (← get).database.terms.symbols.name a
    if name = "inf" ∨ name = "infinite" then return none else return some (← integer t)
  | _ => return some (← integer t)

/-- Whether an integer is not behind the end of a range. -/
def inRange (n : Int64) : Option Int64 → Bool
  | some last => n ≤ last
  | none => true

/-- Reports an integer of a range, after keeping the next one if there is one. -/
def reportRange (ctx : Context) (t : Term) (n : Int64) (last : Option Int64) : EngineM Answer := do
  if !inRange n last then return .fail
  let atEnd := n = Int64.maxValue || last = some n
  unless atEnd do Engine.pushNativeState (.range (n + 1) last)
  if ← Engine.unify ctx.fuel t (.int n) then return if atEnd then .last else .more
  else return .fail

/-- The integers from the first argument to the second, one after the other. -/
def runBetween (ctx : Context) (redo : Bool) (args : Array Term) : EngineM Answer := do
  let t := argument args 2
  if redo then
    match ← Engine.popNativeState with
    | some (.range next last) => reportRange ctx t next last
    | _ => return .fail
  else
    let low ← integer (argument args 0)
    let high ← rangeEnd (argument args 1)
    match ← Engine.deref t with
    | .var _ => reportRange ctx t low high
    | .const (.int n) => return if low ≤ n && inRange n high then .last else .fail
    | t => Engine.raise (.type "integer" t)

/-! ### Goals -/

/-- The list of the copies of a template for all solutions of a goal. -/
def runFindall (ctx : Context) (args : Array Term) : EngineM Answer := do
  let found ← Engine.collect ctx (argument args 0) (argument args 1) none
  let list ← Engine.onTerms (Universe.list found)
  Engine.unifyOnce ctx.fuel (argument args 2) list

/-- Ends a call of `call_cleanup/2` whose goal has ended: the cleanup goal is run, and then the goal's
own end follows. -/
def conclude (ctx : Context) (result : Except Stop Answer) : EngineM Answer := do
  ctx.runCleanups (← Engine.popCleanup).toList
  match result with
  | .ok answer => return answer
  | .error s => throw s

/-- Ends a call of `call_cleanup/2` whose goal has been called. A goal that may have more solutions
has not ended. -/
def finish (ctx : Context) (code : Code) (args : Array Term) (redo : Bool) : EngineM Answer := do
  let result ← tryCatch (Except.ok <$> ctx.invoke (.code code) args redo) fun s => return .error s
  match result with
  | .ok .more =>
    Engine.pushNativeState (.goal code args)
    return .more
  | .error .spent => throw .spent
  | .error (.halted _) =>
    modify Workspace.interrupt
    conclude ctx result
  | _ => conclude ctx result

/-- The solutions of the first argument as a goal; the second one is run when it is finished. -/
def runCallCleanup (ctx : Context) (redo : Bool) (args : Array Term) : EngineM Answer := do
  if redo then
    match ← Engine.popNativeState with
    | some (.goal code args) => finish ctx code args true
    | _ => return .fail
  else
    let (code, vars) ← Engine.onDatabase (Database.compileGoal .metaCall (argument args 0))
    Engine.pushChoice (.cleanup (argument args 1))
    finish ctx code vars false

/-- Ends the run, with the argument, if there is one, as exit status. -/
def runHalt (args : Array Term) : EngineM Answer := do
  if args.isEmpty then Engine.quit 0
  else
    let n := (← integer (argument args 0)).toInt
    if -0x80000000 ≤ n ∧ n < 0x80000000 then Engine.quit n
    else Engine.raise (.representation "exit_status")

/-- Calls or redoes a predicate that every database has. -/
def execute (ctx : Context) (redo : Bool) (args : Array Term) : Builtin → EngineM Answer
  | .between => runBetween ctx redo args
  | .findall => runFindall ctx args
  | .callCleanup => runCallCleanup ctx redo args
  | .halt => runHalt args

end Builtin

end Resolvent
