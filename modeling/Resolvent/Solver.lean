import Resolvent.Activation
import Resolvent.Builtins

/-!
# Calls

`Solver.invoke` calls what a call leads to: code, or a native predicate. Every call is counted while
it is active, and a call that would be nested too deep, or would need more of the native stack than
is allowed, raises a resource error.

`Solver.context` is the context in which the host calls an engine: its calls have the given fuel,
and the calls they make in turn one step less each.
-/

namespace Resolvent

/-- The native predicates of the host, by their numbers. A predicate is told the calls that it may
make, whether it is asked for another solution, and its arguments. -/
abbrev Host := Nat → Context → Bool → Array Term → EngineM Answer

namespace Solver

/-- The native stack that an active call is taken to need, in bytes. -/
def bytesPerCall : Nat := 512

/-- Makes sure that one more call may be active. -/
def checkDepth : EngineM Unit := do
  let e := (← get).engine
  if e.config.maxCallDepth ≤ e.depth then Engine.exceed "calls"
  if e.config.maxStackBytes < e.depth * bytesPerCall then Engine.exceed "stack"

/-- Counts a call while it is active. -/
def nested {α : Type} (call : EngineM α) : EngineM α :=
  fun s =>
    match call { s with engine := { s.engine with depth := s.engine.depth + 1 } } with
    | .ok a s => .ok a { s with engine := { s.engine with depth := s.engine.depth - 1 } }
    | .error e s => .error e { s with engine := { s.engine with depth := s.engine.depth - 1 } }

/-- Calls a callee with arguments, or asks it for another solution. -/
def invoke (host : Host) (ctx : Context) (callee : Callee) (args : Array Term) (redo : Bool) :
    EngineM Answer := do
  checkDepth
  nested <| match callee with
    | .code code => if redo then Activation.resume ctx code args else Activation.start ctx code args
    | .native (.builtin b) => b.execute ctx redo args
    | .native (.host id) => host id ctx redo args

/-- The calls that can be made with the given fuel, where faults are thrown as `report` says. -/
def contextWith (report : Fault → EngineM Exception) (host : Host) : Nat → Context
  | 0 => ⟨0, fun _ _ _ => throw .spent, fun _ => throw .spent, report⟩
  | n + 1 =>
    ⟨n + 1, fun callee args redo => invoke host (contextWith report host n) callee args redo,
      fun goals => Engine.runCleanups (contextWith report host n) goals, report⟩

/-- The calls that can be made with the given fuel. -/
def context : Host → Nat → Context :=
  contextWith fun f => Engine.onTerms (Activation.faultException f)

/-- Fuel that no run on a real machine uses up. -/
def ampleFuel : Nat := 0x4000000000000000

end Solver

end Resolvent
