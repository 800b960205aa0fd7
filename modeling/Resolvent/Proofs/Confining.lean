import Resolvent.Proofs.Effects
import Resolvent.Proofs.Isolation

/-!
# What runs of any code leave alone

Whatever code is run in a search, with whatever outcome, it stays within the search: this is a lawful
effect. Of the predicates of the host it is asked that they stay within the search too.
-/

namespace Resolvent

open Workspace (Encloses)

namespace Activation

theorem keeps_findCallee (site : Nat) (tag : Tag) (args : Array Term) :
    Keeps Encloses (findCallee site tag args) := by
  refine .bind .get fun s => .bind .get fun s' => ?_
  split
  · exact .pure _
  · refine (Engine.keeps_onDatabase (Database.keeps_resolve tag)).bind fun r => ?_
    cases r with
    | callee callee =>
      refine .bind (.modify fun s => ?_) fun _ => .pure _
      exact .of_contains (s := s) (.refl _)
    | control =>
      exact (Engine.keeps_onDatabase (Database.keeps_controlCode Database.builds_contains _ _)).bind
        fun _ => .pure _
    | undefined =>
      refine .bind .get fun s => ?_
      split
      · exact .pure _
      · exact (Engine.keeps_onTerms (Exception.extending_unknownProcedure tag)).bind fun _ => .throw _

theorem keeps_look (site : Nat) (tag : Tag) (args : Array Term) :
    Keeps Encloses (look site tag args) := fun s =>
  yields_look.mpr ((keeps_findCallee site tag args s).imp (fun _ _ h => h.trans (.of_note _))
    fun _ _ h => h.trans (.of_note _))

end Activation

/-- The depth is the same again after a call. -/
theorem Solver.within_nested {x : EngineM Answer} (hx : Engine.Within x) :
    Engine.Within (Solver.nested x) := by
  intro s
  have h := hx { s with engine := { s.engine with depth := s.engine.depth + 1 } }
  have hcount {u : Workspace}
      (hu : Encloses { s with engine := { s.engine with depth := s.engine.depth + 1 } } u) :
      s.Encloses { u with engine := { u.engine with depth := u.engine.depth - 1 } } :=
    ⟨hu.symbols, hu.config, hu.limit, hu.returnPoints, hu.active, by
      show u.engine.depth - 1 = s.engine.depth
      rw [hu.depth, Nat.add_sub_cancel], hu.before⟩
  unfold Yields Solver.nested at *
  cases hr : x { s with engine := { s.engine with depth := s.engine.depth + 1 } } with
  | ok a u =>
    rw [hr] at h
    exact hcount h
  | error e u =>
    rw [hr] at h
    exact fun he => hcount (h he)

namespace Effect

/-- To stay within the search, unless the fuel does not suffice. -/
def staying : Effect where
  ok := Encloses
  err e s t := e ≠ .spent → s.Encloses t

theorem lawful_staying : staying.Lawful where
  refl := .refl
  trans := .trans
  stopped h h' := fun he => h.trans (h' he)
  thrown := ⟨fun h => h nofun, fun h _ => h⟩
  spent _ := fun he => absurd rfl he
  faulty _ := .refl
  faulted := .trans
  pass _ := .of_note _
  overflow _ := .of_note _
  exceed _ := Engine.Within.of_keeps (Engine.keeps_exceed _)
  onTerms hx := Engine.Within.of_keeps (Engine.keeps_onTerms hx)
  compileGoal _ _ := Engine.Within.of_keeps
    (Engine.keeps_onDatabase (Database.keeps_compileGoal Database.builds_contains _ _))
  look _ _ _ := Engine.Within.of_keeps (Activation.keeps_look _ _ _)
  mark := Engine.Within.of_keeps Engine.keeps_mark
  undoTo _ := Engine.Within.of_keeps (Engine.keeps_undoTo _)
  unify _ _ _ := Engine.Within.of_keeps (Engine.keeps_unify _ _ _)
  unifyInPlace _ _ _ := Engine.Within.of_keeps (Engine.keeps_unifyInPlace _ _ _)
  pushChoice _ := Engine.Within.of_keeps (Engine.keeps_pushChoice _)
  pop := Engine.Within.of_keeps Engine.keeps_pop
  cutTo _ := Engine.Within.of_keeps (Engine.keeps_cutTo _)
  setTop _ _ := Engine.Within.of_keeps (Engine.keeps_onChoices fun _ => rfl)
  nested := Solver.within_nested

variable {ctx : Context}

/-- Calls that stay within the search have the effect. -/
theorem calls_staying (hctx : ctx.Within) : staying.Calls ctx :=
  ⟨hctx.invoke, hctx.runCleanups, fun f => Allows.reports (F := staying) lawful_staying rfl (hctx.report f) f⟩

end Effect

namespace Builtin

variable {ctx : Context}

/-- Whatever the goal ends with is looked at before it goes on. -/
theorem within_conclude (hctx : ctx.Within) (result : Except Stop Answer) :
    Engine.Within (conclude ctx result) := by
  refine .bind (.of_keeps Engine.keeps_popCleanup) fun r => (hctx.runCleanups r.toList).bind fun _ => ?_
  cases result with
  | ok a => exact .pure a
  | error e => exact .throw e

theorem within_finish (hctx : ctx.Within) (code : Code) (args : Array Term) (redo : Bool) :
    Engine.Within (finish ctx code args redo) := by
  intro s
  rw [finish, yields_bind, yields_tryCatch, yields_map]
  have hclean (result : Except Stop Answer) {u : Workspace} (hu : s.Encloses u) :
      Yields (conclude ctx result) u (fun _ v => s.Encloses v)
        fun e v => e ≠ .spent → s.Encloses v :=
    (within_conclude hctx result u).imp (fun _ _ h => hu.trans h) fun _ _ h he => hu.trans (h he)
  refine (hctx.invoke _ _ _ s).imp (fun a u hu => ?_) fun e u hu => ?_
  · cases a with
    | more =>
      refine Yields.imp (Engine.Within.of_keeps ((Engine.keeps_pushChoice _).bind fun _ => .pure _) u)
        (fun _ _ h => hu.trans h) fun _ _ h he => hu.trans (h he)
    | last => exact hclean (.ok .last) hu
    | fail => exact hclean (.ok .fail) hu
  · rw [yields_pure]
    cases e with
    | spent => exact fun hne => absurd rfl hne
    | thrown x => exact hclean (.error (.thrown x)) (hu (by simp))
    | halted n => exact hclean (.error (.halted n)) ((hu (by simp)).trans (.of_note _))

theorem within_execute (hctx : ctx.Within) (redo : Bool) (args : Array Term) (b : Builtin) :
    Engine.Within (b.execute ctx redo args) := by
  cases b with
  | between => exact Effect.lawful_staying.between redo args
  | findall =>
    refine Effect.lawful_staying.findall (fun template goal s => ?_) args
    exact (Engine.leaves_collect hctx template goal none s).imp (fun _ _ h => h.1)
      fun _ _ h he => (h he).1
  | callCleanup => exact Effect.lawful_staying.callCleanup (within_finish hctx) redo args
  | halt =>
    exact Effect.lawful_staying.halt
      (fun n => Engine.Within.of_keeps ((Engine.keeps_note _).bind fun _ => .throw _)) args

end Builtin

/-- The predicates of the host stay within the search. -/
def Host.Within (host : Host) : Prop :=
  ∀ (id : Nat) (ctx : Context) (redo : Bool) (args : Array Term), ctx.Within →
    Engine.Within (host id ctx redo args)

namespace Solver

/-! ### Calls -/

theorem within_invoke {host : Host} {ctx : Context} (hhost : host.Within) (hctx : ctx.Within)
    (callee : Callee) (args : Array Term) (redo : Bool) :
    Engine.Within (invoke host ctx callee args redo) := by
  have hcalls := Effect.calls_staying hctx
  exact Effect.lawful_staying.invoke hcalls
    (Effect.lawful_staying.retries (fun _ _ _ _ => .of_note _)
      (fun _ => Engine.Within.of_keeps (Engine.keeps_pushChoice _)) hcalls)
    (fun b redo args => Builtin.within_execute hctx redo args b)
    (fun id redo args => hhost id ctx redo args hctx) callee args redo

/-- Calls stay within the search, and cleanup goals leave it as it was. -/
theorem within_contextWith {report : Fault → EngineM Exception} {host : Host} (hhost : host.Within)
    (hreport : ∀ f, Engine.Within (report f)) (n : Nat) : (contextWith report host n).Within := by
  induction n with
  | zero =>
    exact ⟨fun _ _ _ => .throw _, fun _ => .throw _, fun _ _ _ _ hne => absurd rfl hne, hreport⟩
  | succ n ih =>
    refine ⟨within_invoke hhost ih, fun goals s => ?_, fun goals s ha ho => ?_, hreport⟩
    · exact (Engine.leaves_runCleanups ih goals s).imp (fun _ _ h => h.1) fun _ _ h he => (h he).1
    · exact (Engine.leaves_runCleanups ih goals s).imp (fun _ _ h => h.2 ho ha)
        fun _ _ h he => (h he).2 ho ha

theorem within_context {host : Host} (hhost : host.Within) (n : Nat) : (context host n).Within :=
  within_contextWith hhost (fun _ => .of_keeps (Engine.keeps_onTerms (Exception.extending_ofError _))) n

end Solver

end Resolvent
