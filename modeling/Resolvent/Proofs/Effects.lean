import Resolvent.Solver
import Resolvent.Proofs.Outcome
import Resolvent.Proofs.Growth

/-!
# What a run does step by step

An `Effect` says how the workspace in which a step begins may be related to the one in which it ends,
with an answer, without one, or with a fault that has not been reported yet. If an effect is `Lawful`,
which is a matter of the operations of an engine, then whatever code is run has it: nothing is asked of the
code, so an instruction that faults or finds another choice point than it should has the effect as well. Of
the calls that code makes in turn it is asked that they have the effect (`Effect.Calls`).

A choice point at which a callee is asked for more solutions is made by `Activation.call` and
`Activation.backtrack` only, so what is claimed of such choice points can be claimed of these two
(`Effect.Retries`).
-/

namespace Resolvent

/-- What a step may do to a workspace. -/
structure Effect where
  /-- With an answer. -/
  ok : Workspace → Workspace → Prop
  /-- Without one. -/
  err : Stop → Workspace → Workspace → Prop
  /-- With a fault. -/
  fault : Fault → Workspace → Workspace → Prop := fun _ => ok

/-- The choice point is one at which a callee is asked for another solution. -/
def ChoiceKind.IsRetry : ChoiceKind → Prop
  | .retry .. => True
  | _ => False

namespace Effect

variable (F : Effect) {α β : Type}

/-- The step has the effect. -/
def Allows (x : EngineM α) : Prop :=
  ∀ s, Yields x s (fun _ s' => F.ok s s') fun e s' => F.err e s s'

/-- The calls have the effect. -/
structure Calls (ctx : Context) : Prop where
  /-- Calls of callees. -/
  invoke : ∀ callee args redo, F.Allows (ctx.invoke callee args redo)
  /-- Cleanup goals. -/
  runCleanups : ∀ goals, F.Allows (ctx.runCleanups goals)
  /-- Faults, counted from before what has led to them. -/
  report : ∀ f {s t}, F.fault f s t → Yields (ctx.report f) t (fun _ u => F.ok s u) fun e u => F.err e s u

/-- Steps one after the other have the effect if each of them has it. -/
structure Composes : Prop where
  /-- Nothing has been done. -/
  refl : ∀ s, F.ok s s
  /-- One thing after the other. -/
  trans : ∀ {s t u}, F.ok s t → F.ok t u → F.ok s u
  /-- Something has been done before the step was stopped. -/
  stopped : ∀ {s t u e}, F.ok s t → F.err e t u → F.err e s u
  /-- Exceptions can be caught. -/
  thrown : ∀ {x s t}, F.err (.thrown x) s t ↔ F.ok s t
  /-- The fuel may be spent anywhere. -/
  spent : ∀ s, F.err .spent s s
  /-- The code may be faulty anywhere. -/
  faulty : ∀ f s, F.fault f s s
  /-- Something has been done before a fault. -/
  faulted : ∀ {f s t u}, F.ok s t → F.fault f t u → F.fault f s u

/-- The operations of an engine have the effect. -/
structure Lawful : Prop extends Composes F where
  /-- The search passes through a workspace. -/
  pass : ∀ s, F.ok s s.pass
  /-- There is no room for an operand. -/
  overflow : ∀ s, F.fault .stackOverflow s (s.note (.of .limited))
  /-- Another limit does not allow what was to be done. -/
  exceed : ∀ resource, F.Allows (Engine.exceed resource : EngineM Unit)
  /-- A step on the symbols and bindings. -/
  onTerms : ∀ {α : Type} {x : StateM Universe α}, Universe.Extending x → F.Allows (Engine.onTerms x)
  /-- A goal is compiled. -/
  compileGoal : ∀ name goal, F.Allows (Engine.onDatabase (Database.compileGoal name goal))
  /-- A call looks for what it leads to. -/
  look : ∀ site tag args, F.Allows (Activation.look site tag args)
  /-- A mark is taken. -/
  mark : F.Allows Engine.mark
  /-- Bindings are undone. -/
  undoTo : ∀ m, F.Allows (Engine.undoTo m)
  /-- Terms are unified. -/
  unify : ∀ n s t, F.Allows (Engine.unify n s t)
  /-- Terms are unified, and a failed attempt leaves its bindings. -/
  unifyInPlace : ∀ n s t, F.Allows (Engine.unifyInPlace n s t)
  /-- A choice point is made that is not for a callee. -/
  pushChoice : ∀ {kind : ChoiceKind}, ¬kind.IsRetry → F.Allows (Engine.pushChoice kind)
  /-- A choice point is taken away. -/
  pop : F.Allows Engine.pop
  /-- Choice points are cut off. -/
  cutTo : ∀ n, F.Allows (Engine.cutTo n)
  /-- An alternative gets another place to go on at. -/
  setTop : ∀ m l, F.Allows (Engine.onChoices fun c => ((), c.setTop ⟨m, .alternative l⟩))
  /-- A call is counted. -/
  nested : ∀ {x : EngineM Answer}, F.Allows x → F.Allows (Solver.nested x)

variable {F}

instance : Coe F.Lawful F.Composes := ⟨Lawful.toComposes⟩

namespace Allows

section Composes

variable (hF : F.Composes)

include hF

theorem pure (a : α) : F.Allows (Pure.pure a) :=
  hF.refl

theorem get : F.Allows MonadState.get :=
  hF.refl

theorem thrown (x : Exception) : F.Allows (throw (.thrown x) : EngineM α) :=
  fun s => hF.thrown.mpr (hF.refl s)

theorem spent : F.Allows (throw .spent : EngineM α) :=
  hF.spent

theorem bind {x : EngineM α} {f : α → EngineM β} (hx : F.Allows x) (hf : ∀ a, F.Allows (f a)) :
    F.Allows (x >>= f) := by
  intro s
  rw [yields_bind]
  refine (hx s).imp (fun a t h => ?_) fun _ _ h => h
  exact (hf a t).imp (fun _ _ h' => hF.trans h h') fun _ _ h' => hF.stopped h h'

theorem map {x : EngineM α} (f : α → β) (hx : F.Allows x) : F.Allows (f <$> x) :=
  hx.bind hF fun _ => pure hF _

theorem deref (t : Term) : F.Allows (Engine.deref t) :=
  hF.refl

theorem height : F.Allows Engine.height :=
  hF.refl

theorem top? : F.Allows Engine.top? :=
  hF.refl

/-- A step reports faults that are like answers. -/
theorem reports (hfault : F.fault = fun _ => F.ok) {x : EngineM α} (hx : F.Allows x) (f : Fault)
    {s t : Workspace} (h : F.fault f s t) : Yields x t (fun _ u => F.ok s u) fun e u => F.err e s u := by
  rw [hfault] at h
  exact (hx t).imp (fun _ _ h' => hF.trans h h') fun _ _ h' => hF.stopped h h'

end Composes

variable (hF : F.Lawful)

include hF

theorem raise (e : ErrorKind) : F.Allows (Engine.raise e : EngineM α) :=
  bind hF (hF.onTerms (Exception.extending_ofError e)) fun x => thrown hF x

theorem throwTerm (t : Term) : F.Allows (Engine.throwTerm t : EngineM α) :=
  (hF.onTerms (Exception.extending_ofTerm t)).bind hF fun _ => thrown hF _

theorem unifyOnce (n : Nat) (s t : Term) : F.Allows (Engine.unifyOnce n s t) :=
  (hF.unify n s t).bind hF fun _ => pure hF _

theorem pushNativeState (state : NativeState) : F.Allows (Engine.pushNativeState state) :=
  hF.pushChoice id

theorem popNativeState : F.Allows Engine.popNativeState := by
  refine (top? hF).bind hF fun p => ?_
  split
  · exact hF.pop.bind hF fun _ => (hF.undoTo _).bind hF fun _ => pure hF _
  · exact pure hF _

theorem popCleanup : F.Allows Engine.popCleanup := by
  refine (top? hF).bind hF fun p => ?_
  split
  · exact hF.pop.bind hF fun _ => pure hF _
  · exact pure hF _

end Allows

/-- Faults are reported with the effect. -/
theorem Calls.allows_report {ctx : Context} (hF : F.Composes) (h : F.Calls ctx) (f : Fault) :
    F.Allows (ctx.report f) :=
  fun s => h.report f (hF.faulty f s)

/-! ### Steps of an activation -/

/-- What an interrupt may do to a workspace. -/
def interrupts (F : Effect) : Interrupt → Workspace → Workspace → Prop
  | .stop e => F.err e
  | .fault f => F.fault f

/-- The step of an activation has the effect, and the activation goes on with the same code. -/
def AllowsIn (F : Effect) (x : MachineM α) : Prop :=
  ∀ m, Yields x m
    (fun _ m' => m'.activation.code = m.activation.code ∧ F.ok m.workspace m'.workspace)
    fun i m' => m'.activation.code = m.activation.code ∧ F.interrupts i m.workspace m'.workspace

/-- The steps that make choice points for callees have the effect. -/
structure Retries (F : Effect) (ctx : Context) : Prop where
  /-- Calls. -/
  call : ∀ n, F.AllowsIn (Activation.call ctx n)
  /-- Steps back. -/
  backtrack : F.AllowsIn (Activation.backtrack ctx)

namespace AllowsIn

variable (hF : F.Lawful)

include hF

theorem pure (a : α) : F.AllowsIn (Pure.pure a) :=
  fun m => ⟨rfl, hF.refl m.workspace⟩

theorem get : F.AllowsIn MonadState.get :=
  fun m => ⟨rfl, hF.refl m.workspace⟩

theorem fault (f : Fault) : F.AllowsIn (Activation.fault f : MachineM α) :=
  fun m => ⟨rfl, hF.faulty f m.workspace⟩

theorem update {f : Activation → Activation} (hf : ∀ a, (f a).code = a.code) :
    F.AllowsIn (Activation.update f) :=
  fun m => ⟨hf m.activation, hF.refl m.workspace⟩

theorem bind {x : MachineM α} {f : α → MachineM β} (hx : F.AllowsIn x)
    (hf : ∀ a, F.AllowsIn (f a)) : F.AllowsIn (x >>= f) := by
  intro m
  rw [yields_bind]
  refine (hx m).imp (fun a m' h => ?_) fun _ _ h => h
  refine (hf a m').imp (fun _ _ h' => ⟨h'.1.trans h.1, hF.trans h.2 h'.2⟩) fun i _ h' => ?_
  refine ⟨h'.1.trans h.1, ?_⟩
  cases i with
  | stop e => exact hF.stopped h.2 h'.2
  | fault f => exact hF.faulted h.2 h'.2

omit hF in
theorem onWorkspace {x : EngineM α} (hx : F.Allows x) : F.AllowsIn (Activation.onWorkspace x) :=
  fun m => Activation.yields_onWorkspace.mpr
    ((hx m.workspace).imp (fun _ _ h => ⟨rfl, h⟩) fun _ _ h => ⟨rfl, h⟩)

theorem orFault (f : Fault) (o : Option α) : F.AllowsIn (Activation.orFault f o) := by
  cases o with
  | none => exact fault hF f
  | some a => exact pure hF a

theorem push (t : Term) : F.AllowsIn (Activation.push t) := by
  intro m
  unfold Yields Activation.push
  dsimp only
  split <;> rename_i heq <;> split at heq <;> cases heq
  · exact ⟨rfl, hF.refl m.workspace⟩
  · exact ⟨rfl, hF.overflow m.workspace⟩

theorem pop : F.AllowsIn Activation.pop := by
  intro m
  unfold Yields Activation.pop
  dsimp only
  split <;> rename_i heq <;> split at heq <;> cases heq
  · exact ⟨rfl, hF.refl m.workspace⟩
  · exact ⟨rfl, hF.faulty _ m.workspace⟩

theorem popMany (n : Nat) : F.AllowsIn (Activation.popMany n) := by
  intro m
  unfold Yields Activation.popMany
  dsimp only
  split <;> rename_i heq <;> split at heq <;> cases heq
  · exact ⟨rfl, hF.refl m.workspace⟩
  · exact ⟨rfl, hF.faulty _ m.workspace⟩

theorem store (n : UInt16) (v : Slot) : F.AllowsIn (Activation.store n v) := by
  intro m
  unfold Yields Activation.store
  dsimp only
  split <;> rename_i heq <;> split at heq <;> cases heq
  · exact ⟨rfl, hF.refl m.workspace⟩
  · exact ⟨rfl, hF.faulty _ m.workspace⟩

theorem barrier (n : UInt16) : F.AllowsIn (Activation.barrier n) := by
  refine (get hF).bind hF fun m => ?_
  split
  · exact pure hF _
  · exact fault hF _
  · exact fault hF _

theorem slotTerm (n : UInt16) : F.AllowsIn (Activation.slotTerm n) := by
  refine (get hF).bind hF fun m => ?_
  split
  · exact pure hF _
  · exact fault hF _
  · exact fault hF _

theorem place (l : UInt32) : F.AllowsIn (Activation.place l) := by
  refine (get hF).bind hF fun m => ?_
  split
  · exact pure hF _
  · exact fault hF _

theorem tag (n : UInt16) : F.AllowsIn (Activation.tag n) :=
  (get hF).bind hF fun _ => orFault hF _ _

/-- A check that faults, and what follows. -/
theorem guard {p : Prop} [Decidable p] {x : MachineM PUnit} {f : PUnit → MachineM α}
    (hx : F.AllowsIn x) (hf : ∀ a, F.AllowsIn (f a)) :
    F.AllowsIn (if p then x >>= f else f ⟨⟩) := by
  split
  · exact hx.bind hF hf
  · exact hf _

/-- A last step, after which the activation goes on with the next instruction. -/
theorem forward {x : MachineM α} (hx : F.AllowsIn x) :
    F.AllowsIn (x >>= fun _ => Pure.pure Course.forward) :=
  hx.bind hF fun _ => pure hF _

end AllowsIn

namespace Lawful

variable {ctx : Context} (hF : F.Lawful)

include hF

open Activation (yields_onWorkspace run_of_ok run_of_caught run_of_uncaught)

/-! ### Choice points for callees -/

theorem proceed (hpush : ∀ kind, F.Allows (Engine.pushChoice kind)) (callee : Callee)
    (args : Array Term) (resume callAt : Nat) (a : Answer) :
    F.AllowsIn (Activation.proceed callee args resume callAt a) := by
  cases a with
  | more => exact (AllowsIn.onWorkspace (hpush _)).bind hF fun _ => .pure hF _
  | last => exact .pure hF _
  | fail => exact .pure hF _

theorem find (n : UInt16) : F.AllowsIn (Activation.find n) := by
  refine (AllowsIn.tag hF n).bind hF fun tag => (AllowsIn.get hF).bind hF fun m => ?_
  refine (AllowsIn.popMany hF _).bind hF fun args => (AllowsIn.get hF).bind hF fun m => ?_
  exact .onWorkspace (hF.look _ _ _)

/-- A callee is called, or asked for another solution, and that this is done is told. -/
theorem tellInvoke (htell : ∀ callee args redo s, F.ok s (s.note (.of (.invoked callee args redo))))
    (hctx : F.Calls ctx) (callee : Callee) (args : Array Term) (redo : Bool) :
    F.Allows (Activation.invoke ctx callee args redo) :=
  Allows.bind hF (x := Engine.note _) (htell callee args redo) fun _ => hctx.invoke _ _ _

theorem call (htell : ∀ callee args redo s, F.ok s (s.note (.of (.invoked callee args redo))))
    (hpush : ∀ kind, F.Allows (Engine.pushChoice kind)) (hctx : F.Calls ctx) (n : UInt16) :
    F.AllowsIn (Activation.call ctx n) := by
  refine (hF.find n).bind hF fun r => ?_
  cases r with
  | none => exact .pure hF _
  | some r =>
    refine (AllowsIn.onWorkspace (hF.tellInvoke htell hctx _ _ _)).bind hF fun a => ?_
    exact (AllowsIn.get hF).bind hF fun m => hF.proceed hpush _ _ _ _ _

theorem backtrack (htell : ∀ callee args redo s, F.ok s (s.note (.of (.invoked callee args redo))))
    (hpush : ∀ kind, F.Allows (Engine.pushChoice kind)) (hctx : F.Calls ctx) :
    F.AllowsIn (Activation.backtrack ctx) := by
  refine (AllowsIn.onWorkspace (.height hF)).bind hF fun height => (AllowsIn.get hF).bind hF fun m => ?_
  refine .guard hF (.fault hF _) fun _ => (AllowsIn.onWorkspace (.top? hF)).bind hF fun p => ?_
  split
  · exact .fault hF _
  · refine (AllowsIn.onWorkspace (hF.undoTo _)).bind hF fun _ => ?_
    exact (AllowsIn.update hF fun _ => by rfl).bind hF fun _ => .pure hF _
  · refine (AllowsIn.onWorkspace hF.pop).bind hF fun _ => ?_
    refine (AllowsIn.onWorkspace (hF.undoTo _)).bind hF fun _ => ?_
    split
    · exact .pure hF _
    · refine (AllowsIn.update hF fun _ => by rfl).bind hF fun _ => ?_
      refine (AllowsIn.onWorkspace (hF.tellInvoke htell hctx _ _ _)).bind hF fun a => ?_
      exact hF.proceed hpush _ _ _ _ _
    · exact (AllowsIn.onWorkspace (hctx.runCleanups _)).bind hF fun _ => .pure hF _
    · exact .pure hF _
    · exact .pure hF _
    · exact .pure hF _

/-- Where all choice points are alike, there is nothing to be claimed of those for callees. -/
theorem retries (htell : ∀ callee args redo s, F.ok s (s.note (.of (.invoked callee args redo))))
    (hpush : ∀ kind, F.Allows (Engine.pushChoice kind)) (hctx : F.Calls ctx) : F.Retries ctx :=
  ⟨hF.call htell hpush hctx, hF.backtrack htell hpush hctx⟩

/-! ### Instructions -/

theorem leave : F.AllowsIn Activation.leave := by
  refine (AllowsIn.onWorkspace (.height hF)).bind hF fun height => (AllowsIn.get hF).bind hF fun m => ?_
  dsimp only
  split
  · exact .fault hF _
  split
  · exact (AllowsIn.onWorkspace hF.pop).bind hF fun _ => .pure hF _
  · refine AllowsIn.bind hF (fun m => ⟨rfl, hF.refl m.workspace⟩) fun slots => ?_
    exact (AllowsIn.onWorkspace (hF.pushChoice id)).bind hF fun _ => .pure hF _

/-- Every instruction has the effect. -/
theorem perform (hctx : F.Calls ctx) (hretries : F.Retries ctx)
    (i : Instruction UInt16 UInt16 UInt32) : F.AllowsIn (Activation.perform ctx i) := by
  cases i with
  | pop => exact .forward hF fun m => yields_discard.mpr (AllowsIn.pop hF m)
  | dup =>
    exact (AllowsIn.get hF).bind hF fun m => (AllowsIn.orFault hF _ _).bind hF fun t =>
      .forward hF (.push hF t)
  | pushConstant n =>
    exact (AllowsIn.get hF).bind hF fun m => (AllowsIn.orFault hF _ _).bind hF fun t =>
      .forward hF (.push hF t)
  | pushArgument n =>
    exact (AllowsIn.get hF).bind hF fun m => (AllowsIn.orFault hF _ _).bind hF fun t =>
      .forward hF (.push hF t)
  | pushEnvironment n =>
    exact (AllowsIn.slotTerm hF n).bind hF fun t => .forward hF (.push hF t)
  | createVariable =>
    exact (AllowsIn.onWorkspace (hF.onTerms Universe.extending_fresh)).bind hF fun t =>
      .forward hF (.push hF _)
  | createCompound n =>
    refine (AllowsIn.tag hF n).bind hF fun tag => (AllowsIn.get hF).bind hF fun m => ?_
    refine (AllowsIn.popMany hF _).bind hF fun args => ?_
    refine (AllowsIn.onWorkspace (hF.onTerms (Universe.extending_compound _ _))).bind hF fun t => ?_
    exact .forward hF (.push hF t)
  | allocate n => exact .forward hF (.update hF fun _ => by rfl)
  | storeEnvironment n => exact (AllowsIn.pop hF).bind hF fun t => .forward hF (.store hF n _)
  | jump l => exact (AllowsIn.place hF l).bind hF fun target => .forward hF (.update hF fun _ => by rfl)
  | call n => exact hretries.call n
  | leave => exact hF.leave
  | succeed => exact .pure hF _
  | unify =>
    refine (AllowsIn.pop hF).bind hF fun t => (AllowsIn.pop hF).bind hF fun s => ?_
    exact (AllowsIn.onWorkspace (hF.unifyInPlace _ _ _)).bind hF fun b => .pure hF _
  | tryMeElse l =>
    exact (AllowsIn.place hF l).bind hF fun target => .forward hF (.onWorkspace (hF.pushChoice id))
  | retryMeElse l =>
    refine (AllowsIn.place hF l).bind hF fun target => ?_
    refine (AllowsIn.onWorkspace (.top? hF)).bind hF fun p => ?_
    split
    · exact .forward hF (.onWorkspace (hF.setTop _ _))
    · exact .fault hF _
  | trustMe =>
    refine (AllowsIn.onWorkspace (.top? hF)).bind hF fun p => ?_
    split
    · exact .forward hF (.onWorkspace hF.pop)
    · exact .fault hF _
  | fail => exact .pure hF _
  | cut n =>
    refine (AllowsIn.barrier hF n).bind hF fun b => (AllowsIn.get hF).bind hF fun m => ?_
    refine (AllowsIn.onWorkspace (hF.cutTo _)).bind hF fun goals => ?_
    split
    · exact .pure hF _
    · exact .forward hF (.onWorkspace (hctx.runCleanups goals))
  | saveCut n =>
    refine (AllowsIn.onWorkspace (.height hF)).bind hF fun height => ?_
    exact (AllowsIn.onWorkspace hF.mark).bind hF fun mark => .forward hF (.store hF n _)
  | raise =>
    refine (AllowsIn.pop hF).bind hF fun t => ?_
    refine (AllowsIn.onWorkspace (.deref hF t)).bind hF fun t' => ?_
    split
    · exact .onWorkspace (.raise hF _)
    · exact .onWorkspace (.throwTerm hF _)

theorem step (hctx : F.Calls ctx) (hretries : F.Retries ctx) (c : Course) :
    F.AllowsIn (Activation.step ctx c) := by
  cases c with
  | forward =>
    refine (AllowsIn.get hF).bind hF fun m => ?_
    dsimp only
    split
    · exact (AllowsIn.update hF fun _ => by rfl).bind hF fun _ => .fault hF _
    · exact (AllowsIn.update hF fun _ => by rfl).bind hF fun _ => hF.perform hctx hretries _
  | backward => exact hretries.backtrack
  | answer a => exact .pure hF _

/-! ### Runs -/

theorem handle (hctx : F.Calls ctx) (e : Exception) (a : Activation) :
    F.Allows (Activation.handle ctx e a) := by
  rw [Activation.handle]
  split
  · refine (hF.cutTo _).bind hF fun goals => (hctx.runCleanups _).bind hF fun _ => ?_
    exact (hF.undoTo _).bind hF fun _ => .pure hF _
  · refine (Allows.get hF).bind hF fun s => (hF.cutTo _).bind hF fun goals => ?_
    refine (hctx.runCleanups _).bind hF fun _ => ?_
    split
    · exact (hF.undoTo _).bind hF fun _ => .thrown hF _
    · exact .thrown hF e

/-- What an instruction was interrupted by is settled with the effect, counted from before the
instruction. -/
theorem settle (hctx : F.Calls ctx) (a : Activation) {s t : Workspace} {i : Interrupt}
    (hi : F.interrupts i s t) : Yields (Activation.settle ctx i a) t (fun _ u => F.ok s u)
      fun e u => F.err e s u := by
  have hball {t : Workspace} (ht : F.ok s t) (x : Exception) : Yields (Activation.handle ctx x a) t
      (fun _ u => F.ok s u) fun e u => F.err e s u :=
    (hF.handle hctx x a t).imp (fun _ _ h => hF.trans ht h) fun _ _ h => hF.stopped ht h
  rcases i with (x | n) | f
  · exact hball (hF.thrown.mp hi) x
  · exact hi
  · exact hi
  · rw [Activation.settle, yields_bind]
    exact (hctx.report f hi).imp (fun x _ h => hball h x) fun _ _ h => h

theorem run (hctx : F.Calls ctx) (hretries : F.Retries ctx) (n : Nat) :
    ∀ (c : Course) (a : Activation), F.Allows (Activation.run ctx n c a) := by
  induction n with
  | zero => exact fun _ _ => .spent hF
  | succ n ih =>
    intro c a s
    by_cases hc : ∃ b, c = .answer b
    · obtain ⟨b, rfl⟩ := hc
      exact hF.refl s
    have hc (b : Answer) : c ≠ .answer b := fun heq => hc ⟨b, heq⟩
    -- what the run does from a workspace that the step has led to
    have hrest (c : Course) (a : Activation) {t : Workspace} (ht : F.ok s t) :
        Yields (Activation.run ctx n c a) t (fun _ u => F.ok s u) fun e u => F.err e s u :=
      (ih c a t).imp (fun _ _ h => hF.trans ht h) fun _ _ h => hF.stopped ht h
    have hpass := hF.pass s
    have hstep := hF.step hctx hretries c ⟨s.pass, a⟩
    cases hx : Activation.step ctx c ⟨s.pass, a⟩ with
    | ok c' m =>
      rw [Yields, run_of_ok hc hx]
      exact hrest c' m.activation (hF.trans hpass (yields_ok hstep hx).2)
    | error i m =>
      have hi : F.interrupts i s m.workspace := by
        have hm := (yields_error hstep hx).2
        cases i with
        | stop e => exact hF.stopped hpass hm
        | fault f => exact hF.faulted hpass hm
      have hsettle := hF.settle hctx m.activation hi
      cases hx' : Activation.settle ctx i m.activation m.workspace with
      | ok a' u =>
        rw [Yields, run_of_caught hc hx hx']
        exact hrest .forward a' (yields_ok hsettle hx' :)
      | error e u =>
        rw [Yields, run_of_uncaught hc hx hx']
        exact (yields_error hsettle hx' :)

theorem start (hctx : F.Calls ctx) (hretries : F.Retries ctx) (code : Code) (args : Array Term) :
    F.Allows (Activation.start ctx code args) :=
  (hF.pushChoice id).bind hF fun _ => (Allows.height hF).bind hF fun _ => hF.run hctx hretries _ _ _

theorem resume (hctx : F.Calls ctx) (hretries : F.Retries ctx) (code : Code) (args : Array Term) :
    F.Allows (Activation.resume ctx code args) := by
  refine (Allows.top? hF).bind hF fun p => ?_
  split
  · refine hF.pop.bind hF fun _ => (hF.undoTo _).bind hF fun _ => ?_
    exact hF.run hctx hretries _ _ _
  · exact (hctx.allows_report hF _).bind hF fun _ => .thrown hF _

/-! ### Predicates that every database has -/

theorem integer (t : Term) : F.Allows (Builtin.integer t) := by
  refine (Allows.deref hF t).bind hF fun t' => ?_
  split
  · exact .raise hF _
  · exact .pure hF _
  · exact .raise hF _

theorem rangeEnd (t : Term) : F.Allows (Builtin.rangeEnd t) := by
  refine (Allows.deref hF t).bind hF fun t' => ?_
  split
  · refine (Allows.get hF).bind hF fun s => ?_
    dsimp only
    split
    · exact .pure hF _
    · exact (hF.integer t).bind hF fun _ => .pure hF _
  · exact (hF.integer t).bind hF fun _ => .pure hF _

theorem reportRange (t : Term) (n : Int64) (last : Option Int64) :
    F.Allows (Builtin.reportRange ctx t n last) := by
  rw [Builtin.reportRange]
  split
  · exact .pure hF _
  have hunify (a : Answer) : F.Allows (do
      if ← Engine.unify ctx.fuel t (.int n) then return a else return .fail : EngineM Answer) := by
    refine (hF.unify _ _ _).bind hF fun b => ?_
    split
    · exact .pure hF _
    · exact .pure hF _
  dsimp only
  split
  · exact hunify _
  · exact (Allows.pushNativeState hF _).bind hF fun _ => hunify _

theorem between (redo : Bool) (args : Array Term) : F.Allows (Builtin.runBetween ctx redo args) := by
  rw [Builtin.runBetween]
  split
  · refine (Allows.popNativeState hF).bind hF fun p => ?_
    split
    · exact hF.reportRange _ _ _
    · exact .pure hF _
  · refine (hF.integer _).bind hF fun low => (hF.rangeEnd _).bind hF fun high => ?_
    refine (Allows.deref hF _).bind hF fun t => ?_
    split
    · exact hF.reportRange _ _ _
    · exact .pure hF _
    · exact .raise hF _

theorem findall (hcollect : ∀ template goal, F.Allows (Engine.collect ctx template goal none))
    (args : Array Term) : F.Allows (Builtin.runFindall ctx args) :=
  (hcollect _ _).bind hF fun found => (hF.onTerms (Universe.extending_list found _)).bind hF fun _ =>
    .unifyOnce hF _ _ _

theorem callCleanup (hfinish : ∀ code args redo, F.Allows (Builtin.finish ctx code args redo))
    (redo : Bool) (args : Array Term) : F.Allows (Builtin.runCallCleanup ctx redo args) := by
  rw [Builtin.runCallCleanup]
  split
  · refine (Allows.popNativeState hF).bind hF fun p => ?_
    split
    · exact hfinish _ _ _
    · exact .pure hF _
  · refine (hF.compileGoal _ _).bind hF fun r => ?_
    exact (hF.pushChoice id).bind hF fun _ => hfinish _ _ _

theorem halt (hquit : ∀ n, F.Allows (Engine.quit n : EngineM Answer)) (args : Array Term) :
    F.Allows (Builtin.runHalt args) := by
  rw [Builtin.runHalt]
  split
  · exact hquit 0
  · refine (hF.integer _).bind hF fun n => ?_
    dsimp only
    split
    · exact hquit _
    · exact .raise hF _

/-! ### Calls -/

theorem checkDepth : F.Allows Solver.checkDepth := by
  refine (Allows.get hF).bind hF fun s => ?_
  have hstack : F.Allows (if s.engine.config.maxStackBytes < s.engine.depth * Solver.bytesPerCall
      then Engine.exceed "stack" else pure () : EngineM Unit) := by
    split
    · exact hF.exceed _
    · exact .pure hF _
  dsimp only
  split
  · exact (hF.exceed _).bind hF fun _ => hstack
  · exact hstack

/-- A call has the effect if the native predicates have it. -/
theorem invoke {host : Host} (hctx : F.Calls ctx) (hretries : F.Retries ctx)
    (hbuiltin : ∀ (b : Builtin) redo args, F.Allows (b.execute ctx redo args))
    (hhost : ∀ id redo args, F.Allows (host id ctx redo args))
    (callee : Callee) (args : Array Term) (redo : Bool) :
    F.Allows (Solver.invoke host ctx callee args redo) := by
  refine hF.checkDepth.bind hF fun _ => hF.nested ?_
  rcases callee with code | b | id
  · dsimp only
    split
    · exact hF.resume hctx hretries code args
    · exact hF.start hctx hretries code args
  · exact hbuiltin b redo args
  · exact hhost id redo args

/-- All calls, with whatever fuel, have the effect if the native predicates, cleanup goals and reports
of faults have it. -/
theorem contextWith {report : Fault → EngineM Exception} {host : Host}
    (hretries : ∀ ctx, F.Calls ctx → F.Retries ctx)
    (hbuiltin : ∀ ctx, F.Calls ctx → ∀ (b : Builtin) redo args, F.Allows (b.execute ctx redo args))
    (hhost : ∀ ctx, F.Calls ctx → ∀ id redo args, F.Allows (host id ctx redo args))
    (hcleanups : ∀ ctx, F.Calls ctx → ∀ goals, F.Allows (Engine.runCleanups ctx goals))
    (hreport : ∀ f {s t}, F.fault f s t → Yields (report f) t (fun _ u => F.ok s u) fun e u => F.err e s u)
    (n : Nat) : F.Calls (Solver.contextWith report host n) := by
  induction n with
  | zero => exact ⟨fun _ _ _ => .spent hF, fun _ => .spent hF, hreport⟩
  | succ n ih =>
    exact ⟨hF.invoke ih (hretries _ ih) (hbuiltin _ ih) (hhost _ ih), hcleanups _ ih, hreport⟩

end Lawful

end Effect

end Resolvent
