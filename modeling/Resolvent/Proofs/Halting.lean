import Resolvent.Proofs.Effects
import Resolvent.Proofs.Hosting
import Resolvent.Proofs.Phases

/-!
# The end of a run cannot be intercepted

Whatever code is run in a search, its chronicle leads from `running` to the phase that belongs to its
end: this is a lawful effect (`Effect.flowing`), as long as everything in the chronicle is as it should
be. So if the end of the run is asked for while a goal is executed, outside of cleanup goals, then
nothing is done any more but by the cleanup goals of nested searches that are dropped, and the
execution ends with the exit status that was asked for, unless one of these cleanup goals spends the
fuel (`Engine.halt_not_intercepted`).
-/

namespace Resolvent

open Chronicle (Phase Flow)

namespace Workspace

/-- What is known of two parts, unless something is not as it should be, is known of them together. -/
theorem splice {P Q R : Chronicle → Prop} {s t u : Workspace} (hR : ∀ {l l'}, P l → Q l' → R (l' ++ l))
    (h : ∃ l, t.chronicle = l ++ s.chronicle ∧ ((∀ e ∈ l, e.Sound) → P l))
    (h' : ∃ l, u.chronicle = l ++ t.chronicle ∧ ((∀ e ∈ l, e.Sound) → Q l)) :
    ∃ l, u.chronicle = l ++ s.chronicle ∧ ((∀ e ∈ l, e.Sound) → R l) := by
  obtain ⟨l, ht, hl⟩ := h
  obtain ⟨l', hu, hl'⟩ := h'
  refine ⟨l' ++ l, by rw [hu, ht, List.append_assoc], fun hsound => ?_⟩
  exact hR (hl fun e he => hsound e (List.mem_append_right _ he))
    (hl' fun e he => hsound e (List.mem_append_left _ he))

/-- What happens leads a search from one phase to another, unless something is not as it should be. -/
def Flows (φ ψ : Phase) (s t : Workspace) : Prop :=
  ∃ l, t.chronicle = l ++ s.chronicle ∧ ((∀ e ∈ l, e.Sound) → Flow l φ ψ)

namespace Flows

variable {φ ψ χ : Phase} {s t u : Workspace}

/-- Nothing happens. -/
theorem quiet (h : t.chronicle = s.chronicle) : Flows φ φ s t :=
  ⟨[], h, fun _ => .nil⟩

theorem refl (s : Workspace) : Flows φ φ s s :=
  quiet rfl

theorem trans (h : Flows φ ψ s t) (h' : Flows ψ χ t u) : Flows φ χ s u :=
  splice Flow.trans h h'

/-- Something happens. -/
theorem note {e : Ghost Chronicle.Event} (h : e.value.Sound → ∀ φs, e.value.Shifts (φ :: φs) (ψ :: φs)) :
    Flows φ ψ s (s.note e) :=
  ⟨[e.value], chronicle_note s e, fun hsound => .event (h (hsound _ (List.mem_singleton_self _)))⟩

/-- A cleanup goal is run to its end. -/
theorem cleanup {goal : Term} (h : Flows .running .running (s.note (.of (.started goal))) t)
    (hφ : φ.Starts) : Flows φ φ s (t.note (.of (.ended goal))) := by
  obtain ⟨l, ht, hl⟩ := h
  refine ⟨.ended goal :: (l ++ [.started goal]), ?_, fun hsound => .cleanup (hl fun e he => ?_) hφ⟩
  · simp [ht]
  · exact hsound e (by simp [he])

/-- A cleanup goal asks for the end of the run. -/
theorem asked {goal : Term} (h : Flows .running ψ (s.note (.of (.started goal))) t) (hψ : ψ.Quits)
    (hφ : φ.Starts) : Flows φ φ.interrupted s (t.note (.of (.halted goal))) := by
  obtain ⟨l, ht, hl⟩ := h
  refine ⟨.halted goal :: (l ++ [.started goal]), ?_, fun hsound => .asked (hl fun e he => ?_) hψ hφ⟩
  · simp [ht]
  · exact hsound e (by simp [he])

/-- What is left of a search is dropped. -/
theorem drop (h : Flows .stopping .stopping (s.note (.of .stopping)) t) (hφ : φ ≠ .stopping) :
    Flows φ φ s (t.note (.of .stopped)) := by
  obtain ⟨l, ht, hl⟩ := h
  refine ⟨.stopped :: (l ++ [.stopping]), ?_, fun hsound => .drop (hl fun e he => ?_) hφ⟩
  · simp [ht]
  · exact hsound e (by simp [he])

/-- A search that a cleanup goal has just ended has not asked for the end itself. -/
theorem lost {n : Int} (h : Flows .running (.quitting n) s t) (hasked : t.Asked) :
    Flows .running .lost s t := by
  obtain ⟨l, ht, hl⟩ := h
  refine ⟨l, ht, fun hsound => ?_⟩
  have hflow := hl hsound
  obtain ⟨goal, l', hl'⟩ := hasked
  obtain _ | ⟨e, l⟩ := l
  · cases hflow []
  · rw [ht, List.cons_append, List.cons.injEq] at hl'
    rw [hl'.1] at hflow
    exact absurd rfl (hflow.ne_quitting n)

end Flows

/-- What happens breaks off in a search that has not asked for the end of the run, or within what a drop
of that search has begun, unless something is not as it should be. -/
def Breaks (φ : Phase) (s t : Workspace) : Prop :=
  ∃ l, t.chronicle = l ++ s.chronicle ∧ ((∀ e ∈ l, e.Sound) → Chronicle.Breaks l φ)

/-- What happens breaks off within something that has begun in the phase, unless something is not as it
should be. -/
def BreaksWithin (φ : Phase) (s t : Workspace) : Prop :=
  ∃ l, t.chronicle = l ++ s.chronicle ∧ ((∀ e ∈ l, e.Sound) → Chronicle.BreaksWithin l φ)

section Breaks

variable {φ ψ : Phase} {s t u : Workspace}

theorem Breaks.here (hφ : φ.Starts) (s : Workspace) : Breaks φ s s :=
  ⟨[], rfl, fun _ => .here hφ⟩

theorem Flows.breaks (h : Flows φ ψ s t) (h' : Breaks ψ t u) : Breaks φ s u :=
  splice Flow.breaks h h'

theorem Flows.breaksWithin (h : Flows φ φ s t) (h' : BreaksWithin φ t u) : BreaksWithin φ s u :=
  splice Flow.breaksWithin h h'

/-- Something begins in the phase, and breaks off. -/
theorem Breaks.within {e : Chronicle.Event} (h : Breaks ψ (s.note (.of e)) t)
    (he : e.Shifts [φ] [ψ, φ]) : BreaksWithin φ s t := by
  obtain ⟨l, ht, hl⟩ := h
  refine ⟨l ++ [e], by simp [ht], fun hsound => (hl fun e' he' => ?_).within he⟩
  exact hsound e' (List.mem_append_left _ he')

theorem BreaksWithin.breaks (h : BreaksWithin φ s t) (hφ : φ.Starts) : Breaks φ s t := by
  obtain ⟨l, ht, hl⟩ := h
  exact ⟨l, ht, fun hsound => (hl hsound).breaks hφ⟩

/-- A drop breaks off within what it has begun. -/
theorem BreaksWithin.dropped (h : BreaksWithin .stopping (s.note (.of .stopping)) t)
    (hφ : φ ≠ .stopping) : Breaks φ s t := by
  obtain ⟨l, ht, hl⟩ := h
  refine ⟨l ++ [.stopping], by simp [ht], fun hsound => (hl fun e he => ?_).dropped hφ⟩
  exact hsound e (List.mem_append_left _ he)

end Breaks

end Workspace

open Workspace (Flows Breaks BreaksWithin)

namespace Effect

/-! ### Steps that are not told of -/

/-- To do nothing that is told of. -/
def silent : Effect where
  ok s t := t.chronicle = s.chronicle
  err e s t := match e with
    | .thrown _ => t.chronicle = s.chronicle
    | .halted _ => False
    | .spent => t.chronicle = s.chronicle

theorem composes_silent : silent.Composes where
  refl _ := rfl
  trans h h' := h'.trans h
  stopped {_ _ _ e} h h' := by
    cases e with
    | thrown x => exact h'.trans h
    | halted n => exact h'
    | spent => exact h'.trans h
  thrown := .rfl
  spent _ := rfl
  faulty _ _ := rfl
  faulted h h' := h'.trans h

theorem silent_onDatabase {α : Type} (x : DatabaseM α) : silent.Allows (Engine.onDatabase x) := by
  intro s
  rw [Engine.yields_onDatabase]
  unfold Yields
  split <;> rfl

theorem silent_onTerms {α : Type} (x : StateM Universe α) : silent.Allows (Engine.onTerms x) :=
  fun _ => rfl

theorem silent_onBindings {α : Type} (x : Store → Trail Empty → α × Store × Trail Empty) :
    silent.Allows (Engine.onBindings x) :=
  fun _ => rfl

theorem silent_onChoices {α : Type} (x : ChoiceStack → α × ChoiceStack) :
    silent.Allows (Engine.onChoices x) :=
  fun _ => rfl

theorem silent_answered {α : Type} (o : Option α) : silent.Allows (Engine.answered o) := by
  cases o with
  | none => exact fun _ => rfl
  | some a => exact fun _ => rfl

theorem silent_raise {α : Type} (e : ErrorKind) : silent.Allows (Engine.raise e : EngineM α) :=
  silent_onDatabase _

theorem silent_findCallee (site : Nat) (tag : Tag) (args : Array Term) :
    silent.Allows (Activation.findCallee site tag args) := by
  have hsilent := composes_silent
  refine (Allows.get hsilent).bind hsilent fun s => (Allows.get hsilent).bind hsilent fun s' => ?_
  split
  · exact .pure hsilent _
  · refine (silent_onDatabase _).bind hsilent fun r => ?_
    cases r with
    | callee callee => exact Allows.bind hsilent (fun _ => rfl) fun _ => .pure hsilent _
    | control => exact (silent_onDatabase _).bind hsilent fun _ => .pure hsilent _
    | undefined =>
      refine (Allows.get hsilent).bind hsilent fun s => ?_
      split
      · exact .pure hsilent _
      · exact (silent_onTerms _).bind hsilent fun x => .thrown hsilent x

theorem silent_prepare (goal : Term) : silent.Allows (Engine.prepare goal) := by
  have hsilent := composes_silent
  have hactivate : silent.Allows Engine.activate := fun _ => rfl
  refine (silent_onDatabase _).bind hsilent fun r => (Allows.get hsilent).bind hsilent fun s => ?_
  dsimp only
  split
  · exact Allows.bind hsilent (fun _ => rfl) fun _ => hactivate.bind hsilent fun _ => .pure hsilent _
  · exact hactivate.bind hsilent fun _ => .pure hsilent _

/-! ### Steps that are told of -/

/-- What a search tells of that goes on. -/
def Continues : Chronicle.Event → Prop
  | .passed _ | .looked _ | .invoked .. | .held _ | .limited => True
  | _ => False

/-- Only what is told counts for the effect, and a search that goes on has it. -/
structure Narrates (F : Effect) : Prop extends Composes F where
  /-- Nothing is told. -/
  quiet : ∀ {s t}, t.chronicle = s.chronicle → F.ok s t
  /-- The search goes on. -/
  continues : ∀ {e : Ghost Chronicle.Event} (s), Continues e.value → F.ok s (s.note e)
  /-- A call is counted. -/
  nested : ∀ {x : EngineM Answer}, F.Allows x → F.Allows (Solver.nested x)

namespace Narrates

variable {F : Effect} {α : Type} (hF : F.Narrates)

include hF

theorem of_silent {x : EngineM α} (h : silent.Allows x) : F.Allows x := by
  refine fun s => (h s).imp (fun _ _ h => hF.quiet h) fun e t h => ?_
  cases e with
  | thrown x => exact hF.thrown.mpr (hF.quiet h)
  | halted n => exact h.elim
  | spent => exact hF.stopped (hF.quiet h) (hF.spent t)

theorem look (site : Nat) (tag : Tag) (args : Array Term) : F.Allows (Activation.look site tag args) := by
  intro s
  rw [Activation.yields_look]
  have hnote {t : Workspace} (x : Lookup) : F.ok t (t.note (.of (.looked x))) :=
    hF.continues t (Ghost.value_of _ ▸ trivial)
  refine (silent_findCallee site tag args s).imp (fun r t h => hF.trans (hF.quiet h) (hnote _))
    fun e t h => ?_
  cases e with
  | thrown x => exact hF.thrown.mpr (hF.trans (hF.quiet h) (hnote _))
  | halted n => exact h.elim
  | spent => exact hF.stopped (hF.trans (hF.quiet h) (hnote _)) (hF.spent _)

theorem invoked (callee : Callee) (args : Array Term) (redo : Bool) (s : Workspace) :
    F.ok s (s.note (.of (.invoked callee args redo))) :=
  hF.continues s (Ghost.value_of _ ▸ trivial)

theorem limited (s : Workspace) : F.ok s (s.note (.of .limited)) :=
  hF.continues s (Ghost.value_of _ ▸ trivial)

theorem exceed (resource : String) : F.Allows (Engine.exceed resource : EngineM α) :=
  Allows.bind hF.toComposes (x := Engine.note _) hF.limited fun _ => hF.of_silent (silent_raise _)

theorem pushChoice (kind : ChoiceKind) : F.Allows (Engine.pushChoice kind) := by
  have hcomposes := hF.toComposes
  have hhold : F.Allows (modify (Workspace.hold kind) : EngineM Unit) := by
    intro s
    cases kind with
    | cleanup goal => exact hF.continues s (Ghost.value_of _ ▸ trivial)
    | _ => exact hF.refl s
  refine (hF.of_silent (silent_onBindings _)).bind hcomposes fun m => ?_
  refine Allows.bind hcomposes (x := Engine.now) hF.refl fun made => ?_
  refine (hF.of_silent (silent_onChoices _)).bind hcomposes fun pushed => ?_
  dsimp only
  split
  · exact hhold
  · exact (hF.exceed _).bind hcomposes fun _ => hhold

theorem lawful : F.Lawful where
  toComposes := hF.toComposes
  pass s := hF.continues s (Ghost.value_map .. ▸ trivial)
  overflow s := hF.faulted (hF.limited s) (hF.faulty _ _)
  exceed := hF.exceed
  onTerms _ := hF.of_silent (silent_onTerms _)
  compileGoal _ _ := hF.of_silent (silent_onDatabase _)
  look := hF.look
  mark := hF.of_silent (silent_onBindings _)
  undoTo _ := hF.of_silent (silent_onBindings _)
  unify _ _ _ := hF.of_silent ((silent_onBindings _).bind composes_silent silent_answered)
  unifyInPlace _ _ _ := hF.of_silent ((silent_onBindings _).bind composes_silent silent_answered)
  pushChoice _ := hF.pushChoice _
  pop := hF.of_silent (silent_onChoices _)
  cutTo _ := hF.of_silent (silent_onChoices _)
  setTop _ _ := hF.of_silent (silent_onChoices _)
  nested := hF.nested

end Narrates

/-! ### Steps of a search -/

/-- To lead a search that is running to the phase that belongs to the end of the step. -/
def flowing : Effect where
  ok := Flows .running .running
  err e s t := match e with
    | .thrown _ => Flows .running .running s t
    | .halted n => Flows .running (.quitting n) s t ∨ Flows .running .lost s t
    | .spent => Breaks .running s t

theorem composes_flowing : flowing.Composes where
  refl := .refl
  trans := .trans
  stopped {_ _ _ e} h h' := by
    cases e with
    | thrown x => exact h.trans h'
    | halted n => exact h'.imp h.trans h.trans
    | spent => exact h.breaks h'
  thrown := .rfl
  spent := .here trivial
  faulty _ := .refl
  faulted := .trans

theorem narrates_flowing : flowing.Narrates where
  toComposes := composes_flowing
  quiet := .quiet
  continues {e} s he := by
    refine Flows.note fun _ φs => ?_
    generalize e.value = e at he ⊢
    cases e with
    | passed x => exact .passed
    | looked x => exact .looked
    | invoked callee args redo => exact .invoked
    | held goal => exact .held
    | limited => exact .limited
    | _ => exact False.elim he
  nested hx s := (Solver.agree_nested (.of_yields (hx (s.atDepth (s.engine.depth + 1))))).yields.imp
    (fun _ _ h => h) fun _ _ h => h

theorem lawful_flowing : flowing.Lawful :=
  narrates_flowing.lawful

end Effect

/-- There is fuel for cleanup goals, so that fuel is not spent before one of them has been started. -/
structure Context.Fueled (ctx : Context) : Prop where
  /-- If there are none, nothing is done. -/
  none : ctx.runCleanups [] = pure ()
  /-- The cleanup goals of what is dropped. -/
  stopping : ∀ goals s, Yields (ctx.runCleanups goals) s (fun _ _ => True)
    fun e t => e = .spent → BreaksWithin .stopping s t

/-- The calls lead a search to the phase that belongs to their end, and cleanup goals leave it in the
one in which they are started, unless one of them asks for the end of the run. -/
structure Context.Flowing (ctx : Context) : Prop where
  /-- Calls of callees. -/
  invoke : ∀ callee args redo, Effect.flowing.Allows (ctx.invoke callee args redo)
  /-- Calls that do not spend the fuel. -/
  fueled : ∀ callee args redo s, Yields (ctx.invoke callee args redo) s (fun _ _ => ctx.Fueled)
    fun e _ => e = .spent ∨ ctx.Fueled
  /-- Cleanup goals. -/
  runCleanups : ∀ {φ : Phase}, φ.Starts → ∀ goals s, Yields (ctx.runCleanups goals) s
    (fun _ t => Flows φ φ s t) fun e t => e = .spent ∧ Breaks φ s t ∨
      (∃ n, e = .halted n) ∧ Flows φ φ.interrupted s t
  /-- Faults. -/
  report : ∀ f, Effect.flowing.Allows (ctx.report f)

theorem Context.Flowing.calls {ctx : Context} (hctx : ctx.Flowing) : Effect.flowing.Calls ctx where
  invoke := hctx.invoke
  runCleanups goals s := by
    refine (hctx.runCleanups (φ := .running) trivial goals s).imp (fun _ _ h => h) fun e t h => ?_
    obtain ⟨rfl, h⟩ | ⟨⟨n, rfl⟩, h⟩ := h
    · exact h
    · exact .inr h
  report f := Effect.Allows.reports Effect.narrates_flowing.toComposes rfl (hctx.report f) f

/-- The exit status with which the end of the run was asked for. -/
def GoalOutcome.status? : GoalOutcome → Option Int
  | .halted n => some n
  | _ => none

/-- The phase of a search that has found an outcome. If the search has asked for the end of the run, there
is fuel for the cleanup goals of what is left of it. -/
def GoalOutcome.Leads (ctx : Context) : GoalOutcome → Phase → Prop
  | .halted n, φ => φ = .quitting n ∧ ctx.Fueled ∨ φ = .lost
  | _, φ => φ = .running

namespace GoalOutcome.Leads

variable {ctx : Context} {o : GoalOutcome} {φ : Phase} {s t : Workspace}

theorem ne_stopping (h : o.Leads ctx φ) : φ ≠ .stopping := by
  rintro rfl
  cases o with
  | halted n => obtain ⟨h, -⟩ | h := h <;> cases h
  | _ => cases h

theorem starts_or_fueled (h : o.Leads ctx φ) : φ.Starts ∨ ctx.Fueled := by
  cases o with
  | halted n =>
    obtain ⟨-, h⟩ | rfl := h
    · exact .inr h
    · exact .inl trivial
  | _ =>
    obtain rfl := h
    exact .inl trivial

/-- What follows from an outcome belongs to the phase of the search. -/
theorem collected {α : Type} {found : α} (ho : o.Leads ctx φ) (h : Flows .running φ s t) :
    Yields (o.collected found) t (fun _ u => Effect.flowing.ok s u)
      fun e u => Effect.flowing.err e s u := by
  cases o with
  | halted n =>
    obtain ⟨rfl, -⟩ | rfl := ho
    · exact .inl h
    · exact .inr h
  | _ =>
    obtain rfl := ho
    exact h

theorem isSolution (ho : o.Leads ctx φ) (h : Flows .running φ s t) :
    Yields o.isSolution t (fun _ u => Effect.flowing.ok s u)
      fun e u => Effect.flowing.err e s u := by
  cases o with
  | halted n =>
    obtain ⟨rfl, -⟩ | rfl := ho
    · exact .inl h
    · exact .inr h
  | _ =>
    obtain rfl := ho
    exact h

end GoalOutcome.Leads

namespace Engine

variable {ctx : Context} {s t : Workspace}

theorem flowing_execute (hctx : ctx.Flowing) (g : PreparedGoal) (s : Workspace) :
    Yields (execute ctx g) s (fun r t => ∃ φ, r.1.Leads ctx φ ∧ Flows .running φ s t)
      fun e t => e = .spent ∧ Breaks .running s t := by
  rw [execute]
  split
  · exact ⟨_, rfl, .refl s⟩
  rw [yields_bind, yields_get]
  split
  · exact ⟨_, rfl, .quiet rfl⟩
  rw [yields_bind, yields_tryCatch, yields_map]
  refine ((hctx.invoke _ _ _ s).and (hctx.fueled _ _ _ s)).imp (fun a t h => ?_) fun e t h => ?_
  · exact ⟨.running, by cases a <;> rfl, h.1⟩
  · obtain ⟨h, hfueled⟩ := h
    cases e with
    | thrown x => exact ⟨.running, rfl, Flows.trans h (.quiet rfl)⟩
    | halted n =>
      have hfueled := hfueled.resolve_left (by simp)
      exact h.elim (⟨_, .inl ⟨rfl, hfueled⟩, ·⟩) (⟨_, .inr rfl, ·⟩)
    | spent => exact ⟨rfl, h⟩

/-! ### Searches -/

theorem flows_drop (hctx : ctx.Flowing) {φ : Phase} (hφ : φ ≠ .stopping) (hf : φ.Starts ∨ ctx.Fueled)
    (s : Workspace) : Yields (drop ctx) s (fun _ t => Flows φ φ s t)
      fun e t => e = .spent ∧ Breaks φ s t := by
  rw [drop, yields_bind, cutTo, yields_onChoices, yields_bind, note, yields_modify, yields_bind,
    yields_tryCatch]
  generalize hcut : Workspace.mk _ _ = t
  have ht : Flows φ φ s t := .quiet (by rw [← hcut]; rfl)
  generalize (s.engine.choices.cutTo 0).1 = goals
  -- where the cleanup goals spend the fuel, the drop breaks off
  have hbreaks : Yields (ctx.runCleanups goals) (t.note (.of .stopping)) (fun _ _ => True)
      fun e u => e = .spent → Breaks φ t u := by
    obtain hstarts | hfueled := hf
    · refine (hctx.runCleanups (φ := .stopping) trivial goals _).imp (fun _ _ _ => trivial) ?_
      rintro e u (⟨-, hu⟩ | ⟨⟨n, rfl⟩, -⟩) he
      · exact (hu.within (.stopping hφ)).breaks hstarts
      · cases he
    · exact (hfueled.stopping goals _).imp (fun _ _ h => h) fun _ _ hu he => (hu he).dropped hφ
  refine ((hctx.runCleanups (φ := .stopping) trivial goals _).and hbreaks).imp (fun _ u h => ?_)
    fun e u h => ?_
  · exact ht.trans (h.1.drop hφ)
  · obtain ⟨⟨rfl, -⟩ | ⟨⟨n, rfl⟩, h⟩, hu⟩ := h
    · exact ⟨rfl, ht.breaks (hu rfl)⟩
    · exact ht.trans (h.drop hφ)

theorem flows_stop (hctx : ctx.Flowing) {φ : Phase} (hφ : φ ≠ .stopping) (hf : φ.Starts ∨ ctx.Fueled)
    (g : PreparedGoal) (s : Workspace) : Yields (stop ctx g) s (fun _ t => Flows φ φ s t)
      fun e t => e = .spent ∧ Breaks φ s t := by
  rw [stop, yields_bind, yields_get]
  split
  · exact Flows.refl s
  rw [yields_bind]
  refine (flows_drop hctx hφ hf s).imp (fun _ t h => ?_) fun _ _ h => h
  rw [yields_bind, undoTo, yields_onBindings]
  split
  · rw [unpark, yields_modify]
    refine h.trans (.quiet ?_)
    split <;> rfl
  · exact h.trans (.quiet rfl)

/-- A goal for which an outcome has been found is stopped, and what follows from the outcome is done. -/
theorem flowing_stop {α : Type} (hctx : ctx.Flowing) {o : GoalOutcome} {φ : Phase} (ho : o.Leads ctx φ)
    (h : Flows .running φ s t) (g : PreparedGoal) {x : EngineM α}
    (hx : ∀ u, Flows .running φ s u → Yields x u (fun _ v => Effect.flowing.ok s v)
      fun e v => Effect.flowing.err e s v) :
    Yields (stop ctx g >>= fun _ => x) t (fun _ v => Effect.flowing.ok s v)
      fun e v => Effect.flowing.err e s v := by
  rw [yields_bind]
  refine (flows_stop hctx ho.ne_stopping ho.starts_or_fueled g t).imp (fun _ u hu => hx u (h.trans hu)) ?_
  rintro _ u ⟨rfl, hu⟩
  exact h.breaks hu

theorem flows_collectLoop (hctx : ctx.Flowing) (template : Term) (limit : Option Nat) (n : Nat) :
    ∀ (g : PreparedGoal) (found : List Term) (s : Workspace),
      Yields (collectLoop ctx template limit n g found) s
        (fun r t => ∃ φ, r.2.1.Leads ctx φ ∧ Flows .running φ s t)
        fun e t => e = .spent ∧ Breaks .running s t := by
  induction n with
  | zero => exact fun _ _ s => ⟨rfl, .here (φ := .running) trivial s⟩
  | succ n ih =>
    intro g found s
    rw [collectLoop]
    split
    · exact ⟨_, rfl, .refl s⟩
    rw [yields_bind]
    refine (flowing_execute hctx g s).imp (fun r t h => ?_) fun _ _ h => h
    obtain ⟨o, g'⟩ := r
    obtain ⟨φ, ho, h⟩ := h
    cases o with
    | more =>
      obtain rfl := ho
      rw [yields_bind, yields_onTerms]
      have hcopied := h.trans (.quiet rfl)
      refine (ih g' _ _).imp (fun r u hu => ?_) fun _ _ hu => ⟨hu.1, hcopied.breaks hu.2⟩
      obtain ⟨ψ, ho, hu⟩ := hu
      exact ⟨ψ, ho, hcopied.trans hu⟩
    | last =>
      obtain rfl := ho
      exact ⟨_, rfl, h.trans (.quiet rfl)⟩
    | _ => exact ⟨φ, ho, h⟩

theorem flowing_collect (hctx : ctx.Flowing) (template goal : Term) (limit : Option Nat) :
    Effect.flowing.Allows (collect ctx template goal limit) := by
  refine (Effect.narrates_flowing.of_silent (Effect.silent_prepare goal)).bind Effect.composes_flowing
    fun g s => ?_
  rw [yields_bind]
  refine (flows_collectLoop hctx template limit ctx.fuel g [] s).imp (fun r t h => ?_) ?_
  · obtain ⟨found, o, g'⟩ := r
    obtain ⟨φ, ho, h⟩ := h
    exact flowing_stop hctx ho h g' fun _ hu => ho.collected hu
  · rintro _ t ⟨rfl, h⟩
    exact h

theorem flowing_runOnce (hctx : ctx.Flowing) (goal : Term) : Effect.flowing.Allows (runOnce ctx goal) := by
  refine (Effect.narrates_flowing.of_silent (Effect.silent_prepare goal)).bind Effect.composes_flowing
    fun g s => ?_
  rw [yields_bind]
  refine (flowing_execute hctx g s).imp (fun r t h => ?_) ?_
  · obtain ⟨o, g'⟩ := r
    obtain ⟨φ, ho, h⟩ := h
    exact flowing_stop hctx ho h g' fun _ hu => ho.isSolution hu
  · rintro _ t ⟨rfl, h⟩
    exact h

/-- Cleanup goals are run in any search that has not asked for the end of the run. -/
theorem flows_runCleanups (hctx : ctx.Flowing) {φ : Phase} (hφ : φ.Starts) (goals : List Term)
    (s : Workspace) :
    Yields (runCleanups ctx goals) s (fun _ t => Flows φ φ s t)
      fun e t => e = .spent ∧ BreaksWithin φ s t ∨
        (∃ n, e = .halted n) ∧ Flows φ φ.interrupted s t := by
  induction goals generalizing s with
  | nil => exact Flows.refl s
  | cons goal goals ih =>
    show Yields (_ >>= fun _ => runCleanups ctx goals) s _ _
    rw [yields_bind, yields_bind, note, yields_modify, yields_bind, yields_tryCatch, yields_discard]
    -- the other goals are run after the first one
    have hrest {t : Workspace} (h : Flows φ φ s t) : Yields (runCleanups ctx goals) t
        (fun _ u => Flows φ φ s u)
        fun e u => e = .spent ∧ BreaksWithin φ s u ∨
          (∃ n, e = .halted n) ∧ Flows φ φ.interrupted s u :=
      (ih t).imp (fun _ _ hu => h.trans hu) fun _ _ hu =>
        hu.imp (fun hu => ⟨hu.1, h.breaksWithin hu.2⟩) fun hu => ⟨hu.1, h.trans hu.2⟩
    refine (flowing_runOnce hctx goal _).imp (fun _ t h => hrest (Flows.cleanup h hφ)) fun e t h => ?_
    cases e with
    | thrown x => exact hrest (Flows.cleanup h hφ)
    | halted n =>
      refine .inr ⟨⟨n, rfl⟩, ?_⟩
      exact h.elim (Flows.asked · trivial hφ) (Flows.asked · trivial hφ)
    | spent => exact .inl ⟨rfl, Breaks.within h (.started hφ)⟩

end Engine

namespace Workspace

/-- That the goal has been interrupted changes nothing in the phase of the search. -/
theorem Flows.interrupt {φ ψ : Phase} {s t : Workspace} (h : Flows φ ψ s t) : Flows φ ψ s t.interrupt :=
  h.trans (.note fun _ _ => Ghost.value_map .. ▸ .interrupted)

/-- If a goal with a cleanup goal has been interrupted and a cleanup point lies on top, a cleanup goal
has asked for the end of the run. -/
theorem Flows.interrupt_lost {n : Int} {s t : Workspace}
    (h : Flows .running (.quitting n) s t ∨ Flows .running .lost s t) {p : ChoicePoint} {goal : Term}
    (hp : p ∈ t.engine.choices.top?) (hgoal : p.cleanup? = some goal) :
    Flows .running .lost s t.interrupt := by
  cases hasker : t.chronicle.head?.bind Chronicle.Event.halted? with
  | none =>
    -- that is not as it should be
    have hnone {φ : Phase} (h : Flows .running φ s t) : Flows .running .lost s t.interrupt := by
      refine h.trans (.note fun hsound => ?_)
      rw [Ghost.value_map] at hsound
      rw [hsound hasker p hp] at hgoal
      cases hgoal
    exact h.elim hnone hnone
  | some goal' =>
    obtain ⟨e, he, hasked⟩ := Option.bind_eq_some_iff.mp hasker
    refine Flows.interrupt (h.elim (fun h => h.lost ?_) id)
    obtain ⟨l, hl⟩ := List.head?_eq_some_iff.mp he
    cases e with
    | halted goal' => exact ⟨goal', l, hl⟩
    | _ => cases hasked

end Workspace

namespace Builtin

variable {ctx : Context} {s t : Workspace}

theorem popCleanup_top (s : Workspace) : Yields Engine.popCleanup s
    (fun r t => t.chronicle = s.chronicle ∧ ∀ g ∈ r, ∃ p ∈ s.engine.choices.top?, p.cleanup? = some g)
    fun _ _ => False := by
  rw [Engine.popCleanup, yields_bind, Engine.yields_top?]
  cases htop : s.points.getLast? with
  | none => exact ⟨rfl, by simp⟩
  | some p =>
    rw [Workspace.points, Array.getLast?_toList] at htop
    obtain ⟨m, kind⟩ := p
    cases kind with
    | cleanup goal => exact ⟨rfl, fun g hg => ⟨⟨m, .cleanup goal⟩, htop, hg⟩⟩
    | _ => exact ⟨rfl, by simp⟩

/-- A goal that has not been interrupted has ended. -/
theorem flowing_conclude (hctx : ctx.Flowing) {result : Except Stop Answer}
    (hresult : ∀ n, result ≠ .error (.halted n)) : Effect.flowing.Allows (conclude ctx result) := by
  have hflowing := Effect.lawful_flowing
  refine (Effect.Allows.popCleanup hflowing).bind hflowing fun r => ?_
  refine (hctx.calls.runCleanups _).bind hflowing fun _ => ?_
  cases result with
  | ok a => exact .pure hflowing a
  | error e =>
    cases e with
    | thrown x => exact .thrown hflowing x
    | halted n => exact absurd rfl (hresult n)
    | spent => exact .spent hflowing

/-- A goal has been interrupted. -/
theorem flowing_interrupted (hctx : ctx.Flowing) (hfueled : ctx.Fueled) {n : Int}
    (h : Flows .running (.quitting n) s t ∨ Flows .running .lost s t) :
    Yields (conclude ctx (.error (.halted n))) t.interrupt (fun _ u => Effect.flowing.ok s u)
      fun e u => Effect.flowing.err e s u := by
  rw [conclude, yields_bind]
  refine (popCleanup_top t.interrupt).imp (fun r u hr => ?_) fun _ _ h => h.elim
  obtain ⟨hu, htop⟩ := hr
  -- the cleanup goals that are run by a search that has been lost
  have hclean (h : Flows .running .lost s t.interrupt) :
      Yields (ctx.runCleanups r.toList >>= fun _ => (throw (.halted n) : EngineM Answer)) u
        (fun _ v => Effect.flowing.ok s v) fun e v => Effect.flowing.err e s v := by
    rw [yields_bind]
    have hrun := h.trans (.quiet hu)
    refine (hctx.runCleanups (φ := .lost) trivial _ u).imp (fun _ v hv => .inr (hrun.trans hv)) ?_
    rintro e v (⟨rfl, hv⟩ | ⟨⟨m, rfl⟩, hv⟩)
    · exact hrun.breaks hv
    · exact .inr (hrun.trans hv)
  cases r with
  | none =>
    obtain h | h := h
    · show Yields (ctx.runCleanups [] >>= fun _ => throw (.halted n)) u _ _
      rw [hfueled.none]
      exact .inl (h.interrupt.trans (.quiet hu))
    · exact hclean h.interrupt
  | some goal =>
    obtain ⟨p, hp, hgoal⟩ := htop goal rfl
    exact hclean (.interrupt_lost h hp hgoal)

theorem flowing_finish (hctx : ctx.Flowing) (code : Code) (args : Array Term) (redo : Bool) :
    Effect.flowing.Allows (finish ctx code args redo) := by
  have hflowing := Effect.lawful_flowing
  intro s
  rw [finish, yields_bind, yields_tryCatch, yields_map]
  have hclean {result : Except Stop Answer} (hresult : ∀ n, result ≠ .error (.halted n)) {u : Workspace}
      (hu : Flows .running .running s u) : Yields (conclude ctx result) u
        (fun _ v => Effect.flowing.ok s v) fun e v => Effect.flowing.err e s v :=
    (flowing_conclude hctx hresult u).imp (fun _ _ h => hu.trans h) fun _ _ h => hflowing.stopped hu h
  refine ((hctx.invoke _ _ _ s).and (hctx.fueled _ _ _ s)).imp (fun a u h => ?_) fun e u h => ?_
  · cases a with
    | more =>
      have hpush := (Effect.Allows.pushNativeState hflowing (.goal code args)).bind hflowing
        fun _ => .pure hflowing Answer.more
      exact (hpush u).imp (fun _ _ hv => h.1.trans hv) fun _ _ hv => hflowing.stopped h.1 hv
    | last => exact hclean (by simp) h.1
    | fail => exact hclean (by simp) h.1
  · obtain ⟨hu, hfueled⟩ := h
    rw [yields_pure]
    cases e with
    | spent => exact hu
    | thrown x => exact hclean (by simp) hu
    | halted n => exact flowing_interrupted hctx (hfueled.resolve_left (by simp)) hu

theorem flowing_execute (hctx : ctx.Flowing) (redo : Bool) (args : Array Term) (b : Builtin) :
    Effect.flowing.Allows (b.execute ctx redo args) := by
  have hflowing := Effect.lawful_flowing
  cases b with
  | between => exact hflowing.between redo args
  | findall => exact hflowing.findall (fun _ _ => Engine.flowing_collect hctx _ _ _) args
  | callCleanup => exact hflowing.callCleanup (flowing_finish hctx) redo args
  | halt => exact hflowing.halt (fun n s => .inl (.note fun _ _ => Ghost.value_of _ ▸ .quit)) args

end Builtin

namespace Solver

/-- All calls lead a search to the phase that belongs to their end. -/
theorem flowing_context (n : Nat) : (context .none n).Flowing := by
  have hflowing := Effect.lawful_flowing
  have hreport (f : Fault) : Effect.flowing.Allows (Engine.onTerms (Activation.faultException f)) :=
    Effect.narrates_flowing.of_silent (Effect.silent_onTerms _)
  induction n with
  | zero => exact ⟨fun _ _ _ => .here (φ := .running) trivial, fun _ _ _ _ => .inl rfl,
      fun hφ _ s => .inl ⟨rfl, .here hφ s⟩, hreport⟩
  | succ n ih =>
    -- cleanup goals spend the fuel when they have been started
    have hclean {φ : Phase} (hφ : φ.Starts) (goals : List Term) (s : Workspace) :=
      Engine.flows_runCleanups ih hφ goals s
    have hfueled : (context .none (n + 1)).Fueled := by
      refine ⟨rfl, fun goals s => (hclean (φ := .stopping) trivial goals s).imp
        (fun _ _ _ => trivial) ?_⟩
      rintro e t (⟨-, h⟩ | ⟨⟨m, rfl⟩, -⟩) he
      · exact h
      · cases he
    refine ⟨fun callee args redo => ?_, fun callee args redo s => ?_, fun hφ goals s => ?_, hreport⟩
    · exact hflowing.invoke ih.calls
        (hflowing.retries Effect.narrates_flowing.invoked Effect.narrates_flowing.pushChoice ih.calls)
        (fun b redo args => Builtin.flowing_execute ih redo args b)
        (fun id redo args => .spent hflowing) callee args redo
    · unfold Yields
      split
      · exact hfueled
      · exact .inr hfueled
    · exact (hclean hφ goals s).imp (fun _ _ h => h) fun _ _ h =>
        h.imp_left fun h => ⟨h.1, h.2.breaks hφ⟩

end Solver

namespace Engine

variable {host : Host} {s₀ s : Workspace} {g : PreparedGoal} {gs : List PreparedGoal}

/-- When the end of the run is asked for while a goal is executed, outside of cleanup goals, the
execution ends with the exit status that was asked for; until then nothing is done but by cleanup goals
of nested searches, which are dropped. If the execution does not end because the fuel is spent, then it is
spent in one of these cleanup goals. -/
theorem halt_not_intercepted (hs₀ : s₀.Ready ∨ s₀.Idle) (h : Session host s₀ (g :: gs) s) (n : Nat) :
    Yields (execute (Solver.context host n) g) s
      (fun r t => ∃ l, t.chronicle = l ++ s.chronicle ∧ ∀ before m after,
        l = after ++ .quit m :: before → .cleanup ∉ Chronicle.tasks before →
          r.1 = .halted m ∧ ∀ a e b, after = b ++ e :: a → e.Acts →
            ∃ ts, Chronicle.tasks a = ts ++ [.cleanup, .drop])
      fun e t => e = .spent ∧ ∃ l, t.chronicle = l ++ s.chronicle ∧ ∀ before m after,
        l = after ++ .quit m :: before → .cleanup ∉ Chronicle.tasks before →
          (∃ ts, Chronicle.tasks after = ts ++ [.cleanup, .drop]) ∧
            ∀ a e b, after = b ++ e :: a → e.Acts →
              ∃ ts, Chronicle.tasks a = ts ++ [.cleanup, .drop] := by
  have hs := h.underway hs₀
  -- the predicates of the host are not called
  have hflows : Yields (execute (Solver.context host n) g) s
      (fun r t => ∃ φ, r.1.Leads (Solver.context .none n) φ ∧ Flows .running φ s t)
      fun e t => e = .spent ∧ Breaks .running s t := by
    cases hs with
    | goal _ ho hsearching =>
      have hctx : (Solver.context host n).Disciplined (Solver.context .none n) :=
        Solver.disciplined_context Host.within_none n
      rw [Yields, ← (agree_execute hctx ho hsearching).eq]
      exact flowing_execute (Solver.flowing_context n) g s
  -- everything in the chronicle is as it should be
  have hsound {t : Workspace} {l : Chronicle} (ht : s₀.Tells t) (hl : t.chronicle = l ++ s.chronicle) :
      ∀ e ∈ l, e.Sound := by
    obtain ⟨l₁, hl₁, hsound⟩ := ht
    obtain ⟨l₀, hl₀, -⟩ := hs.tells
    rw [hl, hl₀, ← List.append_assoc, List.append_left_inj] at hl₁
    exact fun e he => hsound e (hl₁ ▸ List.mem_append_left _ he)
  refine (hflows.and (hs.execute n)).imp (fun r t hr => ?_) fun e t he => ?_
  · obtain ⟨⟨φ, ho, l, hl, hflow⟩, ht⟩ := hr
    refine ⟨l, hl, ?_⟩
    rintro before m after rfl hbefore
    obtain ⟨rfl, hrest⟩ := (hflow (hsound ht.tells hl)).quit hbefore
    refine ⟨?_, hrest⟩
    obtain ⟨o, g'⟩ := r
    cases o with
    | halted k =>
      obtain ⟨heq, -⟩ | heq := ho
      · cases heq
        rfl
      · cases heq
    | _ => cases ho
  · obtain ⟨⟨rfl, l, hl, hbreaks⟩, -, ht⟩ := he
    refine ⟨rfl, l, hl, ?_⟩
    rintro before m after rfl hbefore
    exact (hbreaks (hsound ht hl)).quit hbefore

/-- The goal `catch(findall(true, halt(3), true), true, true)`. -/
def haltingGoal : Term :=
  .compound 0 .catchGoal [.compound 1 ⟨23⟩ [.atom .trueGoal, .compound 2 ⟨26⟩ [.int 3], .atom .trueGoal],
    .atom .trueGoal, .atom .trueGoal]

theorem fits_haltingGoal_of {sym : Symbols} (hcatch : sym.pairs[Tag.catchGoal.index]?.map Prod.snd = some 3)
    (hfindall : sym.pairs[23]?.map Prod.snd = some 3) (hhalt : sym.pairs[26]?.map Prod.snd = some 1) :
    haltingGoal.Fits sym := by
  obtain ⟨⟨a, _⟩, ha, rfl⟩ := Option.map_eq_some_iff.mp hcatch
  obtain ⟨⟨a', _⟩, ha', rfl⟩ := Option.map_eq_some_iff.mp hfindall
  obtain ⟨⟨a'', _⟩, ha'', rfl⟩ := Option.map_eq_some_iff.mp hhalt
  have hcall : Term.Fits sym (.compound 2 ⟨26⟩ [.int 3]) :=
    .compound ⟨a'', ha''⟩ (List.forall_mem_singleton.mpr (.const _))
  refine .compound ⟨a, ha⟩ (List.forall_mem_cons.mpr ⟨.compound ⟨a', ha'⟩ ?_, ?_⟩)
  · exact List.forall_mem_cons.mpr ⟨.const _, List.forall_mem_cons.mpr ⟨hcall,
      List.forall_mem_singleton.mpr (.const _)⟩⟩
  · exact List.forall_mem_cons.mpr ⟨.const _, List.forall_mem_singleton.mpr (.const _)⟩

theorem fits_haltingGoal : haltingGoal.Fits Workspace.initial.symbols :=
  fits_haltingGoal_of (by decide +kernel) (by decide +kernel) (by decide +kernel)

theorem halting_runs : ∃ g p r t, prepare haltingGoal .initial = .ok g p ∧
    execute (Solver.context .none 30) g p = .ok r t ∧ r.1.status? = some 3 := by
  have hrun : ((answer? (prepare haltingGoal) .initial).bind fun r =>
      (answer? (execute (Solver.context .none 30) r.1) r.2).filter (·.1.1.status? = some 3)).isSome := by
    decide +kernel
  obtain ⟨⟨r, t⟩, hrun⟩ := Option.isSome_iff_exists.mp hrun
  obtain ⟨⟨g, p⟩, hp, hrun⟩ := Option.bind_eq_some_iff.mp hrun
  obtain ⟨hx, hstatus⟩ := Option.filter_eq_some_iff.mp hrun
  exact ⟨g, p, r, t, answer?_eq_some.mp hp, answer?_eq_some.mp hx, of_decide_eq_true hstatus⟩

theorem halt_not_intercepted_halting : ∃ g p r t, prepare haltingGoal .initial = .ok g p ∧
    execute (Solver.context .none 30) g p = .ok r t ∧ r.1.status? = some 3 ∧
    ∃ l, t.chronicle = l ++ p.chronicle ∧ ∀ before m after,
      l = after ++ .quit m :: before → .cleanup ∉ Chronicle.tasks before →
        r.1 = .halted m ∧ ∀ a e b, after = b ++ e :: a → e.Acts →
          ∃ ts, Chronicle.tasks a = ts ++ [.cleanup, .drop] := by
  obtain ⟨g, p, r, t, hp, hx, hstatus⟩ := halting_runs
  exact ⟨g, p, r, t, hp, hx, hstatus, yields_ok (halt_not_intercepted (.inr Workspace.idle_initial)
    (.prepared .none fits_haltingGoal hp) 30) hx⟩

end Engine

end Resolvent
