import Resolvent.Proofs.Descent
import Resolvent.Proofs.Easing
import Resolvent.Proofs.Halting

/-!
# What limits refuse is an error

A limit that does not allow what is to be done raises an error, and a variable is made for the context of
every error. Variables are never lost, so this can be seen in the end, whether the error has been caught,
ignored or thrown: after a run in which no limit has refused anything before, either none has done so since
or there are more variables (`Workspace.Heeds`). This is an effect of everything that an engine may be asked
for (`Operation.heeds_run`). An activation that has no room for an operand faults, and the error is made
where the fault is reported, so it is the faults for which the effect says less.
-/

namespace Resolvent

/-- The context of an error is a new variable. -/
theorem Exception.size_lt_ofError (e : ErrorKind) (u : Universe) :
    u.store.size < (ofError e u).2.store.size := by
  have hformal : u.store.size ≤ (formalOf e u).2.store.size := (extending_formalOf e u).store.size
  have hball (formal : Term) (context : Var) : Universe.Extending (do
      ofTerm (← Universe.compound .error [formal, .var context])) :=
    (Universe.extending_compound _ _).bind fun _ => extending_ofTerm _
  calc u.store.size < (formalOf e u).2.store.fresh.2.size := by
        rw [Store.size_fresh]
        exact Nat.lt_succ_of_le hformal
    _ ≤ (ofError e u).2.store.size := (hball _ _ (Universe.fresh (formalOf e u).2).2).store.size

namespace Workspace

/-- No variable is lost, and if a limit has refused something since, a variable has been made. -/
structure Heeds (s t : Workspace) : Prop where
  /-- No variable is lost. -/
  size : s.moment.store.size ≤ t.moment.store.size
  /-- What a limit refuses is an error. -/
  limited : t.Limited → s.Limited ∨ s.moment.store.size < t.moment.store.size

namespace Heeds

variable {s t u : Workspace}

/-- Nothing is told of. -/
theorem quiet (hchronicle : t.chronicle = s.chronicle)
    (hsize : s.moment.store.size ≤ t.moment.store.size) : s.Heeds t :=
  ⟨hsize, fun ht => .inl (by rwa [Limited, hchronicle] at ht)⟩

theorem refl (s : Workspace) : s.Heeds s :=
  .quiet rfl (Nat.le_refl _)

theorem trans (h : s.Heeds t) (h' : t.Heeds u) : s.Heeds u := by
  refine ⟨h.size.trans h'.size, fun hu => ?_⟩
  obtain ht | hlt := h'.limited hu
  · exact (h.limited ht).imp_right (Nat.lt_of_lt_of_le · h'.size)
  · exact .inr (Nat.lt_of_le_of_lt h.size hlt)

instance : Std.Refl Heeds := ⟨refl⟩

instance : Trans Heeds Heeds Heeds := ⟨trans⟩

/-- A variable has been made. -/
theorem of_lt (h : s.moment.store.size < t.moment.store.size) : s.Heeds t :=
  ⟨Nat.le_of_lt h, fun _ => .inr h⟩

/-- Something else is told of than what a limit refuses. -/
theorem note (s : Workspace) {e : Ghost Chronicle.Event} (he : e.value ≠ .limited) : s.Heeds (s.note e) := by
  refine ⟨Nat.le_refl _, fun ht => .inl ?_⟩
  rw [Limited, chronicle_note] at ht
  exact (List.mem_cons.mp ht).resolve_left he.symm

theorem note_of (s : Workspace) {e : Chronicle.Event} (he : e ≠ .limited) : s.Heeds (s.note (.of e)) :=
  .note s (by rwa [Ghost.value_of])

/-- How deep activations are nested does not matter. -/
theorem atDepth {m n : Nat} (h : (s.atDepth m).Heeds t) : s.Heeds (t.atDepth n) :=
  ⟨h.size, h.limited⟩

end Heeds

end Workspace

namespace Engine

open Workspace (Develops Heeds)

variable {α : Type}

/-- A step that leads bindings on and tells nothing. -/
theorem heeds_of_silent {x : EngineM α} (hx : Keeps Develops x) (hsilent : Effect.silent.Allows x) :
    Keeps Heeds x := fun s => by
  refine ((hx s).and (hsilent s)).imp (fun _ t h => .quiet h.2 h.1.store.size_le) fun e t h => ?_
  cases e with
  | halted n => exact h.2.elim
  | _ => exact .quiet h.2 h.1.store.size_le

theorem heeds_note {e : Chronicle.Event} (he : e ≠ .limited) : Keeps Heeds (note e) :=
  .modify fun s => .note_of s he

theorem heeds_exceed (resource : String) : Keeps Heeds (exceed resource : EngineM α) := by
  intro s
  have hmade := Exception.size_lt_ofError (.resource resource) s.database.terms
  rw [exceed, yields_bind, note, yields_modify, raise, yields_onDatabase, Database.raise]
  generalize Exception.ofError (.resource resource) = x at hmade
  exact .of_lt hmade

theorem heeds_pushChoice (kind : ChoiceKind) : Keeps Heeds (pushChoice kind) := by
  have hhold : Keeps Heeds (modify (Workspace.hold kind) : EngineM Unit) := by
    refine .modify fun s => ?_
    cases kind with
    | cleanup goal => exact .note_of s nofun
    | _ => exact .refl s
  refine (heeds_of_silent develops_mark (Effect.silent_onBindings _)).bind fun m => ?_
  refine .bind (x := now) (fun s => Heeds.refl s) fun made => ?_
  refine (heeds_of_silent (develops_onChoices _) (Effect.silent_onChoices _)).bind fun pushed => ?_
  dsimp only
  split
  · exact hhold
  · exact (heeds_exceed _).bind fun _ => hhold

end Engine

theorem Activation.heeds_look (site : Nat) (tag : Tag) (args : Array Term) :
    Keeps Workspace.Heeds (look site tag args) := fun s => by
  have hfind := Engine.heeds_of_silent (develops_findCallee site tag args)
    (Effect.silent_findCallee site tag args)
  exact yields_look.mpr ((hfind s).imp (fun _ t h => h.trans (.note_of t nofun))
    fun _ t h => h.trans (.note_of t nofun))

namespace Effect

open Engine Workspace

/-- To make a variable for everything that a limit refuses. Where an activation has no room for an operand
the variable is still to be made. -/
def heeding : Effect where
  ok := Heeds
  err _ := Heeds
  fault f s t := s.moment.store.size ≤ t.moment.store.size ∧ (f ≠ .stackOverflow → s.Heeds t)

theorem lawful_heeding : heeding.Lawful where
  refl := .refl
  trans := .trans
  stopped := .trans
  thrown := .rfl
  spent := .refl
  faulty _ s := ⟨Nat.le_refl _, fun _ => .refl s⟩
  faulted h h' := ⟨h.size.trans h'.1, fun hf => h.trans (h'.2 hf)⟩
  pass s := .note s (by rw [Ghost.value_map]; nofun)
  overflow s := ⟨Nat.le_refl _, fun hf => absurd rfl hf⟩
  exceed := heeds_exceed
  onTerms hx := heeds_of_silent (develops_onTerms hx) (silent_onTerms _)
  compileGoal _ _ := heeds_of_silent (lawful_developing.compileGoal _ _) (silent_onDatabase _)
  look := Activation.heeds_look
  mark := heeds_of_silent develops_mark (silent_onBindings _)
  undoTo m := heeds_of_silent (develops_undoTo m) (silent_onBindings _)
  unify n s t := heeds_of_silent (develops_unify n s t)
    ((silent_onBindings _).bind composes_silent silent_answered)
  unifyInPlace n s t := heeds_of_silent (develops_unifyInPlace n s t)
    ((silent_onBindings _).bind composes_silent silent_answered)
  pushChoice _ := heeds_pushChoice _
  pop := heeds_of_silent (develops_onChoices _) (silent_onChoices _)
  cutTo _ := heeds_of_silent (develops_onChoices _) (silent_onChoices _)
  setTop _ _ := heeds_of_silent (develops_onChoices _) (silent_onChoices _)
  nested hx s := (Solver.agree_nested (.of_yields ((hx (s.atDepth (s.engine.depth + 1))).imp
    (fun _ _ h => Heeds.atDepth h) fun _ _ h => Heeds.atDepth h))).yields

theorem uniform_heeding : heeding.Uniform where
  toLawful := lawful_heeding
  alike := .rfl
  outline he := heeds_note fun heq => by rw [heq] at he; exact he
  interrupt s := .note s (by rw [Ghost.value_map]; nofun)
  park := heeds_of_silent uniform_developing.park fun _ => rfl
  unpark := heeds_of_silent uniform_developing.unpark fun s => by
    show Workspace.chronicle _ = _
    dsimp only
    split <;> rfl
  activate := heeds_of_silent develops_activate fun _ => rfl
  report f _ t h := .of_lt (Nat.lt_of_le_of_lt h.1 (Exception.size_lt_ofError _ t.database.terms))
  rest s := .quiet rfl (Nat.le_refl _)

theorem retries_heeding (ctx : Context) (hctx : heeding.Calls ctx) : heeding.Retries ctx :=
  lawful_heeding.retries (fun _ _ _ s => .note_of s nofun) heeds_pushChoice hctx

end Effect

/-- The native predicates of the host make a variable for everything that a limit refuses, if their calls
do. -/
abbrev Host.Heeding (host : Host) : Prop :=
  Effect.heeding.IsOf host

theorem Host.heeding_none : Host.none.Heeding :=
  fun _ _ _ _ _ => .throw Effect.uniform_heeding _

/-- Whatever an engine is asked for, and however it ends: if no variable has been made then no limit has
refused anything. -/
theorem Operation.heeds_run {host : Host} (hhost : host.Heeding) (x : Operation) :
    Keeps Workspace.Heeds (x.run host) :=
  Effect.uniform_heeding.operation Effect.retries_heeding hhost x

end Resolvent
