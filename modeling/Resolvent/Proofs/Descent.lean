import Mathlib.Order.WellFounded
import Resolvent.Proofs.Interleaving
import Resolvent.Proofs.Mirroring
import Resolvent.Proofs.Throughout
import Resolvent.Proofs.Undoing

/-!
# Bindings lead to older variables

Where no variable has a binding, none is bound to a younger one, and nothing that an engine does to the
bindings changes this: unification binds unbound variables only, a variable to an older one at most
(`Store.Fills`), undoing takes bindings away, and new variables have none. So reading a term ends in every
store that is reached in this way (`Store.Reached`), also where a variable stands in its own binding.

`Store.Becomes` says that a store is reached by these steps from another. A run of an engine is made of
them, with whatever outcome, and so is every part of it between two instructions (`Workspace.Develops`).
-/

open Relation (ReflTransGen)

namespace Resolvent

/-- How far a chain of bindings can lead from a term, if none leads to a younger variable. -/
def Term.age : Term → Nat
  | .var v => v.id + 1
  | .const _ => 0
  | .compound .. => 0

namespace Store

variable {σ σ' ρ : Store} {v w : Var} {s t : Term} {l l' : List (Var × Term)}

/-! ### Bindings of unbound variables -/

/-- Unbound variables get bindings one after the other, to what is no variable or to an older one. -/
inductive Fills : Store → List (Var × Term) → Store → Prop
  | nil (σ : Store) : Fills σ [] σ
  | cons {σ σ' : Store} {v : Var} {t : Term} {l : List (Var × Term)} (hv : σ.value? v = none)
    (ht : ∀ w, t = .var w → w.id < v.id) (h : Fills (σ.bind v t) l σ') : Fills σ ((v, t) :: l) σ'

theorem Fills.append (h : σ.Fills l ρ) (h' : ρ.Fills l' σ') : σ.Fills (l ++ l') σ' := by
  induction h with
  | nil => exact h'
  | cons hv ht _ ih => exact .cons hv ht (ih h')

theorem Fills.ordered (h : σ.Fills l σ') (hσ : σ.Ordered) : σ'.Ordered := by
  induction h with
  | nil => exact hσ
  | cons _ ht _ ih => exact ih (hσ.bind ht)

end Store

open Store (Fills)

section Unification

variable {σ : Store} {v w : Var} {s t : Term} {rest : List (Term × Term)}

/-- A step of unification binds an unbound variable or nothing, whatever the trail is. -/
theorem Store.Ordered.unifyStep_eq (hσ : σ.Ordered) (s t : Term) (rest : List (Term × Term)) :
    ∃ x? : Option (List (Term × Term) × Store × List (Var × Term)),
      (∀ x ∈ x?, σ.Fills x.2.2 x.2.1) ∧
      ∀ {α : Type} (τ : Trail α), unifyStep s t rest σ τ =
        x?.map fun x => (x.1, x.2.1, τ.recordAll x.2.2) := by
  -- the one binding of a step, and what it needs
  have bound {v : Var} {u : Term} (hv : σ.value? v = none) (hu : ∀ w, u = .var w → w.id < v.id) :
      ∀ x ∈ some (rest, σ.bind v u, [(v, u)]), σ.Fills x.2.2 x.2.1 := by
    rintro _ ⟨⟩
    exact .cons hv hu (.nil _)
  have same (pairs : List (Term × Term)) :
      ∀ x ∈ some (pairs, σ, ([] : List (Var × Term))), σ.Fills x.2.2 x.2.1 := by
    rintro _ ⟨⟩
    exact .nil σ
  have clash : ∀ x ∈ (none : Option (List (Term × Term) × Store × List (Var × Term))),
      σ.Fills x.2.2 x.2.1 := nofun
  have hs (v : Var) (h : σ.deref s = .var v) := hσ.value?_of_deref h
  have ht (v : Var) (h : σ.deref t = .var v) := hσ.value?_of_deref h
  unfold unifyStep
  generalize σ.deref s = s' at hs
  generalize σ.deref t = t' at ht
  cases s' with
  | var v =>
    cases t' with
    | var w =>
      by_cases hvw : v = w
      · exact ⟨_, same rest, fun τ => by simp only [if_pos hvw]; rfl⟩
      by_cases hlt : w.id < v.id
      · refine ⟨_, bound (hs v rfl) (u := .var w) fun _ h => by cases h; exact hlt, fun τ => ?_⟩
        simp only [if_neg hvw, if_pos hlt]
        rfl
      · have hne : v.id ≠ w.id := fun h => hvw (congrArg Var.mk h)
        refine ⟨_, bound (ht w rfl) (u := .var v) fun _ h => by cases h; omega, fun τ => ?_⟩
        simp only [if_neg hvw, if_neg hlt]
        rfl
    | const c => exact ⟨_, bound (hs v rfl) (u := .const c) nofun, fun τ => rfl⟩
    | compound i f ss => exact ⟨_, bound (hs v rfl) (u := .compound i f ss) nofun, fun τ => rfl⟩
  | const c =>
    cases t' with
    | var w => exact ⟨_, bound (ht w rfl) (u := .const c) nofun, fun τ => rfl⟩
    | const d =>
      by_cases hcd : c.unifies d = true
      · exact ⟨_, same rest, fun τ => by simp only [if_pos hcd]; rfl⟩
      · exact ⟨none, clash, fun τ => by simp only [if_neg hcd]; rfl⟩
    | compound j g ts => exact ⟨none, clash, fun τ => rfl⟩
  | compound i f ss =>
    cases t' with
    | var w => exact ⟨_, bound (ht w rfl) (u := .compound i f ss) nofun, fun τ => rfl⟩
    | const d => exact ⟨none, clash, fun τ => rfl⟩
    | compound j g ts =>
      by_cases hij : i = j
      · exact ⟨_, same rest, fun τ => by simp only [if_pos hij]; rfl⟩
      by_cases hfg : f = g
      · exact ⟨_, same (ss.zip ts ++ rest), fun τ => by simp only [if_neg hij, if_pos hfg]; rfl⟩
      · exact ⟨none, clash, fun τ => by simp only [if_neg hij, if_neg hfg]; rfl⟩

/-- Unification binds unbound variables, each to what is no variable or to an older one, and records these
bindings; which it makes does not depend on the trail. -/
theorem Store.Ordered.unifyPairs_eq (n : Nat) : ∀ {σ : Store}, σ.Ordered → ∀ pairs : List (Term × Term),
    ∃ answer l ρ, σ.Fills l ρ ∧
      ∀ {α : Type} (τ : Trail α), unifyPairs n pairs σ τ = (answer, ρ, τ.recordAll l) := by
  induction n with
  | zero => exact fun {σ} _ pairs => ⟨none, [], σ, .nil σ, fun τ => by rw [unifyPairs]; rfl⟩
  | succ n ih =>
    intro σ hσ pairs
    cases pairs with
    | nil => exact ⟨some true, [], σ, .nil σ, fun τ => by simp [unifyPairs, Trail.recordAll]⟩
    | cons p rest =>
      obtain ⟨s, t⟩ := p
      obtain ⟨x?, hfills, hstep⟩ := hσ.unifyStep_eq s t rest
      cases x? with
      | none =>
        refine ⟨some false, [], σ, .nil σ, fun τ => ?_⟩
        rw [unifyPairs_cons, hstep]
        rfl
      | some x =>
        obtain ⟨pairs, ρ, first⟩ := x
        have hfirst := hfills _ rfl
        obtain ⟨answer, l, ρ', hl, hrest⟩ := ih (hfirst.ordered hσ) pairs
        refine ⟨answer, first ++ l, ρ', hfirst.append hl, fun τ => ?_⟩
        rw [unifyPairs_cons, hstep, Option.map_some, Option.elim_some, hrest, Trail.recordAll,
          Trail.recordAll, Trail.recordAll, List.foldl_append]

end Unification

namespace Store

variable {σ σ' ρ : Store} {v w : Var} {s t u : Term}

theorem Ordered.unifyInPlace {α : Type} (h : σ.Ordered) (n : Nat) (s t : Term) (τ : Trail α) :
    (Resolvent.unifyInPlace n s t σ τ).2.1.Ordered := by
  obtain ⟨answer, l, ρ, hl, heq⟩ := h.unifyPairs_eq n [(s, t)]
  rw [Resolvent.unifyInPlace, heq τ]
  exact hl.ordered h

/-- Undoing leaves a variable as it is, or takes its binding away. -/
theorem value?_undoTo {α : Type} (m : Nat) (σ : Store) (τ : Trail α) (v : Var) :
    (τ.undoTo m σ).1.value? v = σ.value? v ∨ (τ.undoTo m σ).1.value? v = none := by
  have hundone := Trail.undone_undoTo τ σ m
  by_cases hv : .binding v ∈ τ.entries.toList.drop m
  · exact .inr (hundone.unbound v hv)
  · exact .inl (hundone.kept v hv)

theorem Ordered.undoTo {α : Type} (h : σ.Ordered) (m : Nat) (τ : Trail α) : (τ.undoTo m σ).1.Ordered := by
  intro v w hv
  obtain hkept | hnone := value?_undoTo m σ τ v
  · exact h v w (hkept ▸ hv)
  · cases hnone.symm.trans hv

theorem Ordered.unify {α : Type} (h : σ.Ordered) (n : Nat) (s t : Term) (τ : Trail α) :
    (Resolvent.unify n s t σ τ).2.1.Ordered := by
  have hdone := h.unifyInPlace n s t τ.mark.2
  rw [Resolvent.unify]
  dsimp only
  split
  · exact hdone.undoTo _ _
  · exact hdone

/-! ### Reading bindings -/

/-- The second term is the binding of the first one. -/
def Follows (σ : Store) (t u : Term) : Prop :=
  ∃ v, t = .var v ∧ σ.value? v = some u

/-- Reading a term goes from binding to binding. -/
theorem reaches_derefWithin (σ : Store) (n : Nat) (t : Term) :
    ReflTransGen σ.Follows t (σ.derefWithin n t) := by
  induction n generalizing t with
  | zero => rw [derefWithin]; simp
  | succ n ih =>
    cases t with
    | var v =>
      rw [derefWithin]
      split
      · rename_i u hu
        exact .head ⟨v, rfl, hu⟩ (ih u)
      · exact .refl
    | _ => exact .refl

/-- Bindings do not follow each other for ever. -/
theorem Ordered.wellFounded (h : σ.Ordered) : WellFounded fun u t => σ.Follows t u := by
  refine Subrelation.wf (r := InvImage (· < ·) Term.age) ?_ (InvImage.wf Term.age Nat.lt_wfRel.wf)
  rintro u _ ⟨v, rfl, hu⟩
  cases u with
  | var w => exact Nat.succ_lt_succ (h v w hu)
  | _ => exact Nat.succ_pos v.id

/-- Nothing follows what is read. -/
theorem Ordered.not_follows_deref (h : σ.Ordered) (t u : Term) : ¬σ.Follows (σ.deref t) u := by
  rintro ⟨v, hd, hu⟩
  cases (h.value?_of_deref hd).symm.trans hu

theorem Ordered.deref_deref (h : σ.Ordered) (t : Term) : σ.deref (σ.deref t) = σ.deref t := by
  cases hd : σ.deref t with
  | var v => exact deref_unbound (h.value?_of_deref hd)
  | _ => exact σ.deref_of_nonvar nofun

/-! ### Steps on bindings -/

/-- The second store is reached from the first one: variables and compounds are made, terms are unified, and
bindings are undone, in any order, with any trails. -/
inductive Becomes (σ : Store) : Store → Prop
  | refl : Becomes σ σ
  | make {ρ ρ' : Store} (h : Becomes σ ρ) (hx : ρ.Extends ρ') : Becomes σ ρ'
  | unifyInPlace {ρ : Store} {α : Type} (h : Becomes σ ρ) (n : Nat) (s t : Term) (τ : Trail α) :
    Becomes σ (Resolvent.unifyInPlace n s t ρ τ).2.1
  | unify {ρ : Store} {α : Type} (h : Becomes σ ρ) (n : Nat) (s t : Term) (τ : Trail α) :
    Becomes σ (Resolvent.unify n s t ρ τ).2.1
  | undoTo {ρ : Store} {α : Type} (h : Becomes σ ρ) (m : Nat) (τ : Trail α) :
    Becomes σ (τ.undoTo m ρ).1

namespace Becomes

theorem trans (h : σ.Becomes ρ) (h' : ρ.Becomes σ') : σ.Becomes σ' := by
  induction h' with
  | refl => exact h
  | make _ hx ih => exact ih.make hx
  | unifyInPlace _ n s t τ ih => exact ih.unifyInPlace n s t τ
  | unify _ n s t τ ih => exact ih.unify n s t τ
  | undoTo _ m τ ih => exact ih.undoTo m τ

theorem of_extends (h : σ.Extends ρ) : σ.Becomes ρ :=
  .make .refl h

/-- No variable is lost. -/
theorem size_le (h : σ.Becomes ρ) : σ.size ≤ ρ.size := by
  have hunify {α : Type} (n : Nat) (s t : Term) (ρ : Store) (τ : Trail α) :
      (Resolvent.unifyInPlace n s t ρ τ).2.1.size = ρ.size :=
    unifyPairs_of_bind size_bind n _ ρ τ
  induction h with
  | refl => exact Nat.le_refl _
  | make _ hx ih => exact Nat.le_trans ih hx.size
  | unifyInPlace _ n s t τ ih => exact ih.trans_eq (hunify n s t _ τ).symm
  | unify _ n s t τ ih =>
    rw [Resolvent.unify]
    dsimp only
    split
    · rw [(Trail.undone_undoTo _ _ _).size, hunify]
      exact ih
    · rw [hunify]
      exact ih
  | undoTo _ m τ ih => exact ih.trans_eq (Trail.undone_undoTo τ _ m).size.symm

theorem ordered (h : σ.Becomes ρ) (hσ : σ.Ordered) : ρ.Ordered := by
  induction h with
  | refl => exact hσ
  | make _ hx ih => exact hx.ordered ih
  | unifyInPlace _ n s t τ ih => exact ih.unifyInPlace n s t τ
  | unify _ n s t τ ih => exact ih.unify n s t τ
  | undoTo _ m τ ih => exact ih.undoTo m τ

end Becomes

end Store

/-! ### Runs -/

namespace Workspace

/-- The bindings of the second workspace are reached from those of the first one, and so are the bindings
of every state that the chronicle tells of in between. -/
structure Develops (s t : Workspace) : Prop where
  /-- The bindings. -/
  store : s.moment.store.Becomes t.moment.store
  /-- What the search has passed through. -/
  passed : ∃ l, t.chronicle = l ++ s.chronicle ∧ ∀ y, .passed y ∈ l → s.moment.store.Becomes y.moment.store

namespace Develops

variable {s t u : Workspace}

/-- Nothing is told of. -/
theorem quiet (hchronicle : t.chronicle = s.chronicle) (hstore : s.moment.store.Becomes t.moment.store) :
    s.Develops t :=
  ⟨hstore, [], hchronicle, nofun⟩

theorem refl (s : Workspace) : s.Develops s :=
  .quiet rfl .refl

theorem trans (h : s.Develops t) (h' : t.Develops u) : s.Develops u := by
  obtain ⟨l, hl, hpassed⟩ := h.passed
  obtain ⟨l', hl', hpassed'⟩ := h'.passed
  refine ⟨h.store.trans h'.store, l' ++ l, by rw [hl', hl, List.append_assoc], fun y hy => ?_⟩
  obtain hy | hy := List.mem_append.mp hy
  · exact h.store.trans (hpassed' y hy)
  · exact hpassed y hy

instance : Std.Refl Develops := ⟨refl⟩

instance : Trans Develops Develops Develops := ⟨trans⟩

/-- What is told of is no state, or the present one. -/
theorem note (s : Workspace) (e : Ghost Chronicle.Event)
    (he : ∀ y, e.value = .passed y → s.moment.store.Becomes y.moment.store) : s.Develops (s.note e) := by
  refine ⟨.refl, [e.value], chronicle_note s e, fun y hy => he y ?_⟩
  exact (List.mem_singleton.mp hy).symm

theorem note_of (s : Workspace) {e : Chronicle.Event} (he : ∀ y, e ≠ .passed y) :
    s.Develops (s.note (.of e)) :=
  .note s _ fun y hy => absurd ((Ghost.value_of e).symm.trans hy) (he y)

theorem pass (s : Workspace) : s.Develops s.pass := by
  refine .note s _ fun y hy => ?_
  rw [Ghost.value_map, Chronicle.Event.passed.injEq] at hy
  rw [← hy, scene, Ghost.value_map]
  exact .refl

/-- How deep activations are nested does not matter. -/
theorem atDepth {m n : Nat} (h : (s.atDepth m).Develops t) : s.Develops (t.atDepth n) :=
  ⟨h.store, h.passed⟩

end Develops

end Workspace

namespace Engine

open Workspace (Develops)

variable {α : Type}

/-! ### Operations of an engine -/

theorem develops_onDatabase {x : DatabaseM α} (hx : Keeps Database.Contains x) :
    Keeps Develops (onDatabase x) := fun s =>
  yields_onDatabase.mpr ((hx s.database).imp (fun _ _ h => .quiet rfl (.of_extends h.store))
    fun _ _ h => .quiet rfl (.of_extends h.store))

theorem develops_onTerms {x : StateM Universe α} (hx : Universe.Extending x) : Keeps Develops (onTerms x) :=
  develops_onDatabase (Database.keeps_onTerms Database.builds_contains hx)

theorem develops_raise (e : ErrorKind) : Keeps Develops (raise e : EngineM α) :=
  develops_onDatabase (Database.keeps_raise Database.builds_contains e)

theorem develops_onBindings {f : Store → Trail Empty → α × Store × Trail Empty}
    (hf : ∀ (σ : Store) (τ : Trail Empty), σ.Becomes (f σ τ).2.1) : Keeps Develops (onBindings f) :=
  fun s => Develops.quiet rfl (hf s.moment.store s.engine.trail)

theorem develops_mark : Keeps Develops mark :=
  develops_onBindings fun _ _ => .refl

theorem develops_undoTo (m : Nat) : Keeps Develops (undoTo m) :=
  develops_onBindings fun _ τ => .undoTo .refl m τ

theorem develops_answered (o : Option α) : Keeps Develops (answered o) := by
  cases o with
  | none => exact .throw _
  | some a => exact .pure _

theorem develops_unify (n : Nat) (s t : Term) : Keeps Develops (unify n s t) :=
  (develops_onBindings fun _ τ => .unify .refl n s t τ).bind develops_answered

theorem develops_unifyInPlace (n : Nat) (s t : Term) : Keeps Develops (unifyInPlace n s t) :=
  (develops_onBindings fun _ τ => .unifyInPlace .refl n s t τ).bind develops_answered

theorem develops_onChoices (f : ChoiceStack → α × ChoiceStack) : Keeps Develops (onChoices f) :=
  fun _ => Develops.quiet rfl .refl

theorem develops_note {e : Chronicle.Event} (he : ∀ y, e ≠ .passed y) : Keeps Develops (note e) :=
  .modify fun s => .note_of s he

theorem develops_exceed (resource : String) : Keeps Develops (exceed resource : EngineM α) :=
  (develops_note (e := .limited) nofun).bind fun _ => develops_raise _

theorem develops_pushChoice (kind : ChoiceKind) : Keeps Develops (pushChoice kind) := by
  have hhold : Keeps Develops (modify (Workspace.hold kind) : EngineM Unit) := by
    refine .modify fun s => ?_
    cases kind with
    | cleanup goal => exact .note_of s nofun
    | _ => exact .refl s
  refine develops_mark.bind fun m => .bind (x := now) (fun s => Develops.refl s) fun made => ?_
  refine (develops_onChoices _).bind fun pushed => ?_
  dsimp only
  split
  · exact hhold
  · exact (develops_exceed _).bind fun _ => hhold

theorem develops_activate : Keeps Develops activate :=
  .bind (.modifyGet fun _ => .quiet rfl .refl) fun _ =>
    .bind (fun s => yields_discard.mpr (develops_mark s)) fun _ => .pure _

end Engine

/-! ### Calls that code makes -/

namespace Activation

open Workspace (Develops)

theorem develops_findCallee (site : Nat) (tag : Tag) (args : Array Term) :
    Keeps Develops (findCallee site tag args) := by
  refine .bind .get fun s => .bind .get fun s' => ?_
  split
  · exact .pure _
  · refine (Engine.develops_onDatabase (Database.keeps_resolve tag)).bind fun r => ?_
    cases r with
    | callee callee => exact .bind (.modify fun s => .quiet rfl .refl) fun _ => .pure _
    | control =>
      exact (Engine.develops_onDatabase (Database.keeps_controlCode Database.builds_contains _ _)).bind
        fun _ => .pure _
    | undefined =>
      refine .bind .get fun s => ?_
      split
      · exact .pure _
      · exact (Engine.develops_onTerms (Exception.extending_unknownProcedure tag)).bind fun _ => .throw _

theorem develops_look (site : Nat) (tag : Tag) (args : Array Term) :
    Keeps Develops (look site tag args) := fun s =>
  yields_look.mpr ((develops_findCallee site tag args s).imp
    (fun _ t h => h.trans (.note_of t nofun)) fun _ t h => h.trans (.note_of t nofun))

end Activation

namespace Effect

open Workspace (Develops)

/-- To lead the bindings on by steps on bindings. -/
def developing : Effect where
  ok := Develops
  err _ := Develops

theorem lawful_developing : developing.Lawful where
  refl := .refl
  trans := .trans
  stopped := .trans
  thrown := .rfl
  spent := .refl
  faulty _ := .refl
  faulted := .trans
  pass := .pass
  overflow s := .note_of s nofun
  exceed := Engine.develops_exceed
  onTerms := Engine.develops_onTerms
  compileGoal _ _ := Engine.develops_onDatabase (Database.keeps_compileGoal Database.builds_contains _ _)
  look := Activation.develops_look
  mark := Engine.develops_mark
  undoTo := Engine.develops_undoTo
  unify := Engine.develops_unify
  unifyInPlace := Engine.develops_unifyInPlace
  pushChoice _ := Engine.develops_pushChoice _
  pop := Engine.develops_onChoices _
  cutTo _ := Engine.develops_onChoices _
  setTop _ _ := Engine.develops_onChoices _
  nested hx s := (Solver.agree_nested (.of_yields ((hx (s.atDepth (s.engine.depth + 1))).imp
    (fun _ _ h => Develops.atDepth h) fun _ _ h => Develops.atDepth h))).yields

theorem uniform_developing : developing.Uniform where
  toLawful := lawful_developing
  alike := .rfl
  outline he := Engine.develops_note fun y hy => by rw [hy] at he; exact he
  interrupt s := .note s _ fun y hy => by rw [Ghost.value_map] at hy; cases hy
  park _ := Develops.quiet rfl .refl
  unpark s := by
    show Develops s _
    dsimp only
    split
    · exact .refl s
    · exact .quiet rfl .refl
  activate := Engine.develops_activate
  report f := Allows.reports lawful_developing rfl (lawful_developing.onTerms (Exception.extending_ofError _)) f
  rest _ := .quiet rfl .refl

theorem retries_developing (ctx : Context) (hctx : developing.Calls ctx) : developing.Retries ctx :=
  lawful_developing.retries (fun _ _ _ s => .note_of s nofun) Engine.develops_pushChoice hctx

end Effect

/-- The native predicates of the host lead the bindings on by steps on bindings, if their calls do. -/
abbrev Host.Developing (host : Host) : Prop :=
  Effect.developing.IsOf host

theorem Host.developing_none : Host.none.Developing :=
  fun _ _ _ _ _ => .throw Effect.uniform_developing _

/-- Whatever an engine is asked for, and however it ends: the bindings are led on by steps on bindings, and
so are those of every state that the search passes through. -/
theorem Operation.develops_run {host : Host} (hhost : host.Developing) (x : Operation) :
    Keeps Workspace.Develops (x.run host) :=
  Effect.uniform_developing.operation Effect.retries_developing hhost x

/-! ### Stores that are reached -/

namespace Store

variable {σ ρ : Store} {host : Host}

/-- The store is reached from one in which no variable has a binding, by steps on bindings and by runs of
engines; it may be met in the middle of a run. -/
inductive Reached (host : Host) : Store → Prop
  | unbound {σ : Store} (h : ∀ v, σ.value? v = none) : Reached host σ
  | becomes {σ ρ : Store} (h : Reached host σ) (hb : σ.Becomes ρ) : Reached host ρ
  | run {s t : Workspace} (h : Reached host s.moment.store) (x : Operation) (ht : Ends (x.run host) s t) :
    Reached host t.moment.store
  | passed {s t : Workspace} {l : Chronicle} {y : Scene} (h : Reached host s.moment.store) (x : Operation)
    (ht : Ends (x.run host) s t) (hl : t.chronicle = l ++ s.chronicle) (hy : .passed y ∈ l) :
    Reached host y.moment.store

/-- Runs of engines are made of steps on bindings. -/
theorem Reached.exists_becomes (hhost : host.Developing) (h : Reached host σ) :
    ∃ σ₀ : Store, (∀ v, σ₀.value? v = none) ∧ σ₀.Becomes σ := by
  induction h with
  | @unbound σ h => exact ⟨σ, h, .refl⟩
  | becomes _ hb ih =>
    obtain ⟨σ₀, h₀, hσ⟩ := ih
    exact ⟨σ₀, h₀, hσ.trans hb⟩
  | run _ x ht ih =>
    obtain ⟨σ₀, h₀, hσ⟩ := ih
    exact ⟨σ₀, h₀, hσ.trans ((x.develops_run hhost).ends ht).store⟩
  | @passed s t l y _ x ht hl hy ih =>
    obtain ⟨σ₀, h₀, hσ⟩ := ih
    obtain ⟨l', hl', hpassed⟩ := ((x.develops_run hhost).ends ht).passed
    obtain rfl := List.append_cancel_right (hl.symm.trans hl')
    exact ⟨σ₀, h₀, hσ.trans (hpassed y hy)⟩

theorem Reached.ordered (hhost : host.Developing) (h : Reached host σ) : σ.Ordered := by
  obtain ⟨σ₀, h₀, hσ⟩ := h.exists_becomes hhost
  exact hσ.ordered fun v w hv => by cases (h₀ v).symm.trans hv

/-- However a store is reached: a variable that is bound to a variable is bound to an older one.
Unification binds unbound variables only, and undoing only takes bindings away. Reading a term goes from
binding to binding, cannot go on for ever, and ends where there is no binding; so it gives nothing new if
it is done twice. -/
theorem Reached.descends (hhost : host.Developing) (h : Reached host σ) :
    (∀ v w, σ.value? v = some (.var w) → w.id < v.id) ∧
    (∀ n s t, ∃ answer l ρ, σ.Fills l ρ ∧
      ∀ {α : Type} (τ : Trail α), unifyInPlace n s t σ τ = (answer, ρ, τ.recordAll l)) ∧
    (∀ {α : Type} (m : Nat) (τ : Trail α) (v : Var),
      (τ.undoTo m σ).1.value? v = σ.value? v ∨ (τ.undoTo m σ).1.value? v = none) ∧
    (WellFounded fun u t => σ.Follows t u) ∧
    ∀ t, ReflTransGen σ.Follows t (σ.deref t) ∧ (∀ u, ¬σ.Follows (σ.deref t) u) ∧
      σ.deref (σ.deref t) = σ.deref t := by
  have hordered := h.ordered hhost
  refine ⟨hordered, fun n s t => hordered.unifyPairs_eq n [(s, t)], fun m τ => value?_undoTo m σ τ,
    hordered.wellFounded, fun t => ⟨σ.reaches_derefWithin σ.size t, hordered.not_follows_deref t,
    hordered.deref_deref t⟩⟩

/-- The second variable is bound to a list cell in which it stands itself, the third one to the first. -/
def circular : Store :=
  ⟨#[none, some (.compound 0 .cons [.var ⟨1⟩, .var ⟨0⟩]), some (.var ⟨0⟩)], 1⟩

/-- Two equations make these bindings. -/
theorem reached_circular : Reached .none circular := by
  have hempty : ∀ v, (⟨#[none, none, none], 1⟩ : Store).value? v = none := by
    rintro ⟨_ | _ | _ | _⟩ <;> rfl
  have hsecond : Becomes ⟨#[none, none, none], 1⟩ _ :=
    .unifyInPlace .refl 2 (.var ⟨1⟩) (.compound 0 .cons [.var ⟨1⟩, .var ⟨0⟩]) (Trail.empty (α := Empty))
  exact (Reached.unbound hempty).becomes (hsecond.unify 2 (.var ⟨2⟩) (.var ⟨0⟩) (Trail.empty (α := Empty)))

/-- Reading ends, although a variable stands in its own binding. -/
theorem Reached.descends_circular : Reached .none circular ∧ ¬circular.Acyclic ∧
    (WellFounded fun u t => circular.Follows t u) ∧
    (∀ t, circular.deref (circular.deref t) = circular.deref t) ∧ circular.deref (.var ⟨2⟩) = .var ⟨0⟩ := by
  have h := Reached.descends Host.developing_none reached_circular
  refine ⟨reached_circular, fun hacyclic => hacyclic ⟨1⟩ (.single ?_), h.2.2.2.1,
    fun t => (h.2.2.2.2 t).2.2, rfl⟩
  exact ⟨_, rfl, .compound (List.mem_cons_self ..) .var⟩

end Store

end Resolvent
