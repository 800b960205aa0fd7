import Resolvent.Proofs.Calling
import Resolvent.Proofs.Coherence
import Resolvent.Proofs.Restoring
import Resolvent.Proofs.Throughout

/-!
# What an engine does to its database

Whatever an engine does, it does to its database what `Database.Serves` says, and the lookups are those
that its chronicle tells of; it calls only what a lookup has just found, and asks for other solutions
only what it has called before (`Workspace.Traces`). This is a lawful effect, whatever a step ends with
(`Effect.uniform_tracing`), so all searches have it, and all calls that code makes
(`Solver.tracing_context`).
-/

namespace Resolvent

namespace Chronicle

/-- The lookup that is told of. -/
def Event.looked? : Event → Option Lookup
  | .looked x => some x
  | _ => none

/-- The lookups that are told of. -/
def lookups (l : Chronicle) : List Lookup :=
  l.filterMap Event.looked?

/-- What may happen after what has happened before: a callee is called when a lookup has just found it,
and asked for another solution if it has been called before. -/
def Event.Follows (config : Config) (l : Chronicle) : Event → Prop
  | .looked x => x.policy = x.database.unknown.getD config.unknown
  | .invoked callee args false => ∃ x l', l = .looked x :: l' ∧ x.found = .ok (some (callee, args))
  | .invoked callee args true => .invoked callee args false ∈ l
  | _ => True

/-- Everything follows from what has happened before. -/
inductive Orderly (config : Config) : Chronicle → Prop where
  | nil : Orderly config []
  | cons {l : Chronicle} {e : Event} (h : Orderly config l) (he : e.Follows config l) :
      Orderly config (e :: l)

end Chronicle

open Chronicle (lookups Orderly)

/-- A callee that is asked for more solutions at the choice point has been called. -/
def ChoicePoint.Called (l : Chronicle) (p : ChoicePoint) : Prop :=
  ∀ callee args resume callAt, p.kind = .retry callee args resume callAt →
    .invoked callee args false ∈ l

theorem ChoicePoint.called_of_not_retry {p : ChoicePoint} (h : ¬p.kind.IsRetry) (l : Chronicle) :
    p.Called l := by
  intro callee args resume callAt hkind
  rw [hkind] at h
  exact absurd trivial h

/-- The choice point is on the choice stack or in a search that is set aside. -/
def Engine.Holds (e : Engine) (p : ChoicePoint) : Prop :=
  p ∈ e.choices.points ∨ ∃ r ∈ e.returnPoints, p ∈ r.points

/-- The engine does nothing but what follows from what it has done before. -/
structure Engine.Honest (e : Engine) : Prop where
  /-- What has been done. -/
  orderly : Orderly e.config e.chronicle.value
  /-- What can be done at the choice points. -/
  points : ∀ p, e.Holds p → p.Called e.chronicle.value

namespace Workspace

/-- The engine has led the database on, with the lookups that its chronicle tells of. -/
structure Traces (s t : Workspace) : Prop where
  /-- The limits and switches. -/
  config : t.engine.config = s.engine.config
  /-- What has happened. -/
  told : ∃ l, t.chronicle = l ++ s.chronicle ∧ s.database.Serves (lookups l) t.database
  /-- The engine is honest. -/
  honest : s.engine.Honest → t.engine.Honest

/-- The workspaces differ in their databases only. -/
def SameEngine (s t : Workspace) : Prop :=
  t.engine = s.engine

instance : Std.Refl SameEngine := ⟨fun _ => rfl⟩

instance : Trans SameEngine SameEngine SameEngine := ⟨fun h h' => h'.trans h⟩

namespace Traces

variable {s t u : Workspace}

theorem refl (s : Workspace) : s.Traces s :=
  ⟨rfl, ⟨[], rfl, .quiet .refl⟩, id⟩

theorem trans (h : s.Traces t) (h' : t.Traces u) : s.Traces u := by
  obtain ⟨l, hl, hs⟩ := h.told
  obtain ⟨l', hl', hs'⟩ := h'.told
  refine ⟨h'.config.trans h.config, ⟨l' ++ l, ?_, ?_⟩, h'.honest ∘ h.honest⟩
  · rw [hl', hl, List.append_assoc]
  · rw [lookups, List.filterMap_append]
    exact hs.trans hs'

instance : Std.Refl Traces := ⟨refl⟩

instance : Trans Traces Traces Traces := ⟨trans⟩

/-- What has happened has happened for ever. -/
theorem mem (h : s.Traces t) {e : Chronicle.Event} (he : e ∈ s.chronicle) : e ∈ t.chronicle := by
  obtain ⟨l, hl, -⟩ := h.told
  exact hl ▸ List.mem_append_right l he

/-- Nothing more is told of, and a callee that is asked for more at a new choice point has been called. -/
theorem quiet (h : s.Traces t) (hdatabase : t.database.Evolves u.database)
    (hconfig : u.engine.config = t.engine.config) (hchronicle : u.chronicle = t.chronicle)
    (hpoints : ∀ p, u.engine.Holds p → t.engine.Holds p ∨ (s.engine.Honest → p.Called t.chronicle)) :
    s.Traces u := by
  obtain ⟨l, hl, hserves⟩ := h.told
  refine ⟨hconfig.trans h.config, ⟨l, hchronicle.trans hl, .trans hserves (.quiet hdatabase)⟩,
    fun hs => ⟨?_, fun p hp => ?_⟩⟩
  · rw [hconfig, show u.engine.chronicle.value = t.engine.chronicle.value from hchronicle]
    exact (h.honest hs).orderly
  · rw [show u.engine.chronicle.value = t.engine.chronicle.value from hchronicle]
    exact (hpoints p hp).elim ((h.honest hs).points p) fun h => h hs

/-- The database is led on. -/
theorem of_evolves {d : Database} (h : s.database.Evolves d) : s.Traces ⟨d, s.engine⟩ :=
  (refl s).quiet h rfl rfl fun _ hp => .inl hp

/-- Something more happens that is no lookup. -/
theorem note (h : s.Traces t) {e : Ghost Chronicle.Event} (hlooked : e.value.looked? = none)
    (hfollows : s.engine.Honest → e.value.Follows t.engine.config t.chronicle) : s.Traces (t.note e) := by
  obtain ⟨l, hl, hserves⟩ := h.told
  refine ⟨h.config, ⟨e.value :: l, by rw [chronicle_note, hl]; rfl, ?_⟩, fun hs => ⟨?_, fun p hp => ?_⟩⟩
  · rw [lookups, List.filterMap_cons_none hlooked]
    exact hserves
  · show Orderly _ (t.note e).chronicle
    rw [chronicle_note]
    exact .cons (h.honest hs).orderly (hfollows hs)
  · show p.Called (t.note e).chronicle
    rw [chronicle_note]
    exact fun callee args r c hkind =>
      List.mem_cons_of_mem _ ((h.honest hs).points p hp callee args r c hkind)

/-- How deep activations are nested does not matter. -/
theorem atDepth {m n : Nat} (h : (s.atDepth m).Traces t) : s.Traces (t.atDepth n) := by
  refine ⟨h.config, h.told, fun hs => ?_⟩
  obtain ⟨horderly, hpoints⟩ := h.honest ⟨hs.orderly, hs.points⟩
  exact ⟨horderly, hpoints⟩

end Traces

end Workspace

open Workspace (Traces)

/-! ### Operations of an engine -/

namespace Engine

variable {α : Type}

theorem traces_onDatabase {x : DatabaseM α} (hx : Keeps Database.Evolves x) :
    Keeps Traces (onDatabase x) := fun s =>
  yields_onDatabase.mpr ((hx s.database).imp (fun _ _ h => .of_evolves h) fun _ _ h => .of_evolves h)

theorem traces_onTerms {x : StateM Universe α} (hx : Universe.Extending x) : Keeps Traces (onTerms x) :=
  traces_onDatabase (Database.keeps_onTerms Database.builds_evolves hx)

theorem traces_raise (e : ErrorKind) : Keeps Traces (raise e : EngineM α) :=
  traces_onDatabase (Database.keeps_raise Database.builds_evolves e)

theorem traces_onBindings (x : Store → Trail Empty → α × Store × Trail Empty) :
    Keeps Traces (onBindings x) :=
  fun s => (Traces.refl s).quiet (.terms (.refl _)) rfl rfl fun _ hp => .inl hp

theorem traces_onChoices {f : ChoiceStack → α × ChoiceStack}
    (hf : ∀ c, ∀ p ∈ (f c).2.points, p ∈ c.points ∨ ¬p.kind.IsRetry) : Keeps Traces (onChoices f) := by
  refine fun s => (Traces.refl s).quiet .refl rfl rfl fun p hp => ?_
  obtain hp | hp := hp
  · exact (hf _ p hp).imp .inl fun h _ => p.called_of_not_retry h _
  · exact .inl (.inr hp)

theorem traces_answered (o : Option α) : Keeps Traces (answered o) := by
  cases o with
  | none => exact .throw _
  | some a => exact .pure _

theorem traces_note (e : Chronicle.Event) (hlooked : e.looked? = none)
    (h : ∀ config l, e.Follows config l) : Keeps Traces (note e) := by
  refine .modify fun s => (Traces.refl s).note ?_ fun _ => ?_
  · rwa [Ghost.value_of]
  · rw [Ghost.value_of]
    exact h _ _

theorem traces_exceed (resource : String) : Keeps Traces (exceed resource : EngineM α) :=
  (traces_note .limited rfl fun _ _ => trivial).bind fun _ => traces_raise _

/-- A choice point is made; a callee that is asked for more solutions there has been called. -/
theorem traces_pushChoice {kind : ChoiceKind} {s t : Workspace} (ht : s.Traces t)
    (h : s.engine.Honest → ∀ callee args resume callAt, kind = .retry callee args resume callAt →
      .invoked callee args false ∈ t.chronicle) :
    Yields (pushChoice kind) t (fun _ u => s.Traces u) fun _ u => s.Traces u := by
  have hhold : Keeps Traces (modify (Workspace.hold kind) : EngineM Unit) := by
    refine .modify fun s => ?_
    cases kind with
    | cleanup goal =>
      exact (Traces.refl s).note (by rw [Ghost.value_of]; rfl) fun _ => by rw [Ghost.value_of]; trivial
    | _ => exact .refl s
  have hmark : Yields mark t (fun _ u => t.database.Evolves u.database ∧
      ∃ τ, u.engine = { t.engine with trail := τ }) fun _ _ => False :=
    ⟨.terms (.refl _), _, rfl⟩
  rw [pushChoice, yields_bind]
  refine hmark.imp (fun m u hu => ?_) fun _ _ h => h.elim
  obtain ⟨hdatabase, τ, hengine⟩ := hu
  obtain ⟨d, e⟩ := u
  subst hengine
  rw [yields_bind, yields_now, yields_bind, yields_onChoices]
  split
  · -- there is room for it
    rw [if_pos rfl]
    have hpush {u : Workspace} (hu : s.Traces u) : Yields (modify (Workspace.hold kind) : EngineM Unit) u
        (fun _ v => s.Traces v) fun _ v => s.Traces v :=
      (hhold u).imp (fun _ _ hv => hu.trans hv) fun _ _ hv => hu.trans hv
    refine hpush (ht.quiet hdatabase rfl rfl fun p hp => ?_)
    obtain hp | hp := hp
    · obtain hp | rfl := Array.mem_or_eq_of_mem_push hp
      · exact .inl (.inl hp)
      · exact .inr h
    · exact .inl (.inr hp)
  · rw [if_neg Bool.false_ne_true]
    have hmarked : s.Traces ⟨d, { t.engine with trail := τ }⟩ :=
      ht.quiet hdatabase rfl rfl fun _ hp => .inl hp
    refine Yields.imp (((traces_exceed _).bind fun _ => hhold) _) (fun _ u hu => ?_) fun _ u hu => ?_
    all_goals exact hmarked.trans hu

theorem traces_pop : Keeps Traces pop :=
  traces_onChoices fun _ _ hp => .inl (Activation.mem_of_mem_pop hp)

theorem traces_activate : Keeps Traces activate := by
  refine .bind (.modifyGet fun s => ?_) fun id => .bind ?_ fun _ => .pure _
  · exact (Traces.refl s).quiet .refl rfl rfl fun _ hp => .inl hp
  · exact fun s => yields_discard.mpr (traces_onBindings _ s)

theorem traces_cutTo (n : Nat) : Keeps Traces (cutTo n) := by
  refine traces_onChoices fun c p hp => .inl ?_
  rw [ChoiceStack.cutTo, Array.shrink_eq_take] at hp
  exact Activation.mem_of_mem_extract hp

theorem traces_setTop (m l : Nat) :
    Keeps Traces (onChoices fun c => ((), c.setTop ⟨m, .alternative l⟩)) := by
  refine traces_onChoices fun c p hp => ?_
  obtain hp | rfl := Array.mem_or_eq_of_mem_setIfInBounds hp
  · exact .inl hp
  · exact .inr id

end Engine

/-! ### Calls that code makes -/

namespace Activation

variable {ctx : Context} {s : Workspace}

/-- A lookup is a matter of the database. -/
theorem keeps_engine_findCallee (site : Nat) (tag : Tag) (args : Array Term) :
    Keeps Workspace.SameEngine (findCallee site tag args) := by
  have hdatabase {α : Type} (x : DatabaseM α) : Keeps Workspace.SameEngine (Engine.onDatabase x) := by
    intro s
    rw [Engine.yields_onDatabase]
    unfold Yields
    split <;> rfl
  refine .bind .get fun s => .bind .get fun s' => ?_
  split
  · exact .pure _
  · refine (hdatabase _).bind fun r => ?_
    cases r with
    | callee callee => exact .bind (.modify fun s => rfl) fun _ => .pure _
    | control => exact (hdatabase _).bind fun _ => .pure _
    | undefined =>
      refine .bind .get fun s => ?_
      split
      · exact .pure _
      · exact (hdatabase _).bind fun x => .throw _

/-- A call makes one lookup and tells of it. -/
theorem tells_find (n : UInt16) (m : Machine) : Yields (find n) m
    (fun r m' => ∃ x : Lookup, x.found = .ok r ∧
      m'.workspace.chronicle = .looked x :: m.workspace.chronicle) fun _ _ => True := by
  have htag : Yields (tag n) m (fun _ m' => m'.workspace = m.workspace) fun _ _ => True := by
    rw [tag, yields_bind, yields_get]
    cases m.activation.code.chunk.tags[n.toNat]? with
    | none => trivial
    | some t => rfl
  have hargs (k : Nat) (m : Machine) :
      Yields (popMany k) m (fun _ m' => m'.workspace = m.workspace) fun _ _ => True := by
    unfold Yields popMany
    dsimp only
    split <;> rename_i heq <;> split at heq <;> cases heq
    · rfl
    · trivial
  rw [find, yields_bind]
  refine htag.imp (fun tag m₁ h₁ => ?_) fun _ _ h => h
  rw [yields_bind, yields_get, yields_bind]
  refine (hargs _ m₁).imp (fun args m₂ h₂ => ?_) fun _ _ h => h
  rw [yields_bind, yields_get, yields_onWorkspace, yields_look]
  refine (keeps_engine_findCallee _ tag args m₂.workspace).imp (fun r t ht => ?_) fun _ _ _ => trivial
  have hengine : t.engine = m.workspace.engine := ht.trans (congrArg Workspace.engine (h₂.trans h₁))
  refine ⟨⟨m₂.workspace.database, m₂.workspace.unknownPolicy, tag, args, .ok r⟩, rfl, ?_⟩
  rw [Workspace.chronicle_note, Ghost.value_of]
  exact congrArg (List.cons _) (congrArg (·.chronicle.value) hengine)

/-- What has been found may be called. -/
theorem traces_look (site : Nat) (tag : Tag) (args : Array Term) (s : Workspace) :
    Yields (look site tag args) s
      (fun r t => s.Traces t ∧ ∀ callee args', r = some (callee, args') →
        ∀ config, (Chronicle.Event.invoked callee args' false).Follows config t.chronicle)
      fun _ t => s.Traces t := by
  rw [yields_look]
  -- the lookup is told of
  have htell {t : Workspace} {x : Lookup} (hengine : s.SameEngine t)
      (hserves : s.database.Serves [x] t.database)
      (hpolicy : x.policy = x.database.unknown.getD s.engine.config.unknown) :
      s.Traces (t.note (.of (.looked x))) := by
    have hchronicle : t.chronicle = s.chronicle := congrArg (·.chronicle.value) hengine
    have hconfig : t.engine.config = s.engine.config := congrArg Engine.config hengine
    refine ⟨hconfig, ⟨[.looked x], ?_, hserves⟩, fun hs => ⟨?_, fun p hp => ?_⟩⟩
    · rw [Workspace.chronicle_note, Ghost.value_of, hchronicle]
      rfl
    · show Orderly t.engine.config (t.note _).chronicle
      rw [Workspace.chronicle_note, Ghost.value_of, hchronicle, hconfig]
      exact .cons hs.orderly hpolicy
    · show p.Called (t.note _).chronicle
      rw [Workspace.chronicle_note, Ghost.value_of, hchronicle]
      have hp : s.engine.Holds p := hengine ▸ hp
      exact fun callee args r c hkind => List.mem_cons_of_mem _ (hs.points p hp callee args r c hkind)
  have hengine := keeps_engine_findCallee site tag args s
  unfold Yields at hengine ⊢
  cases hx : findCallee site tag args s with
  | error e t =>
    rw [hx] at hengine
    exact htell hengine (.failed hx) rfl
  | ok r t =>
    rw [hx] at hengine
    refine ⟨htell hengine (.found hx) rfl, fun callee args' hr config => ?_⟩
    rw [Workspace.chronicle_note, Ghost.value_of]
    exact ⟨_, _, rfl, congrArg Except.ok hr⟩

/-- What may be called is called, and has been called then. -/
theorem traces_invoke (hctx : ∀ callee args redo, Keeps Traces (ctx.invoke callee args redo))
    {callee : Callee} {args : Array Term} {redo : Bool} {t : Workspace} (ht : s.Traces t)
    (h : s.engine.Honest →
      (Chronicle.Event.invoked callee args redo).Follows t.engine.config t.chronicle) :
    Yields (invoke ctx callee args redo) t
      (fun _ u => s.Traces u ∧ (s.engine.Honest → .invoked callee args false ∈ u.chronicle))
      fun _ u => s.Traces u := by
  rw [invoke, yields_bind, Engine.note, yields_modify]
  have hnote : s.Traces (t.note (.of (.invoked callee args redo))) :=
    ht.note (by rw [Ghost.value_of]; rfl) (by rw [Ghost.value_of]; exact h)
  refine (hctx callee args redo _).imp (fun _ u hu => ⟨hnote.trans hu, fun hs => hu.mem ?_⟩)
    fun _ _ hu => hnote.trans hu
  rw [Workspace.chronicle_note, Ghost.value_of]
  cases redo with
  | false => exact List.mem_cons_self ..
  | true => exact List.mem_cons_of_mem _ (h hs)

theorem traces_proceed {callee : Callee} {args : Array Term} (resume callAt : Nat) (a : Answer)
    {m : Machine} (ht : s.Traces m.workspace)
    (h : s.engine.Honest → .invoked callee args false ∈ m.workspace.chronicle) :
    Yields (proceed callee args resume callAt a) m
      (fun _ m' => m'.activation.code = m.activation.code ∧ s.Traces m'.workspace)
      fun _ m' => m'.activation.code = m.activation.code ∧ s.Traces m'.workspace := by
  cases a with
  | more =>
    rw [proceed, yields_bind, yields_onWorkspace]
    refine (Engine.traces_pushChoice ht fun hs callee' args' resume' callAt' heq => ?_).imp
      (fun _ _ h => ⟨rfl, h⟩) fun _ _ h => ⟨rfl, h⟩
    cases heq
    exact h hs
  | last => exact ⟨rfl, ht⟩
  | fail => exact ⟨rfl, ht⟩

end Activation

namespace Effect

/-- To lead the database on in the way that the chronicle tells of. -/
def tracing : Effect where
  ok := Traces
  err _ := Traces

theorem lawful_tracing : tracing.Lawful where
  refl := .refl
  trans := .trans
  stopped := .trans
  thrown := .rfl
  spent := .refl
  faulty _ := .refl
  faulted := .trans
  pass s := (Traces.refl s).note (by rw [Ghost.value_map]; rfl) fun _ => by rw [Ghost.value_map]; trivial
  overflow s := (Traces.refl s).note (by rw [Ghost.value_of]; rfl) fun _ => by rw [Ghost.value_of]; trivial
  exceed := Engine.traces_exceed
  onTerms := Engine.traces_onTerms
  compileGoal _ _ := Engine.traces_onDatabase (Database.keeps_compileGoal Database.builds_evolves _ _)
  look _ _ _ s := (Activation.traces_look _ _ _ s).imp (fun _ _ h => h.1) fun _ _ h => h
  mark := Engine.traces_onBindings _
  undoTo _ := Engine.traces_onBindings _
  unify _ _ _ := (Engine.traces_onBindings _).bind Engine.traces_answered
  unifyInPlace _ _ _ := (Engine.traces_onBindings _).bind Engine.traces_answered
  pushChoice hkind s := Engine.traces_pushChoice (.refl s) fun _ callee args resume callAt heq => by
    subst heq
    exact absurd trivial hkind
  pop := Engine.traces_pop
  cutTo := Engine.traces_cutTo
  setTop := Engine.traces_setTop
  nested hx s := (Solver.agree_nested (.of_yields ((hx (s.atDepth (s.engine.depth + 1))).imp
    (fun _ _ h => Traces.atDepth h) fun _ _ h => Traces.atDepth h))).yields

variable {ctx : Context}

theorem interrupts_tracing {i : Interrupt} {s t : Workspace} : tracing.interrupts i s t ↔ s.Traces t := by
  cases i <;> exact Iff.rfl

/-- What a call finds may be called. -/
theorem tracing_find (n : UInt16) (m : Machine) : Yields (Activation.find n) m
    (fun r m' => m'.activation.code = m.activation.code ∧ m.workspace.Traces m'.workspace ∧
      ∀ callee args, r = some (callee, args) → ∀ config,
        (Chronicle.Event.invoked callee args false).Follows config m'.workspace.chronicle)
    fun _ m' => m'.activation.code = m.activation.code ∧ m.workspace.Traces m'.workspace := by
  have hF := lawful_tracing
  rw [Activation.find, yields_bind]
  refine (AllowsIn.tag hF n m).imp (fun tag m₁ h₁ => ?_) fun _ _ h => h.imp_right interrupts_tracing.mp
  rw [yields_bind, yields_get, yields_bind]
  refine (AllowsIn.popMany hF _ m₁).imp (fun args m₂ h₂ => ?_)
    fun _ _ h => ⟨h.1.trans h₁.1, h₁.2.trans (interrupts_tracing.mp h.2)⟩
  rw [yields_bind, yields_get, Activation.yields_onWorkspace]
  have hcode := h₂.1.trans h₁.1
  have htraces := Traces.trans h₁.2 h₂.2
  exact (Activation.traces_look _ _ _ m₂.workspace).imp
    (fun _ _ ht => ⟨hcode, htraces.trans ht.1, ht.2⟩) fun _ _ ht => ⟨hcode, htraces.trans ht⟩

/-- A callee is called when it has been found, and asked for more when it has been called. -/
theorem retries_tracing (hctx : tracing.Calls ctx) : tracing.Retries ctx := by
  have hF := lawful_tracing
  refine ⟨fun n m => ?_, ?_⟩
  · rw [Activation.call, yields_bind]
    refine (tracing_find n m).imp (fun r m₁ h₁ => ?_) fun _ _ h => h.imp_right interrupts_tracing.mpr
    obtain ⟨hcode, ht, hmay⟩ := h₁
    cases r with
    | none => exact ⟨hcode, ht⟩
    | some r =>
      obtain ⟨callee, args⟩ := r
      rw [yields_bind, Activation.yields_onWorkspace]
      refine (Activation.traces_invoke hctx.invoke ht fun _ => hmay callee args rfl _).imp
        (fun a u hu => ?_) fun _ _ hu => ⟨hcode, hu⟩
      rw [yields_bind, yields_get]
      exact (Activation.traces_proceed _ _ a hu.1 hu.2).imp (fun _ _ h => ⟨h.1.trans hcode, h.2⟩)
        fun _ _ h => ⟨h.1.trans hcode, interrupts_tracing.mpr h.2⟩
  · refine (AllowsIn.onWorkspace (.height hF)).bind hF fun height => (AllowsIn.get hF).bind hF fun m => ?_
    refine .guard hF (.fault hF _) fun _ m => ?_
    rw [yields_bind, Activation.yields_onWorkspace, Engine.yields_top?]
    have hundo (mark : Nat) {f : Unit → MachineM Course} (hf : ∀ a, tracing.AllowsIn (f a)) :
        tracing.AllowsIn (do
          Activation.onWorkspace Engine.pop
          f (← Activation.onWorkspace (Engine.undoTo mark))) :=
      (AllowsIn.onWorkspace hF.pop).bind hF fun _ => (AllowsIn.onWorkspace (hF.undoTo _)).bind hF hf
    cases htop : m.workspace.points.getLast? with
    | none => exact AllowsIn.fault hF _ m
    | some p =>
      obtain ⟨mark, kind⟩ := p
      cases kind with
      | alternative resume =>
        refine AllowsIn.bind hF (AllowsIn.onWorkspace (hF.undoTo _)) (fun _ => ?_) m
        exact (AllowsIn.update hF fun _ => by rfl).bind hF fun _ => .pure hF _
      | entry code => exact hundo mark (fun _ => .pure hF _) m
      | retry callee args resume callAt =>
        have hmem : m.workspace.engine.Holds ⟨mark, .retry callee args resume callAt⟩ :=
          .inl (Array.mem_toList_iff.mp (List.mem_of_getLast? htop))
        dsimp only
        rw [yields_bind, Activation.yields_onWorkspace, Engine.pop, Engine.yields_onChoices, yields_bind,
          Activation.yields_onWorkspace, Engine.undoTo, Engine.yields_onBindings, yields_bind,
          Activation.yields_update, yields_bind, Activation.yields_onWorkspace]
        refine (Activation.traces_invoke hctx.invoke (s := m.workspace) ?_ fun hs => ?_).imp
          (fun a u hu => ?_) fun _ _ hu => ⟨rfl, hu⟩
        · refine (Traces.refl _).quiet (.terms (.refl _)) rfl rfl fun p hp => .inl ?_
          exact hp.imp_left Activation.mem_of_mem_pop
        · exact hs.points _ hmem callee args resume callAt rfl
        · exact (Activation.traces_proceed _ _ a hu.1 hu.2).imp (fun _ _ h => h)
            fun _ _ h => h.imp_right interrupts_tracing.mpr
      | cleanup goal =>
        refine hundo mark (fun _ => ?_) m
        exact (AllowsIn.onWorkspace (hctx.runCleanups _)).bind hF fun _ => .pure hF _
      | native state => exact hundo mark (fun _ => .pure hF _) m
      | exit slots height => exact hundo mark (fun _ => .pure hF _) m

/-- Between two searches, choice points are set aside and taken up again; nothing else happens to them. -/
theorem uniform_tracing : tracing.Uniform where
  toLawful := lawful_tracing
  alike := .rfl
  outline {e} he := by
    -- lookups and calls are no part of the outline
    cases e <;> first | exact he.elim | exact Engine.traces_note _ rfl fun _ _ => trivial
  interrupt s := (Traces.refl s).note (by rw [Ghost.value_map]; rfl)
    fun _ => by rw [Ghost.value_map]; trivial
  park s := by
    refine (Traces.refl s).quiet .refl rfl rfl fun p hp => .inl ?_
    obtain hp | ⟨r, hr, hp⟩ := hp
    · cases hp with | mk hp => cases hp
    · obtain rfl | hr := List.mem_cons.mp hr
      · exact .inl hp
      · exact .inr ⟨r, hr, hp⟩
  unpark := by
    refine Keeps.modify fun s => ?_
    split
    · exact .refl s
    · rename_i r rest heq
      refine (Traces.refl s).quiet .refl rfl rfl fun p hp => .inl (.inr ?_)
      obtain hp | ⟨r', hr', hp⟩ := hp
      · exact ⟨r, heq ▸ List.mem_cons_self .., hp⟩
      · exact ⟨r', heq ▸ List.mem_cons_of_mem _ hr', hp⟩
  activate := Engine.traces_activate
  report f := Allows.reports lawful_tracing rfl (lawful_tracing.onTerms (Exception.extending_ofError _)) f
  rest s := (Traces.refl s).quiet .refl rfl rfl fun _ hp => .inl hp

end Effect

/-- The native predicates of the host lead a database on as engines do, if their calls do. -/
def Host.Tracing (host : Host) : Prop :=
  ∀ ctx : Context, Effect.tracing.Calls ctx → ∀ id redo args, Keeps Traces (host id ctx redo args)

/-- All calls of an engine lead the database on in the way that the chronicle tells of. -/
theorem Solver.tracing_context {host : Host} (hhost : host.Tracing) (n : Nat) :
    Effect.tracing.Calls (context host n) :=
  Effect.uniform_tracing.context (fun _ hctx => Effect.retries_tracing hctx) hhost n

/-- Nothing is told of where a call of code is entered. -/
theorem Engine.tells_pushChoice (code : Code) (s : Workspace) : Yields (pushChoice (.entry code)) s
    (fun _ t => t.chronicle = s.chronicle) fun _ _ => True := by
  have hmark : Yields mark s (fun _ u => u.chronicle = s.chronicle) fun _ _ => True :=
    rfl
  rw [pushChoice, yields_bind]
  refine hmark.imp (fun m u hu => ?_) fun _ _ h => h
  rw [yields_bind, yields_now, yields_bind, yields_onChoices]
  split
  · rw [if_pos rfl, yields_modify]
    exact hu
  · rw [if_neg Bool.false_ne_true, yields_bind, exceed, yields_bind, note, yields_modify, raise,
      yields_onDatabase]
    trivial

theorem Host.tracing_none : Host.none.Tracing :=
  fun _ _ _ _ _ => .throw _

end Resolvent
