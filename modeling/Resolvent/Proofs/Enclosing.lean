import Resolvent.Solver
import Resolvent.Proofs.Growth

/-!
# Steps within a search

`Workspace.Encloses s s'` says that in `s'` the limits, the goal, the searches set aside and the depth
are those of `s`, and that what has been bound since any earlier moment with an empty trail is still
on the trail. It asks nothing of the choice points or of the marks that they hold, so every operation
of an engine keeps to it, in whatever state it is carried out. A step is `Engine.Within` a search if
it keeps to it unless the fuel does not suffice.
-/

namespace Resolvent

/-! ### Databases -/

namespace Database

/-- Terms may be built and code may be loaded. -/
structure Builds (R : Database → Database → Prop) : Prop where
  /-- Terms are built. -/
  terms : ∀ {d : Database} {u : Universe}, d.terms.Extends u → R d { d with terms := u }
  /-- Code is loaded. -/
  load : ∀ (d : Database) (c : Chunk),
    R d { d with sites := d.sites ++ c.tags.map fun tag => (tag, .empty) }

section Builds

variable {R : Database → Database → Prop} [Std.Refl R] [Trans R R R] (hR : Builds R)

include hR

omit [Std.Refl R] [Trans R R R] in
theorem keeps_onTerms {α : Type} {x : StateM Universe α} (hx : Universe.Extending x) :
    Keeps R (onTerms x) :=
  fun d => hR.terms (hx d.terms)

theorem keeps_raise {α : Type} (e : ErrorKind) : Keeps R (raise e : DatabaseM α) :=
  (keeps_onTerms hR (Exception.extending_ofError e)).bind fun _ => .throw _

omit [Std.Refl R] [Trans R R R] in
theorem keeps_compile {α : Type} {x : EStateM CompileError Universe α}
    (hx : Keeps Universe.Extends x) (kind : CompileError → ErrorKind) :
    Keeps R (compile x kind) :=
  fun d => yields_compile.mpr ((hx d.terms).imp (fun _ _ h => hR.terms h)
    fun e u h => hR.terms (h.trans (Exception.extending_ofError (kind e) u)))

omit [Std.Refl R] [Trans R R R] in
theorem keeps_load (c : Chunk) : Keeps R (load c) :=
  .modifyGet fun d => hR.load d c

theorem keeps_compileGoal (name : Atom) (goal : Term) : Keeps R (compileGoal name goal) := by
  refine .bind .get fun d => ?_
  dsimp only
  -- the goal is a term that can be called
  have hrest (goal : Term) : Keeps R (do
      let vars := (d.terms.store.vars goal).map Term.var
      let tag ← onTerms (Universe.tag name vars.length)
      let head ← if vars.isEmpty then pure (.atom name) else onTerms (Universe.compound tag vars)
      let chunk ← compile (Chunk.ofClauses tag [⟨head, goal⟩]) (CompileError.kindFor goal)
      return (← load chunk, vars.toArray)) := by
    refine (keeps_onTerms hR (Universe.extending_tag _ _)).bind fun tag => ?_
    have hload (head : Term) : Keeps R (do
        let chunk ← compile (Chunk.ofClauses tag [⟨head, goal⟩]) (CompileError.kindFor goal)
        return (← load chunk, ((d.terms.store.vars goal).map Term.var).toArray)) := by
      refine (keeps_compile hR (Chunk.keeps_ofClauses _ _) _).bind fun c => ?_
      exact (keeps_load hR c).bind fun _ => .pure _
    dsimp only
    split
    · exact .bind (.pure _) fun head => hload head
    · exact (keeps_onTerms hR (Universe.extending_compound _ _)).bind fun head => hload head
  split
  · exact (keeps_raise hR _).bind fun _ => hrest _
  · exact hrest _
  · exact hrest _
  · exact (keeps_raise hR _).bind fun _ => hrest _

theorem keeps_controlGoal (tag : Tag) (args : List Term) : Keeps R (controlGoal tag args) := by
  have hmade (name : Atom) (all : List Term) : Keeps R
      (onTerms do Universe.compound (← Universe.tag name all.length) all) :=
    keeps_onTerms hR ((Universe.extending_tag _ _).bind fun _ => Universe.extending_compound _ _)
  unfold controlGoal
  split
  · refine .bind .get fun d => ?_
    split
    · exact keeps_raise hR _
    · refine .ite (.pure _) ?_
      split
      · exact hmade _ _
      · exact .bind .get fun d => hmade _ _
      · exact keeps_raise hR _
  · exact .bind .get fun d => .pure _
  · exact keeps_onTerms hR (Universe.extending_compound _ _)

theorem keeps_controlCode (tag : Tag) (args : List Term) : Keeps R (controlCode tag args) :=
  (keeps_controlGoal hR tag args).bind fun _ => keeps_compileGoal hR _ _

end Builds

/-- The tags and the bindings are kept. -/
def Contains (d d' : Database) : Prop :=
  d.terms.Extends d'.terms

instance : Std.Refl Contains := ⟨fun d => .refl d.terms⟩

instance : Trans Contains Contains Contains := ⟨fun h h' => Universe.Extends.trans h h'⟩

theorem builds_contains : Builds Contains :=
  ⟨id, fun d _ => .refl d.terms⟩

theorem keeps_resolve (tag : Tag) : Keeps Contains (resolve tag) := by
  refine .ite (.pure _) (.bind .get fun d => ?_)
  split
  · exact .pure _
  · exact .pure _
  · refine .bind (.modifyGet fun d => .refl d.terms) fun found => ?_
    split
    · exact .pure _
    · refine .bind (keeps_compile builds_contains (Chunk.keeps_ofClauses _ _) _) fun c => ?_
      refine (keeps_load builds_contains c).bind fun code => ?_
      exact .bind (.modify fun d => .refl d.terms) fun _ => .pure _

end Database

/-! ### Workspaces -/

namespace Workspace

/-- The second workspace is reached from the first one within the search of the same goal. -/
structure Encloses (s s' : Workspace) : Prop where
  /-- The tags are kept. -/
  symbols : s.database.terms.symbols.Extends s'.database.terms.symbols
  /-- The limits are kept. -/
  config : s'.engine.config = s.engine.config
  /-- The limit of the choice stack is kept. -/
  limit : s'.engine.choices.limit = s.engine.choices.limit
  /-- The searches set aside are kept. -/
  returnPoints : s'.engine.returnPoints = s.engine.returnPoints
  /-- The goal is the same. -/
  active : s'.engine.active = s.engine.active
  /-- The depth is the same. -/
  depth : s'.engine.depth = s.engine.depth
  /-- What has been bound since a moment with an empty trail is on the trail. -/
  before : ∀ m : Moment, m.mark = 0 → m.Before s.moment → m.Before s'.moment

namespace Encloses

theorem refl (s : Workspace) : s.Encloses s :=
  ⟨.refl _, rfl, rfl, rfl, rfl, rfl, fun _ _ h => h⟩

theorem trans {s₁ s₂ s₃ : Workspace} (h : s₁.Encloses s₂) (h' : s₂.Encloses s₃) :
    s₁.Encloses s₃ :=
  ⟨h.symbols.trans h'.symbols, h'.config.trans h.config, h'.limit.trans h.limit,
    h'.returnPoints.trans h.returnPoints, h'.active.trans h.active, h'.depth.trans h.depth,
    fun m hm hs => h'.before m hm (h.before m hm hs)⟩

instance : Std.Refl Encloses := ⟨refl⟩

instance : Trans Encloses Encloses Encloses := ⟨trans⟩

/-- A database that contains the one before. -/
theorem of_contains {s : Workspace} {d : Database} (h : s.database.Contains d) :
    s.Encloses ⟨d, s.engine⟩ :=
  ⟨h.symbols, rfl, rfl, rfl, rfl, rfl,
    fun _ _ hs => hs.trans (Moment.same_of_extends h.store hs.recording).before⟩

/-- Other choice points. -/
theorem of_choices {s : Workspace} {choices : ChoiceStack}
    (h : choices.limit = s.engine.choices.limit) :
    s.Encloses { s with engine := { s.engine with choices } } :=
  ⟨.refl _, rfl, h, rfl, rfl, rfl, fun _ _ hs => hs⟩

theorem of_note {s : Workspace} (e : Ghost Chronicle.Event) : s.Encloses (s.note e) :=
  ⟨.refl _, rfl, rfl, rfl, rfl, rfl, fun _ _ hs => hs⟩

end Encloses

/-! ### Searches set aside -/

/-- The workspace with an empty search, the present one being set aside. -/
def parked (s : Workspace) : Workspace :=
  { s with engine := { s.engine with
      trail := s.engine.trail.setAside.2
      choices := { s.engine.choices with points := #[], made := .of [] }
      returnPoints := ⟨s.engine.choices.points, s.engine.choices.made, s.engine.trail,
        s.engine.active⟩ :: s.engine.returnPoints } }

/-- The workspace with a new goal. -/
def awake (s : Workspace) : Workspace :=
  { s with engine := { s.engine with
      active := some s.engine.nextGoal
      nextGoal := s.engine.nextGoal + 1
      trail := s.engine.trail.mark.2 } }

/-- The workspace with the search taken up that was set aside. -/
def unparked (s : Workspace) (r : ReturnPoint) (rest : List ReturnPoint) : Workspace :=
  { s with engine := { s.engine with
      choices := { s.engine.choices with points := r.points, made := r.made }
      trail := r.trail
      active := r.active
      returnPoints := rest } }

end Workspace

namespace Engine

open Workspace (Encloses)

variable {α : Type}

/-! ### Operations -/

theorem keeps_onDatabase {x : DatabaseM α} (hx : Keeps Database.Contains x) :
    Keeps Encloses (onDatabase x) := by
  intro s
  rw [yields_onDatabase]
  exact (hx s.database).imp (fun _ _ h => .of_contains h) fun _ _ h => .of_contains h

theorem encloses_onTerms {x : StateM Universe α} (hx : Universe.Extending x) (s : Workspace) :
    Yields (onTerms x) s (fun _ u => s.Encloses u) fun _ _ => False :=
  Encloses.of_contains (hx s.database.terms)

theorem keeps_onTerms {x : StateM Universe α} (hx : Universe.Extending x) :
    Keeps Encloses (onTerms x) :=
  keeps_onDatabase (Database.keeps_onTerms Database.builds_contains hx)

theorem keeps_raise (e : ErrorKind) : Keeps Encloses (raise e : EngineM α) :=
  keeps_onDatabase (Database.keeps_raise Database.builds_contains e)

theorem keeps_onChoices {f : ChoiceStack → α × ChoiceStack} (hf : ∀ c, (f c).2.limit = c.limit) :
    Keeps Encloses (onChoices f) :=
  fun s => Encloses.of_choices (hf s.engine.choices)

theorem keeps_top? : Keeps Encloses top? :=
  fun s => .refl s

theorem keeps_now : Keeps Encloses now :=
  fun s => .refl s

theorem keeps_note (e : Chronicle.Event) : Keeps Encloses (note e) :=
  .modify fun _ => .of_note _

theorem keeps_exceed (resource : String) : Keeps Encloses (exceed resource : EngineM α) :=
  (keeps_note _).bind fun _ => keeps_raise _

/-- A step on bindings that keeps to the trail. -/
theorem keeps_onBindings {f : Store → Trail Empty → α × Store × Trail Empty}
    (hf : ∀ (m : Moment) (σ : Store) (τ : Trail Empty), m.mark = 0 → m.Before ⟨σ, τ⟩ →
      m.Before ⟨(f σ τ).2.1, (f σ τ).2.2⟩) : Keeps Encloses (onBindings f) :=
  fun _ => ⟨.refl _, rfl, rfl, rfl, rfl, rfl, fun m hm hs => hf m _ _ hm hs⟩

theorem keeps_mark : Keeps Encloses mark :=
  keeps_onBindings fun _ _ τ _ h => h.trans (Moment.same_mark τ h.recording.ordered).before

/-- A workspace that differs in its bindings and its trail only. -/
def rebind (s : Workspace) (m : Moment) : Workspace :=
  { database := { s.database with terms := { s.database.terms with store := m.store } }
    engine := { s.engine with trail := m.trail } }

theorem yields_undoTo_iff {s : Workspace} {n : Nat} {Q : Unit → Workspace → Prop}
    {E : Stop → Workspace → Prop} :
    Yields (undoTo n) s Q E ↔ Q () (rebind s (s.moment.undoTo n)) :=
  Iff.rfl

theorem keeps_undoTo (n : Nat) : Keeps Encloses (undoTo n) :=
  keeps_onBindings fun _ _ _ hm h => h.undoTo (hm ▸ Nat.zero_le n)

theorem keeps_answered (o : Option α) : Keeps Encloses (answered o) := by
  cases o with
  | none => exact .throw _
  | some a => exact .pure _

theorem keeps_unifyInPlace (n : Nat) (t t' : Term) : Keeps Encloses (unifyInPlace n t t') :=
  (keeps_onBindings fun _ _ _ _ h =>
    h.trans (Moment.before_unifyPairs n _ _ _ h.recording)).bind keeps_answered

theorem keeps_unify (n : Nat) (t t' : Term) : Keeps Encloses (unify n t t') :=
  (keeps_onBindings fun _ _ _ _ h => h.trans (Moment.before_unify n t t' h.recording)).bind
    keeps_answered

theorem keeps_pop : Keeps Encloses pop :=
  keeps_onChoices fun _ => rfl

theorem keeps_cutTo (n : Nat) : Keeps Encloses (cutTo n) :=
  keeps_onChoices fun _ => rfl

theorem keeps_pushChoice (kind : ChoiceKind) : Keeps Encloses (pushChoice kind) := by
  refine keeps_mark.bind fun m => keeps_now.bind fun made => ?_
  refine (keeps_onChoices fun c => ?_).bind fun pushed => ?_
  · split <;> rfl
  have hhold : Keeps Encloses (modify (Workspace.hold kind) : EngineM Unit) := by
    refine .modify fun s => ?_
    cases kind with
    | cleanup goal => exact .of_note _
    | _ => exact .refl s
  dsimp only
  split
  · exact hhold
  · exact (keeps_exceed _).bind fun _ => hhold

theorem keeps_popNativeState : Keeps Encloses popNativeState := by
  refine keeps_top?.bind fun p => ?_
  split
  · exact keeps_pop.bind fun _ => (keeps_undoTo _).bind fun _ => .pure _
  · exact .pure _

theorem keeps_popCleanup : Keeps Encloses popCleanup := by
  refine keeps_top?.bind fun p => ?_
  split
  · exact keeps_pop.bind fun _ => .pure _
  · exact .pure _

/-! ### Steps within a search -/

/-- The step stays within the search, unless the fuel does not suffice for it. -/
def Within (x : EngineM α) : Prop :=
  ∀ s, Yields x s (fun _ s' => s.Encloses s') fun e s' => e ≠ .spent → s.Encloses s'

namespace Within

variable {β : Type}

theorem of_keeps {x : EngineM α} (h : Keeps Encloses x) : Within x :=
  fun s => (h s).imp (fun _ _ h => h) fun _ _ h _ => h

theorem pure (a : α) : Within (Pure.pure a : EngineM α) :=
  of_keeps (.pure a)

theorem throw (e : Stop) : Within (throw e : EngineM α) :=
  of_keeps (.throw e)

theorem bind {x : EngineM α} {f : α → EngineM β} (hx : Within x) (hf : ∀ a, Within (f a)) :
    Within (x >>= f) := by
  intro s
  rw [yields_bind]
  refine (hx s).imp (fun a s' h => ?_) fun _ _ h => h
  exact (hf a s').imp (fun _ _ h' => h.trans h') fun _ _ h' he => h.trans (h' he)

end Within

end Engine

end Resolvent
