import Resolvent.Proofs.Chronicle
import Resolvent.Proofs.Enclosing
import Resolvent.Proofs.Surroundings

/-!
# What a search leaves alone

Two relations of workspaces follow a search. `Workspace.Later s s'`: what has been bound since `s` is
on the trail of `s'`, what a search does not work on is as it was, and the cleanup goals that are no
longer on the choice stack have been run. `Workspace.Same s s'`: `s'` has the bindings, the trail and
the choice points of `s` besides. Here stands, for every operation of an engine, which of these it
leads to; the depth of the activations is kept by all of them.

Both relations lead to workspaces that are `Ready`: the database is sound, the trail records, every
choice point can bring back the bindings of its moment, and a goal is being searched for. Between
taking cleanup points off the choice stack and running their goals, a workspace `Owes` these.
-/

namespace Resolvent

namespace Workspace

/-- The symbols. -/
abbrev symbols (s : Workspace) : Symbols :=
  s.database.terms.symbols

/-- The choice points, the oldest first. -/
def points (s : Workspace) : List ChoicePoint :=
  s.engine.choices.points.toList

/-- The moments at which the choice points were made. -/
noncomputable def made (s : Workspace) : List Moment :=
  s.engine.choices.made.value

/-- The goals of the cleanup points, the newest first. -/
def held (s : Workspace) : List Term :=
  s.points.reverse.filterMap ChoicePoint.cleanup?

/-- What has happened, the latest first. -/
noncomputable def chronicle (s : Workspace) : Chronicle :=
  s.engine.chronicle.value

/-- The mark that would be taken now. -/
abbrev mark (s : Workspace) : Nat :=
  s.moment.mark

/-- The workspace is one in which a goal is being searched for. -/
structure Ready (s : Workspace) : Prop where
  /-- Calls lead to typed code. -/
  database : s.database.Sound
  /-- Bindings are recorded. -/
  recording : s.moment.Recording
  /-- There is a goal. -/
  active : s.engine.active.isSome
  /-- Cleanup goals fit the symbols. -/
  cleanups : ∀ p ∈ s.points, ∀ g ∈ p.cleanup?, g.Fits s.symbols
  /-- The choice points can bring back the bindings of their moments. -/
  made : Recovers s.points s.made s.moment

/-- The second workspace is reached from the first one by recorded bindings. -/
structure Reaches (s s' : Workspace) : Prop where
  /-- A goal is being searched for. -/
  ready : s'.Ready
  /-- Nothing has been forgotten. -/
  grows : s.database.Grows s'.database
  /-- The limits are kept. -/
  config : s'.engine.config = s.engine.config
  /-- The limit of the choice stack is kept. -/
  limit : s'.engine.choices.limit = s.engine.choices.limit
  /-- The searches set aside are kept. -/
  returnPoints : s'.engine.returnPoints = s.engine.returnPoints
  /-- The goal is the same. -/
  active : s'.engine.active = s.engine.active
  /-- What has been bound is on the trail. -/
  before : s.moment.Before s'.moment

/-- The states that have been passed through since the first workspace are recoverable. -/
def Tells (s s' : Workspace) : Prop :=
  ∃ l, s'.chronicle = l ++ s.chronicle ∧ ∀ e ∈ l, e.Sound

/-- So they are, and what has happened turns one stack of cleanup goals into another one. -/
def Settles (s : Workspace) (gs gs' : List Term) (s' : Workspace) : Prop :=
  ∃ l, s'.chronicle = l ++ s.chronicle ∧ (∀ e ∈ l, e.Sound) ∧ Chronicle.Settled l gs gs'

/-- The second workspace is reached from the first one, and of the cleanup goals that have been taken
off the choice stack only the given ones are still to be run. -/
structure Owes (goals : List Term) (s s' : Workspace) : Prop extends Reaches s s' where
  /-- The cleanup goals. -/
  settled : s.Settles s.held (goals ++ s'.held) s'

/-- The second workspace is reached from the first one, and all cleanup goals that have been taken off
the choice stack have been run. -/
abbrev Later (s s' : Workspace) : Prop :=
  s.Owes [] s'

/-- The second workspace has the bindings, the trail and the choice points of the first one. -/
structure Same (s s' : Workspace) : Prop extends Owes [] s s' where
  /-- The bindings and the trail. -/
  moment : s.moment.Same s'.moment
  /-- The choice points. -/
  points : s'.points = s.points

theorem Reaches.trans {s₁ s₂ s₃ : Workspace} (h : s₁.Reaches s₂) (h' : s₂.Reaches s₃) :
    s₁.Reaches s₃ :=
  ⟨h'.ready, h.grows.trans h'.grows, h'.config.trans h.config, h'.limit.trans h.limit,
    h'.returnPoints.trans h.returnPoints, h'.active.trans h.active, h.before.trans h'.before⟩

theorem Tells.trans {s₁ s₂ s₃ : Workspace} (h : s₁.Tells s₂) (h' : s₂.Tells s₃) : s₁.Tells s₃ := by
  obtain ⟨l, hl, hs⟩ := h
  obtain ⟨l', hl', hs'⟩ := h'
  refine ⟨l' ++ l, by rw [hl', hl, List.append_assoc], fun e he => ?_⟩
  exact (List.mem_append.mp he).elim (hs' e) (hs e)

namespace Settles

variable {s₁ s₂ s₃ : Workspace} {gs gs' gs'' : List Term}

theorem of_chronicle (h : s₂.chronicle = s₁.chronicle) (gs : List Term) : s₁.Settles gs gs s₂ :=
  ⟨[], h, nofun, .inr .nil⟩

theorem tells (h : s₁.Settles gs gs' s₂) : s₁.Tells s₂ := by
  obtain ⟨l, hl, hs, -⟩ := h
  exact ⟨l, hl, hs⟩

theorem trans (h : s₁.Settles gs gs' s₂) (h' : s₂.Settles gs' gs'' s₃) : s₁.Settles gs gs'' s₃ := by
  obtain ⟨l, hl, hs, hg⟩ := h
  obtain ⟨l', hl', hs', hg'⟩ := h'
  refine ⟨l' ++ l, by rw [hl', hl, List.append_assoc], fun e he => ?_, hg.trans hg'⟩
  exact (List.mem_append.mp he).elim (hs' e) (hs e)

theorem above (h : s₁.Settles gs gs' s₂) (below : List Term) :
    s₁.Settles (gs ++ below) (gs' ++ below) s₂ := by
  obtain ⟨l, hl, hs, hg⟩ := h
  exact ⟨l, hl, hs, hg.above below⟩

end Settles

theorem held_eq {s s' : Workspace} (h : s'.points = s.points) : s'.held = s.held := by
  rw [held, h, held]

@[simp] theorem held_concat {s : Workspace} {l : List ChoicePoint} {p : ChoicePoint}
    (h : s.points = l ++ [p]) :
    s.held = p.cleanup?.toList ++ l.reverse.filterMap ChoicePoint.cleanup? := by
  rw [held, h, List.reverse_append, List.filterMap_append]
  cases hp : p.cleanup? <;> simp [hp]

theorem Owes.trans {s₁ s₂ s₃ : Workspace} {goals : List Term} (h : s₁.Later s₂)
    (h' : s₂.Owes goals s₃) : s₁.Owes goals s₃ :=
  ⟨h.toReaches.trans h'.toReaches, h.settled.trans h'.settled⟩

theorem Same.trans {s₁ s₂ s₃ : Workspace} (h : s₁.Same s₂) (h' : s₂.Same s₃) : s₁.Same s₃ :=
  ⟨h.toOwes.trans h'.toOwes, h.moment.trans h'.moment, h'.points.trans h.points⟩

theorem Ready.same {s : Workspace} (h : s.Ready) : s.Same s :=
  ⟨⟨⟨h, .refl _, rfl, rfl, rfl, rfl, .refl h.recording⟩, .of_chronicle rfl _⟩, .refl h.recording,
    rfl⟩

theorem Ready.later {s : Workspace} (h : s.Ready) : s.Later s :=
  h.same.toOwes

theorem Owes.tells {s s' : Workspace} {goals : List Term} (h : s.Owes goals s') : s.Tells s' :=
  h.settled.tells

/-- Nothing has happened, and the choice points are the same. -/
theorem Reaches.later {s s' : Workspace} (h : s.Reaches s') (hc : s'.chronicle = s.chronicle)
    (hp : s'.points = s.points) : s.Later s' :=
  ⟨h, held_eq hp ▸ .of_chronicle hc _⟩

theorem Owes.symbols {s s' : Workspace} {goals : List Term} (h : s.Owes goals s') :
    s.symbols.Extends s'.symbols :=
  h.grows.symbols

/-- The marks of choice points below a choice point are not greater than its own. -/
theorem Ready.mark_le {s : Workspace} (h : s.Ready) {l : List ChoicePoint} {p : ChoicePoint}
    (hp : s.points = l ++ [p]) : ∀ q ∈ s.points, q.mark ≤ p.mark := by
  have hsorted := h.made.sorted
  rw [hp, List.pairwise_append] at hsorted
  intro q hq
  rw [hp, List.mem_append, List.mem_singleton] at hq
  obtain hq | rfl := hq
  · exact hsorted.2.2 q hq p (List.mem_singleton_self p)
  · exact Nat.le_refl _

/-- The cleanup goals have been run, and nothing is left of this. -/
structure Clears (goals : List Term) (s s' : Workspace) : Prop extends Reaches s s' where
  /-- The cleanup goals. -/
  settled : s.Settles goals [] s'
  /-- The bindings and the trail. -/
  moment : s.moment.Same s'.moment
  /-- The choice points. -/
  points : s'.points = s.points
  /-- The depth. -/
  depth : s'.engine.depth = s.engine.depth

/-- Running the goals that are owed. -/
theorem Owes.clear {s₁ s₂ s₃ : Workspace} {goals : List Term} (h : s₁.Owes goals s₂)
    (h' : s₂.Clears goals s₃) : s₁.Later s₃ := by
  have hsettled := h'.settled.above s₂.held
  rw [List.nil_append, ← held_eq h'.points] at hsettled
  rw [held_eq h'.points] at hsettled
  exact ⟨h.toReaches.trans h'.toReaches, by
    rw [List.nil_append, held_eq h'.points]; exact h.settled.trans hsettled⟩

theorem Clears.trans {s₁ s₂ s₃ : Workspace} {goals goals' : List Term} (h : s₁.Clears goals s₂)
    (h' : s₂.Clears goals' s₃) : s₁.Clears (goals ++ goals') s₃ :=
  ⟨h.toReaches.trans h'.toReaches, (h.settled.above goals').trans h'.settled,
    h.moment.trans h'.moment, h'.points.trans h.points, h'.depth.trans h.depth⟩

/-- The second workspace has the bindings, the trail, the choice points and the depth of the first
one, and what cleanup goals have been put on the choice stack since have been run. -/
structure Stays (s s' : Workspace) : Prop where
  /-- The bindings, the trail and the choice points. -/
  same : s.Same s'
  /-- The depth. -/
  depth : s'.engine.depth = s.engine.depth
  /-- The cleanup goals. -/
  settled : s.Settles [] [] s'

theorem Clears.stays {s s' : Workspace} (h : s.Clears [] s') : s.Stays s' :=
  ⟨⟨⟨h.toReaches, held_eq h.points ▸ h.settled.above s.held⟩, h.moment, h.points⟩, h.depth,
    h.settled⟩

theorem Stays.clears {s s' : Workspace} (h : s.Stays s') : s.Clears [] s' :=
  ⟨h.same.toReaches, h.settled, h.same.moment, h.same.points, h.depth⟩

theorem Ready.stays {s : Workspace} (h : s.Ready) : s.Stays s :=
  ⟨h.same, rfl, .of_chronicle rfl _⟩

theorem Stays.trans {s₁ s₂ s₃ : Workspace} (h : s₁.Stays s₂) (h' : s₂.Stays s₃) : s₁.Stays s₃ :=
  ⟨h.1.trans h'.1, h'.2.trans h.2, h.settled.trans h'.settled⟩

/-- A ball stays sealed when the bindings made since a workspace are undone. -/
theorem Same.sealed {s t u : Workspace} {x : Exception} (h : t.Same u) (hl : t.Later s)
    (hs : s.symbols.Extends u.symbols) (hx : x.Sealed s.database.terms) : x.Sealed u.database.terms :=
  hx.mono hs fun v hv => (h.moment.value v).trans (hl.before.free hv)

/-- An exception has been raised, and nothing else has happened. -/
def Raised (s : Workspace) (e : Stop) (s' : Workspace) : Prop :=
  ∃ x, e = .thrown x ∧ x.Sealed s'.database.terms ∧ s.Stays s'

theorem Raised.of_stays {s s' s'' : Workspace} {e : Stop} (h : s.Stays s') (h' : s'.Raised e s'') :
    s.Raised e s'' := by
  obtain ⟨x, he, hx, hs⟩ := h'
  exact ⟨x, he, hx, h.trans hs⟩

/-! ### What happens -/

@[simp] theorem chronicle_note (s : Workspace) (e : Ghost Chronicle.Event) :
    (s.note e).chronicle = e.value :: s.chronicle :=
  Ghost.value_map₂ ..

/-- Something happens in a workspace. -/
theorem Ready.reaches_note {s : Workspace} (h : s.Ready) (e : Ghost Chronicle.Event) :
    s.Reaches (s.note e) :=
  ⟨⟨h.database, h.recording, h.active, h.cleanups, h.made⟩, .refl _, rfl, rfl, rfl, rfl,
    .refl h.recording⟩

/-- Something happens that settles cleanup goals. -/
theorem Ready.clears_note {s : Workspace} (h : s.Ready) {e : Ghost Chronicle.Event}
    {goals : List Term} (he : e.value.Sound) (hs : Chronicle.Settled [e.value] goals []) :
    s.Clears goals (s.note e) :=
  ⟨h.reaches_note e, ⟨[_], chronicle_note s e, List.forall_mem_singleton.mpr he, hs⟩,
    .refl h.recording, rfl, rfl⟩

/-- Something happens that has nothing to do with cleanup goals. -/
theorem Ready.stays_note {s : Workspace} (h : s.Ready) {e : Ghost Chronicle.Event}
    (he : e.value.Sound) (hh : e.value.held? = none) (hs : e.value.started? = none) :
    s.Stays (s.note e) :=
  (h.clears_note he (.inr (.other hh hs .nil))).stays

/-- The search passes through a workspace. -/
theorem Ready.stays_pass {s : Workspace} (h : s.Ready) : s.Stays s.pass := by
  have hvalue : (s.scene.map Chronicle.Event.passed).value =
      .passed ⟨s.moment, s.engine.choices.points, s.made⟩ := by
    rw [Ghost.value_map, Workspace.scene, Ghost.value_map]
    rfl
  refine h.stays_note ?_ ?_ ?_ <;> rw [hvalue]
  · exact h.made.recoverable
  · rfl
  · rfl

/-- Something known happens that has nothing to do with cleanup goals. -/
theorem Ready.stays_told {s : Workspace} (h : s.Ready) {e : Chronicle.Event} (he : e.Sound)
    (hh : e.held? = none) (hs : e.started? = none) : s.Stays (s.note (.of e)) := by
  refine h.stays_note ?_ ?_ ?_ <;> rwa [Ghost.value_of]

/-- Something happens while cleanup goals are still to be run. -/
theorem Owes.stays {s₁ s₂ s₃ : Workspace} {goals : List Term} (h : s₁.Owes goals s₂)
    (h' : s₂.Stays s₃) : s₁.Owes goals s₃ := by
  refine ⟨h.toReaches.trans h'.same.toReaches, ?_⟩
  rw [held_eq h'.same.points]
  exact h.settled.trans (h'.settled.above (goals ++ s₂.held))

end Workspace

namespace Engine

open Workspace

variable {α : Type} {s ρ : Workspace}

/-! ### Steps that bind nothing -/

theorem stays_of_adds {d : Database} (hs : s.Ready) (hd : s.database.Adds d) :
    s.Stays ⟨d, s.engine⟩ := by
  have hsame := Moment.same_of_extends hd.terms.store hs.recording
  have hreaches : s.Reaches ⟨d, s.engine⟩ := ⟨⟨hd.sound, hsame.recording, hs.active,
    fun p hp g hg => (hs.cleanups p hp g hg).mono hd.grows.symbols,
    hs.made.later hsame.before⟩, hd.grows, rfl, rfl, rfl, rfl, hsame.before⟩
  exact ⟨⟨hreaches.later rfl rfl, hsame, rfl⟩, rfl, .of_chronicle rfl _⟩

theorem yields_onDatabase_of_safe {x : DatabaseM α} {Q : α → Database → Prop} (hs : s.Ready)
    (h : Database.Safe x s.database Q) : Yields (onDatabase x) s
      (fun a s' => s.Stays s' ∧ Q a s'.database) s.Raised := by
  rw [yields_onDatabase]
  exact Yields.imp h (fun a d hd => ⟨stays_of_adds hs hd.1, hd.2⟩)
    fun e d hd => ⟨e, rfl, hd.2, stays_of_adds hs hd.1⟩

theorem yields_onTerms_of_extending {x : StateM Universe α} (hs : s.Ready)
    (hx : Universe.Extending x) : Yields (onTerms x) s
      (fun a s' => s.Stays s' ∧ a = (x s.database.terms).1 ∧
        s'.database.terms = (x s.database.terms).2) fun _ _ => False := by
  refine ⟨?_, rfl, rfl⟩
  exact (yields_ok (yields_onDatabase_of_safe hs (Database.safe_onTerms hs.database hx)) rfl).1

theorem yields_raise (hs : s.Ready) {e : ErrorKind} (he : e.Fits s.symbols)
    (Q : α → Workspace → Prop) : Yields (raise e : EngineM α) s Q s.Raised :=
  (yields_onDatabase_of_safe hs (Database.safe_raise hs.database he fun _ _ => False)).imp
    (fun _ _ h => h.2.elim) fun _ _ h => h

theorem yields_exceed (hs : s.Ready) (resource : String) (Q : α → Workspace → Prop) :
    Yields (exceed resource : EngineM α) s Q s.Raised := by
  have hstay := hs.stays_told (e := .limited) trivial rfl rfl
  rw [exceed, yields_bind, note, yields_modify]
  exact (yields_raise hstay.same.ready (e := .resource resource) trivial Q).imp (fun _ _ h => h)
    fun _ _ h => .of_stays hstay h

theorem yields_throwTerm (hs : s.Ready) {t : Term} (ht : t.Fits s.symbols)
    (hvar : ∀ v, s.database.terms.store.deref t ≠ .var v) (Q : α → Workspace → Prop) :
    Yields (throwTerm t : EngineM α) s Q s.Raised := by
  rw [throwTerm, yields_bind]
  refine (yields_onTerms_of_extending hs (Exception.extending_ofTerm t)).imp (fun x s' h => ?_)
    fun _ _ h => h.elim
  refine ⟨x, rfl, ?_, h.1⟩
  rw [h.2.1, h.2.2]
  exact Exception.sealed_ofTerm hs.database.terms ht hvar

/-! ### Marks and bindings -/

theorem later_rebind {m : Moment} (hs : s.Ready) (hm : s.moment.Before m)
    (hfits : m.store.Fits s.symbols) : s.Later (rebind s m) := by
  have hgrows : s.database.Grows (rebind s m).database := .of_terms (.refl _)
  have hreaches : s.Reaches (rebind s m) := ⟨⟨hs.database.of_grows hgrows
    ⟨hs.database.terms.started, hfits⟩ rfl rfl, hm.recording, hs.active, hs.cleanups,
    hs.made.later hm⟩, hgrows, rfl, rfl, rfl, rfl, hm⟩
  exact hreaches.later rfl rfl

theorem yields_mark (hs : s.Ready) : Yields mark s
    (fun m s' => m = s.mark ∧ s.Stays s') fun _ _ => False := by
  have hsame := Moment.same_mark s.engine.trail hs.recording.ordered
  exact ⟨rfl, ⟨⟨later_rebind hs hsame.before hs.database.terms.store, hsame, rfl⟩, rfl,
    .of_chronicle rfl _⟩⟩

theorem fits_undoTo {sym : Symbols} {σ : Store} (h : σ.Fits sym) (m : Nat) (τ : Trail Empty) :
    (τ.undoTo m σ).1.Fits sym := by
  rw [Trail.undoTo]
  generalize τ.size - m = n
  generalize [] = found
  induction n generalizing σ τ found with
  | zero => exact h
  | succ n ih =>
    rw [Trail.undoNewest]
    split
    · exact h
    · simp only
      split
      · exact ih (h.unbind _) _ _
      · exact ih h _ _

/-- The changes since a mark may be undone if no choice point has a greater mark. -/
theorem ready_undoTo (hs : s.Ready) {n : Nat} (hmarks : ∀ p ∈ s.points, p.mark ≤ n) :
    (rebind s (s.moment.undoTo n)).Ready := by
  have hfits := fits_undoTo hs.database.terms.store n s.engine.trail
  exact ⟨hs.database.of_grows (.of_terms (.refl _)) ⟨hs.database.terms.started, hfits⟩ rfl rfl,
    hs.recording.undoTo n, hs.active, hs.cleanups, hs.made.undoTo hmarks⟩

/-- Undoing to the mark of an earlier workspace brings its bindings back. -/
theorem yields_undoTo (h : ρ.Later s) (hmarks : ∀ p ∈ s.points, p.mark ≤ ρ.mark) :
    Yields (undoTo ρ.mark) s
      (fun _ s' => ρ.Later s' ∧ ρ.moment.Same s'.moment ∧ s'.points = s.points ∧
        s'.engine.depth = s.engine.depth ∧ s.symbols.Extends s'.symbols) fun _ _ => False := by
  have hsame := h.before.same_undoTo
  have hgrows : s.database.Grows (rebind s (s.moment.undoTo ρ.mark)).database := .of_terms (.refl _)
  exact ⟨⟨⟨ready_undoTo h.ready hmarks, h.grows.trans hgrows, h.config, h.limit, h.returnPoints,
    h.active, hsame.before⟩, h.settled⟩, hsame, rfl, rfl, .refl _⟩

/-- A binding step that leads to a later moment. -/
theorem yields_onBindings_of_before {f : Store → Trail Empty → α × Store × Trail Empty}
    {Q : α → Workspace → Prop} {E : Stop → Workspace → Prop} (hs : s.Ready)
    (hm : s.moment.Before ⟨(f s.moment.store s.moment.trail).2.1, (f s.moment.store s.moment.trail).2.2⟩)
    (hfits : (f s.moment.store s.moment.trail).2.1.Fits s.symbols)
    (h : ∀ s' : Workspace, s.Later s' → s'.points = s.points → s'.engine.depth = s.engine.depth →
      s'.moment = ⟨(f s.moment.store s.moment.trail).2.1, (f s.moment.store s.moment.trail).2.2⟩ →
      Q (f s.moment.store s.moment.trail).1 s') : Yields (onBindings f) s Q E :=
  h _ (later_rebind hs hm hfits) rfl rfl rfl

/-- Unification leads to a later workspace. -/
theorem yields_unifyInPlace (hs : s.Ready) {t t' : Term} (ht : t.Fits s.symbols)
    (ht' : t'.Fits s.symbols) (n : Nat) : Yields (unifyInPlace n t t') s
      (fun _ s' => s.Later s' ∧ s'.points = s.points ∧ s'.engine.depth = s.engine.depth)
      fun e s' => e = .spent ∧ s.Tells s' := by
  rw [unifyInPlace, yields_bind]
  refine yields_onBindings_of_before hs (Moment.before_unifyPairs n _ _ _ hs.recording)
    (fits_unifyPairs n _ _ _ hs.database.terms.store (by simpa using ⟨ht, ht'⟩))
    fun s' h hp hd _ => ?_
  cases (Resolvent.unifyInPlace n t t' s.moment.store s.moment.trail).1 with
  | none => exact ⟨rfl, h.tells⟩
  | some b => exact ⟨h, hp, hd⟩

theorem fits_unify {sym : Symbols} {σ : Store} (τ : Trail Empty) (n : Nat) {t t' : Term}
    (hσ : σ.Fits sym) (ht : t.Fits sym) (ht' : t'.Fits sym) :
    (Resolvent.unify n t t' σ τ).2.1.Fits sym := by
  have hfits := fits_unifyPairs n [(t, t')] σ τ.mark.2 hσ (by simpa using ⟨ht, ht'⟩)
  unfold Resolvent.unify
  dsimp only
  split
  · exact fits_undoTo hfits _ _
  · exact hfits

theorem yields_unify (hs : s.Ready) {t t' : Term} (ht : t.Fits s.symbols)
    (ht' : t'.Fits s.symbols) (n : Nat) : Yields (unify n t t') s
      (fun b s' => s.Later s' ∧ s'.points = s.points ∧ s'.engine.depth = s.engine.depth ∧
        (b = false → s.moment.Same s'.moment)) fun e s' => e = .spent ∧ s.Tells s' := by
  have hbefore := Moment.before_unify n t t' hs.recording
  have hsame := Moment.same_unify n t t' hs.recording
  rw [unify, yields_bind]
  refine yields_onBindings_of_before hs hbefore
    (fits_unify _ n hs.database.terms.store ht ht') fun s' h hp hd hm => ?_
  change (Resolvent.unify n t t' s.moment.store s.moment.trail).1 = _ → _ at hsame
  revert hsame
  cases (Resolvent.unify n t t' s.moment.store s.moment.trail).1 with
  | none => exact fun _ => ⟨rfl, h.tells⟩
  | some b =>
    intro hsame
    refine ⟨h, hp, hd, fun hb => ?_⟩
    rw [hm]
    exact hsame (congrArg some hb)

/-! ### Choice points -/

/-- A workspace that differs in its choice points only. -/
theorem reaches_choices {t : Workspace} (h : s.Reaches t) (choices : ChoiceStack)
    (hlimit : choices.limit = t.engine.choices.limit)
    (hmade : Recovers choices.points.toList choices.made.value t.moment)
    (hp : ∀ p ∈ choices.points.toList, ∀ g ∈ p.cleanup?, g.Fits t.symbols) :
    s.Reaches { t with engine := { t.engine with choices } } :=
  ⟨⟨h.ready.database.of_grows (.refl _) h.ready.database.terms rfl rfl, h.ready.recording,
    h.ready.active, hp, hmade⟩, h.grows, h.config, hlimit.trans h.limit,
    h.returnPoints, h.active, h.before⟩

theorem yields_top? {Q : Option ChoicePoint → Workspace → Prop} {E : Stop → Workspace → Prop} :
    Yields top? s Q E ↔ Q s.points.getLast? s := by
  rw [Workspace.points, Array.getLast?_toList]
  exact Iff.rfl

theorem yields_height {Q : Nat → Workspace → Prop} {E : Stop → Workspace → Prop} :
    Yields height s Q E ↔ Q s.points.length s := by
  rw [Workspace.points, Array.length_toList]
  exact Iff.rfl

theorem yields_now {Q : Ghost Moment → Workspace → Prop} {E : Stop → Workspace → Prop} :
    Yields now s Q E ↔ Q (.of s.moment) s :=
  Iff.rfl

theorem yields_deref {t : Term} {Q : Term → Workspace → Prop} {E : Stop → Workspace → Prop} :
    Yields (deref t) s Q E ↔ Q (s.database.terms.store.deref t) s :=
  Iff.rfl

/-- The newest choice point is taken away. -/
theorem yields_pop (hs : s.Ready) {l : List ChoicePoint} {p : ChoicePoint}
    (hp : s.points = l ++ [p]) : Yields pop s
      (fun _ s' => s.Owes p.cleanup?.toList s' ∧ s'.points = l ∧ s'.moment = s.moment ∧
        s'.engine.depth = s.engine.depth) fun _ _ => False := by
  have hpop : s.engine.choices.points.pop.toList = l := by
    rw [Array.toList_pop, ← Workspace.points, hp, List.dropLast_concat]
  have hmade : Recovers s.engine.choices.points.pop.toList
      (s.engine.choices.made.map List.dropLast).value s.moment := by
    rw [Array.toList_pop, Ghost.value_map]
    exact hs.made.dropLast
  refine ⟨⟨reaches_choices hs.later.toReaches _ rfl hmade fun q hq g hg => ?_, ?_⟩, hpop, rfl, rfl⟩
  · rw [show s.engine.choices.pop.points.toList = l from hpop] at hq
    exact hs.cleanups q (hp ▸ List.mem_append_left _ hq) g hg
  · rw [held_concat hp, Workspace.held, Workspace.points]
    rw [show List.filterMap _ (List.reverse s.engine.choices.pop.points.toList) = _ from
      congrArg (fun l => List.filterMap _ (List.reverse l)) hpop]
    exact .of_chronicle rfl _

/-- The newest choice point is taken away, and no cleanup goal with it. -/
theorem yields_pop_later (hs : s.Ready) {l : List ChoicePoint} {p : ChoicePoint}
    (hp : s.points = l ++ [p]) (hq : p.cleanup? = none) : Yields pop s
      (fun _ s' => s.Later s' ∧ s'.points = l ∧ s'.moment = s.moment ∧
        s'.engine.depth = s.engine.depth) fun _ _ => False := by
  have hpop := yields_pop hs hp
  rw [hq] at hpop
  exact hpop

/-- The newest choice point is taken away, and what has been bound since it was made is undone. -/
theorem yields_pop_undoTo (h : ρ.Later s) {l : List ChoicePoint} {kind : ChoiceKind}
    (hp : s.points = l ++ [⟨ρ.mark, kind⟩]) (hq : (ChoicePoint.mk ρ.mark kind).cleanup? = none) :
    Yields (pop >>= fun _ => undoTo ρ.mark) s
      (fun _ s' => ρ.Later s' ∧ ρ.moment.Same s'.moment ∧ s'.points = l ∧
        s'.engine.depth = s.engine.depth ∧ s.symbols.Extends s'.symbols) fun _ _ => False := by
  rw [yields_bind]
  refine (yields_pop_later h.ready hp hq).imp (fun _ t ht => ?_) fun _ _ h => h
  obtain ⟨hlater, hpoints, -, hdepth⟩ := ht
  have hmarks : ∀ q ∈ t.points, q.mark ≤ ρ.mark := by
    intro q hq
    rw [hpoints] at hq
    exact h.ready.mark_le hp q (hp ▸ List.mem_append_left _ hq)
  refine (yields_undoTo (h.trans hlater) hmarks).imp (fun _ s' hs' => ?_) fun _ _ h => h
  obtain ⟨hlater', hmoment, hpoints', hdepth', hsymbols⟩ := hs'
  exact ⟨hlater', hmoment, hpoints'.trans hpoints, hdepth'.trans hdepth,
    hlater.symbols.trans hsymbols⟩

/-- The newest choice point is replaced by another one with the same mark. -/
theorem yields_setTop (hs : s.Ready) {l : List ChoicePoint} {p q : ChoicePoint}
    (hp : s.points = l ++ [p]) (hmark : q.mark = p.mark) (hpc : p.cleanup? = none)
    (hqc : q.cleanup? = none) : Yields (onChoices fun choices => ((), choices.setTop q)) s
      (fun _ s' => s.Later s' ∧ s'.points = l ++ [q] ∧ s'.engine.depth = s.engine.depth)
      fun _ _ => False := by
  have hset : (s.engine.choices.points.setIfInBounds (s.engine.choices.points.size - 1) q).toList =
      l ++ [q] := by
    have hsize : s.engine.choices.points.size = l.length + 1 := by
      rw [← Array.length_toList, ← Workspace.points, hp, List.length_append, List.length_singleton]
    rw [Array.toList_setIfInBounds, hsize, ← Workspace.points, hp, Nat.add_sub_cancel,
      List.set_append_right _ _ (Nat.le_refl _), Nat.sub_self]
    rfl
  have hmade : Recovers (l ++ [q]) s.made s.moment := hs.made.congr (by simp [hp, hmark])
  refine ⟨⟨reaches_choices hs.later.toReaches _ rfl (hset ▸ hmade) fun p' hp' g hg => ?_, ?_⟩, hset,
    rfl⟩
  · rw [show (s.engine.choices.setTop q).points.toList = l ++ [q] from hset, List.mem_append,
      List.mem_singleton] at hp'
    obtain hp' | rfl := hp'
    · exact hs.cleanups p' (hp ▸ List.mem_append_left _ hp') g hg
    · rw [hqc] at hg
      cases hg
  · rw [held_concat hp, held_concat (s := ⟨s.database, { s.engine with
      choices := s.engine.choices.setTop q }⟩) hset, hpc, hqc]
    exact .of_chronicle rfl _

/-- What lies above a height is taken away. -/
theorem yields_cutTo (hs : s.Ready) (n : Nat) : Yields (cutTo n) s
    (fun goals s' => (∀ g ∈ goals, g.Fits s'.symbols) ∧ s.Owes goals s' ∧
      s'.points = s.points.take n ∧ s'.moment = s.moment ∧ s'.engine.depth = s.engine.depth)
    fun _ _ => False := by
  have htake : (s.engine.choices.points.shrink n).toList = s.points.take n := by
    simp [Workspace.points]
  have hdrop : (s.engine.choices.points.extract n s.engine.choices.points.size).toList =
      s.points.drop n := by
    rw [Array.toList_extract, List.extract_eq_take_drop, ← Array.length_toList, ← List.length_drop,
      List.take_length, Workspace.points]
  have hmade : Recovers (s.engine.choices.points.shrink n).toList
      (s.engine.choices.made.map (List.take n)).value s.moment := by
    rw [htake, Ghost.value_map]
    exact hs.made.take n
  refine ⟨fun g hg => ?_, ⟨reaches_choices hs.later.toReaches _ rfl hmade fun p hp g hg => ?_, ?_⟩,
    htake, rfl, rfl⟩
  · obtain ⟨p, hp, hg⟩ := List.mem_filterMap.mp hg
    rw [List.mem_reverse, hdrop] at hp
    exact hs.cleanups p (List.mem_of_mem_drop hp) g hg
  · exact hs.cleanups p (List.mem_of_mem_take (htake ▸ hp)) g hg
  · -- the goals on the stack are those taken off and those left
    refine ⟨[], rfl, nofun, .inr ?_⟩
    have hheld : s.held = ((s.points.drop n).reverse.filterMap ChoicePoint.cleanup?) ++
        ((s.points.take n).reverse.filterMap ChoicePoint.cleanup?) := by
      rw [← List.filterMap_append, ← List.reverse_append, List.take_append_drop, held]
    rw [hheld, ← hdrop, ← htake]
    exact .nil

/-- A choice point has been put on top; this is noted of a cleanup point only. -/
theorem later_hold {t u : Workspace} {p : ChoicePoint} (h : t.Reaches u)
    (hc : u.chronicle = t.chronicle) (hp : u.points = t.points ++ [p]) :
    t.Later (u.hold p.kind) ∧ (u.hold p.kind).points = u.points ∧
      (u.hold p.kind).moment = u.moment ∧ (u.hold p.kind).engine.depth = u.engine.depth := by
  have hheld := held_concat hp
  obtain ⟨m, kind⟩ := p
  cases kind with
  | cleanup goal =>
    refine ⟨⟨h.trans (h.ready.reaches_note _), [.held goal], ?_, ?_, .inr ?_⟩, rfl, rfl, rfl⟩
    · rw [hold, chronicle_note, Ghost.value_of, hc]
      rfl
    · exact List.forall_mem_singleton.mpr trivial
    · exact (show u.held = goal :: t.held from hheld) ▸ .held .nil
  | _ =>
    refine ⟨⟨h, ?_⟩, rfl, rfl, rfl⟩
    exact (show u.held = t.held from hheld) ▸ .of_chronicle hc _

/-- A choice point is put on top, unless there are too many. -/
theorem yields_pushChoice (hs : s.Ready) {kind : ChoiceKind}
    (hk : ∀ g ∈ (ChoicePoint.mk s.mark kind).cleanup?, g.Fits s.symbols) :
    Yields (pushChoice kind) s
      (fun _ s' => s.Later s' ∧ s'.points = s.points ++ [⟨s.mark, kind⟩] ∧
        s.moment.Same s'.moment ∧ s'.engine.depth = s.engine.depth)
      s.Raised := by
  rw [pushChoice, yields_bind]
  refine (yields_mark hs).imp (fun m t h => ?_) fun _ _ h => h.elim
  obtain ⟨rfl, hstay⟩ := h
  have hready := hstay.1.ready
  have hmark : t.mark = s.mark := hstay.1.moment.mark_eq
  rw [yields_bind, yields_now, yields_bind, yields_onChoices]
  split
  · rw [if_pos rfl]
    show Yields (modify (Workspace.hold kind)) _ _ _
    rw [yields_modify]
    have hpush : (t.engine.choices.points.push ⟨s.mark, kind⟩).toList =
        s.points ++ [⟨s.mark, kind⟩] := by
      rw [Array.toList_push]
      exact congrArg (· ++ _) hstay.1.points
    have hmade : Recovers (t.engine.choices.points.push ⟨s.mark, kind⟩).toList
        (t.engine.choices.made.map₂ (· ++ [·]) (.of t.moment)).value t.moment := by
      rw [Array.toList_push, Ghost.value_map₂, Ghost.value_of, ← hmark]
      exact hready.made.push hready.recording kind
    have hcleanups : ∀ p ∈ (t.engine.choices.push ⟨s.mark, kind⟩ (.of t.moment)).points.toList,
        ∀ g ∈ p.cleanup?, g.Fits t.symbols := fun p hp g hg => by
      rw [ChoiceStack.push, Array.toList_push, List.mem_append, List.mem_singleton] at hp
      obtain hp | rfl := hp
      · exact hready.cleanups p hp g hg
      · exact (hk g hg).mono hstay.1.symbols
    have hreaches := reaches_choices hready.later.toReaches
      (t.engine.choices.push ⟨s.mark, kind⟩ (.of t.moment)) rfl
      hmade hcleanups
    have hlater := later_hold hreaches rfl (p := ⟨s.mark, kind⟩) (hpush.trans (by
      rw [hstay.1.points]))
    obtain ⟨hlater, hpoints, hmoment, hdepth⟩ := hlater
    refine ⟨hstay.1.toOwes.trans hlater, hpoints.trans hpush, ?_, hdepth.trans hstay.2⟩
    exact (congrArg s.moment.Same hmoment).mpr hstay.1.moment
  · rw [if_neg Bool.false_ne_true, yields_bind]
    exact (yields_exceed hready _ _).imp (fun _ _ h => h) fun _ _ h => .of_stays hstay h

/-- What a native predicate has kept on top of a workspace is taken back, and the workspace with
it. -/
theorem yields_popNativeState (h : ρ.Later s) {state : NativeState}
    (hp : s.points = ρ.points ++ [⟨ρ.mark, .native state⟩]) : Yields popNativeState s
      (fun r s' => r = some state ∧ ρ.Same s' ∧ s'.engine.depth = s.engine.depth)
      fun _ _ => False := by
  rw [popNativeState, yields_bind, yields_top?, hp, List.getLast?_concat]
  have hundo := yields_pop_undoTo h hp rfl
  rw [yields_bind] at hundo
  simp only [yields_bind]
  refine hundo.imp (fun _ t ht => ht.imp (fun _ s' hs' => ?_) fun _ _ h => h) fun _ _ h => h
  obtain ⟨hlater, hmoment, hpoints, hdepth, -⟩ := hs'
  exact ⟨rfl, ⟨hlater, hmoment, hpoints⟩, hdepth⟩

/-- The goal of a cleanup point on top is taken off. -/
theorem yields_popCleanup (hs : s.Ready) : Yields popCleanup s
    (fun r s' => s.Owes r.toList s' ∧ s'.moment = s.moment ∧ s'.engine.depth = s.engine.depth ∧
      ((r = none ∧ s'.points = s.points ∧ ∀ p ∈ s.points.getLast?, p.cleanup? = none) ∨
        ∃ l m goal, r = some goal ∧ s.points = l ++ [⟨m, .cleanup goal⟩] ∧ s'.points = l ∧
          goal.Fits s'.symbols)) fun _ _ => False := by
  rw [popCleanup, yields_bind, yields_top?]
  split
  · rename_i m goal heq
    obtain ⟨l, hl⟩ := List.getLast?_eq_some_iff.mp heq
    rw [yields_bind]
    refine (yields_pop hs hl).imp (fun _ t ht => ?_) fun _ _ h => h
    obtain ⟨howes, hpoints, hmoment, hdepth⟩ := ht
    refine ⟨howes, hmoment, hdepth, .inr ⟨l, m, goal, rfl, hl, hpoints, ?_⟩⟩
    exact (hs.cleanups _ (hl ▸ List.mem_append_right l (List.mem_singleton_self _)) goal rfl).mono
      howes.symbols
  · rename_i hne
    refine ⟨hs.later, rfl, rfl, .inl ⟨rfl, rfl, fun p hp => ?_⟩⟩
    obtain ⟨m, kind⟩ := p
    cases kind with
    | cleanup goal => exact absurd hp (hne m goal)
    | _ => rfl

/-! ### Calls -/

/-- What a call leads to can be called. -/
theorem yields_findCallee (hs : s.Ready) {site n : Nat} {tag : Tag} {args : Array Term}
    (hsite : ∃ known, s.database.sites[site]? = some (tag, known)) (htag : s.symbols.HasArity tag n)
    (hargs : ∀ t ∈ args, t.Fits s.symbols) (hsize : args.size = s.symbols.arity tag) :
    Yields (Activation.findCallee site tag args) s
      (fun r s' => s.Stays s' ∧ ∀ callee args', r = some (callee, args') →
        callee.Fits s'.database args') s.Raised := by
  obtain ⟨known, hsite⟩ := hsite
  -- arguments for what has been found in a later workspace
  have hfits {s' : Workspace} {callee : Callee} (h : s.Later s') (hc : callee.Sound s'.database)
      (ht : callee.Takes s'.symbols tag) : callee.Fits s'.database args := by
    refine Callee.fits_of_takes hc ht (fun t ht => (hargs t ht).mono h.symbols) ?_
    rw [hsize, htag.arity_eq, (htag.mono h.symbols).arity_eq]
  unfold Activation.findCallee
  have hknown? : s.database.known? site tag = known.get? s.database.generation := by
    rw [Database.known?, hsite]
    exact if_pos rfl
  rw [yields_bind, yields_get, yields_bind, yields_get, hknown?]
  split
  · rename_i callee hknown
    refine ⟨hs.stays, fun callee' args' h => ?_⟩
    cases h
    have hfound : known.known? = some (s.database.generation, callee) := by
      unfold CallSite.get? at hknown
      split at hknown
      · rename_i g c heq
        split at hknown
        · rename_i hg
          rw [heq, hg, Option.some.inj hknown]
        · cases hknown
      · cases hknown
    obtain ⟨hsound, htakes⟩ := hs.database.sites site tag known _ _ hsite hfound
    exact hfits hs.later hsound htakes
  rw [yields_bind]
  refine (yields_onDatabase_of_safe hs (Database.safe_resolve hs.database htag)).imp
    (fun r t ht => ?_) fun _ _ h => h
  obtain ⟨hstay, hr⟩ := ht
  have hready := hstay.1.ready
  cases r with
  | callee callee =>
    obtain ⟨hsound, htakes⟩ := hr callee rfl
    obtain ⟨known', hsite'⟩ := hstay.1.grows.sites site tag known hsite
    have hknown (g : Nat) (callee' : Callee)
        (h : (CallSite.ofCallee s.database.generation callee).known? = some (g, callee')) :
        callee'.Sound t.database ∧ callee'.Takes t.symbols tag := by
      cases h
      exact ⟨hsound, htakes⟩
    have hadds := Database.adds_of_site hready.database hsite' hknown
    have hlast := hstay.trans (stays_of_adds hready hadds)
    refine ⟨hlast, fun callee' args' h => ?_⟩
    cases h
    exact hfits hlast.1.toOwes (hsound.mono hadds.grows) htakes
  | control =>
    rw [yields_bind]
    have hsize' : args.toList.length = t.symbols.arity tag := by
      rw [Array.length_toList, hsize, htag.arity_eq, (htag.mono hstay.1.symbols).arity_eq]
    refine (yields_onDatabase_of_safe hready (Database.safe_controlCode hready.database
      (htag.mono hstay.1.symbols) (fun a ha => (hargs a (Array.mem_toList_iff.mp ha)).mono
        hstay.1.symbols) hsize')).imp (fun r s' h => ?_) fun _ _ h => .of_stays hstay h
    exact ⟨hstay.trans h.1, fun callee args' heq => by cases heq; exact h.2⟩
  | undefined =>
    rw [yields_bind, yields_get]
    split
    · exact ⟨hstay, nofun⟩
    · rw [yields_bind]
      refine (yields_onTerms_of_extending hready (Exception.extending_unknownProcedure tag)).imp
        (fun x s' h => ?_) fun _ _ h => h.elim
      refine ⟨x, rfl, ?_, hstay.trans h.1⟩
      rw [h.2.1, h.2.2]
      exact Exception.sealed_unknownProcedure hready.database.terms tag

/-- What a call leads to can be called, and the call has told of it. -/
theorem yields_look (hs : s.Ready) {site n : Nat} {tag : Tag} {args : Array Term}
    (hsite : ∃ known, s.database.sites[site]? = some (tag, known)) (htag : s.symbols.HasArity tag n)
    (hargs : ∀ t ∈ args, t.Fits s.symbols) (hsize : args.size = s.symbols.arity tag) :
    Yields (Activation.look site tag args) s
      (fun r s' => s.Stays s' ∧ ∀ callee args', r = some (callee, args') →
        callee.Fits s'.database args') s.Raised := by
  rw [Activation.yields_look]
  refine (yields_findCallee hs hsite htag hargs hsize).imp (fun r t ht => ?_) fun e t ht => ?_
  · exact ⟨ht.1.trans (ht.1.same.ready.stays_told trivial rfl rfl), ht.2⟩
  · obtain ⟨x, rfl, hx, ht⟩ := ht
    exact ⟨x, rfl, hx, ht.trans (ht.same.ready.stays_told trivial rfl rfl)⟩

/-- A fault can be thrown. -/
theorem yields_faultException (hs : s.Ready) (f : Fault) :
    Yields (onTerms (Activation.faultException f)) s
      (fun x s' => s.Stays s' ∧ x.Sealed s'.database.terms) fun _ _ => False := by
  have hext : Universe.Extending (Activation.faultException f) := Exception.extending_ofError _
  refine (yields_onTerms_of_extending hs hext).imp (fun x s' h => ⟨h.1, ?_⟩) fun _ _ h => h
  rw [h.2.1, h.2.2]
  refine Exception.sealed_ofError hs.database.terms ?_
  split <;> trivial

end Engine

end Resolvent
