import Resolvent.Proofs.Calling

/-!
# Steps with eased limits

Two engines work alike except that the limits of the second one are greater. The limits are read where a
choice point is made, where a call is made and where an operand is pushed, and nowhere else. If a limit
does not allow what is to be done, this is told in the chronicle, so it is seen later on even where the
error has been caught or ignored.

A step is `Indifferent` to an easing of limits if it ends alike with the limits eased, provided that no
limit has been told of. This is closed under everything that steps are put together with. Here it is
proved for the steps of an activation and, by induction on the number of steps, for its runs
(`Activation.steady_run`), on the assumption that the calls made in turn have it (`Context.Steady`).
-/

namespace Resolvent

/-- The limits of the second configuration are at least as great, and nothing else differs. -/
structure Config.Eased (c c' : Config) : Prop where
  /-- More choice points are allowed. -/
  choicePoints : c.maxChoicePoints ≤ c'.maxChoicePoints
  /-- Deeper calls are allowed. -/
  callDepth : c.maxCallDepth ≤ c'.maxCallDepth
  /-- More of the native stack may be used. -/
  stackBytes : c.maxStackBytes ≤ c'.maxStackBytes
  /-- More operands are allowed. -/
  operands : c.maxOperands ≤ c'.maxOperands
  /-- Instructions are reported alike. -/
  trace : c'.trace = c.trace
  /-- Unknown predicates are treated alike. -/
  unknown : c'.unknown = c.unknown

/-! ### Steps with eased limits -/

/-- A way of easing the limits of a state. -/
structure Easing (σ : Type) where
  /-- The state has the limits that are eased. -/
  Fits : σ → Prop
  /-- A limit has been told of. -/
  Limited : σ → Prop
  /-- The state with eased limits. -/
  ease : σ → σ

variable {σ ε α β : Type}

namespace Easing

variable (L : Easing σ)

/-- A step has led from one state to another, and if no limit has been told of, it does with eased
limits what the proposition says. -/
structure Leads (s t : σ) (p : Prop) : Prop where
  /-- The limits have not changed. -/
  fits : L.Fits t
  /-- What has been told is not forgotten. -/
  limited : L.Limited s → L.Limited t
  /-- With eased limits. -/
  eased : ¬L.Limited t → p

/-- The step, carried out in a state, ends alike with eased limits. -/
def IndifferentAt (x : EStateM ε σ α) (s : σ) : Prop :=
  Yields x s (fun a t => L.Leads s t (x (L.ease s) = .ok a (L.ease t)))
    fun e t => L.Leads s t (x (L.ease s) = .error e (L.ease t))

/-- The step ends alike with eased limits. -/
def Indifferent (x : EStateM ε σ α) : Prop :=
  ∀ s, L.Fits s → L.IndifferentAt x s

variable {L} {s t u : σ}

/-- One thing after the other. -/
theorem Leads.trans {p q r : Prop} (h : L.Leads s t p) (h' : L.Leads t u q) (hr : p → q → r) :
    L.Leads s u r :=
  ⟨h'.fits, fun hs => h'.limited (h.limited hs), fun hu =>
    hr (h.eased fun ht => hu (h'.limited ht)) (h'.eased hu)⟩

/-- A step that a limit has refused may do anything with eased limits. -/
theorem Leads.of_limited {p : Prop} (hfits : L.Fits t) (h : L.Limited t) : L.Leads s t p :=
  ⟨hfits, fun _ => h, fun h' => absurd h h'⟩

theorem Leads.refl (hs : L.Fits s) : L.Leads s s True :=
  ⟨hs, id, fun _ => trivial⟩

theorem IndifferentAt.ok {x : EStateM ε σ α} {a : α} (h : L.IndifferentAt x s)
    (hx : x s = .ok a t) : L.Leads s t (x (L.ease s) = .ok a (L.ease t)) := by
  rwa [IndifferentAt, Yields, hx] at h

theorem IndifferentAt.error {x : EStateM ε σ α} {e : ε} (h : L.IndifferentAt x s)
    (hx : x s = .error e t) : L.Leads s t (x (L.ease s) = .error e (L.ease t)) := by
  rwa [IndifferentAt, Yields, hx] at h

theorem IndifferentAt.of_ok {x : EStateM ε σ α} {a : α} (hx : x s = .ok a t)
    (h : L.Leads s t (x (L.ease s) = .ok a (L.ease t))) : L.IndifferentAt x s := by
  rwa [IndifferentAt, Yields, hx]

/-- A step that comes to another step from another state. -/
theorem IndifferentAt.after {x y : EStateM ε σ α} {p : Prop} (h : L.Leads s t p)
    (hy : L.IndifferentAt y t) (hx : x s = y t) (hease : p → x (L.ease s) = y (L.ease t)) :
    L.IndifferentAt x s := by
  rw [IndifferentAt, Yields, hx]
  exact hy.imp (fun _ _ h' => h.trans h' fun hp heq => (hease hp).trans heq) fun _ _ h' =>
    h.trans h' fun hp heq => (hease hp).trans heq

/-- A step that a limit has refused may do anything with eased limits. -/
theorem IndifferentAt.of_refused {x : EStateM ε σ α}
    (h : Yields x s (fun _ t => L.Fits t ∧ L.Limited t) fun _ t => L.Fits t ∧ L.Limited t) :
    L.IndifferentAt x s :=
  h.imp (fun _ _ ht => .of_limited ht.1 ht.2) fun _ _ ht => .of_limited ht.1 ht.2

/-- One step after the other. -/
theorem IndifferentAt.bind {x : EStateM ε σ α} {f : α → EStateM ε σ β} (hx : L.IndifferentAt x s)
    (hf : ∀ a t, L.Fits t → x s = .ok a t → L.IndifferentAt (f a) t) :
    L.IndifferentAt (x >>= f) s := by
  cases heq : x s with
  | ok a t =>
    have h := hx.ok heq
    refine .after h (hf a t h.fits heq) ?_ fun heq' => ?_
    · simp only [Bind.bind, EStateM.bind, heq]
    · simp only [Bind.bind, EStateM.bind, heq']
  | error e t =>
    have h := hx.error heq
    rw [IndifferentAt, yields_bind, Yields, heq]
    refine ⟨h.fits, h.limited, fun ht => ?_⟩
    simp only [Bind.bind, EStateM.bind, h.eased ht]

namespace Indifferent

theorem pure (a : α) : L.Indifferent (Pure.pure a : EStateM ε σ α) :=
  fun _ hs => ⟨hs, id, fun _ => rfl⟩

theorem throw (e : ε) : L.Indifferent (MonadExcept.throw e : EStateM ε σ α) :=
  fun _ hs => ⟨hs, id, fun _ => rfl⟩

theorem bind {x : EStateM ε σ α} {f : α → EStateM ε σ β} (hx : L.Indifferent x)
    (hf : ∀ a, L.Indifferent (f a)) : L.Indifferent (x >>= f) :=
  fun s hs => (hx s hs).bind fun a t ht _ => hf a t ht

theorem map (f : α → β) {x : EStateM ε σ α} (hx : L.Indifferent x) : L.Indifferent (f <$> x) := by
  intro s hs
  rw [IndifferentAt, yields_map]
  refine (hx s hs).imp (fun a t h => ⟨h.fits, h.limited, fun ht => ?_⟩) fun e t h =>
    ⟨h.fits, h.limited, fun ht => ?_⟩
  · simp only [Functor.map, EStateM.map, h.eased ht]
  · simp only [Functor.map, EStateM.map, h.eased ht]

theorem discard {x : EStateM ε σ α} (hx : L.Indifferent x) : L.Indifferent (Functor.discard x) :=
  hx.map _

theorem tryCatch {x : EStateM ε σ α} {f : ε → EStateM ε σ α} (hx : L.Indifferent x)
    (hf : ∀ e, L.Indifferent (f e)) : L.Indifferent (MonadExcept.tryCatch x f) := by
  intro s hs
  refine yields_tryCatch.mpr ((hx s hs).imp (fun a t h => ⟨h.fits, h.limited, fun ht => ?_⟩)
    fun e t h => ?_)
  · exact tryCatch_of_ok (h.eased ht)
  · refine (hf e t h.fits).imp (fun b u h' => h.trans h' fun heq heq' => ?_) fun e u h' =>
      h.trans h' fun heq heq' => ?_
    · exact (tryCatch_of_error heq).trans heq'
    · exact (tryCatch_of_error heq).trans heq'

theorem forM {f : α → EStateM ε σ PUnit} (hf : ∀ a, L.Indifferent (f a)) (l : List α) :
    L.Indifferent (l.forM f) := by
  induction l with
  | nil => exact pure PUnit.unit
  | cons a l ih => exact (hf a).bind fun _ => ih

/-- A step whose answer does not depend on the limits. -/
theorem read {f : σ → α} (hf : ∀ s, f (L.ease s) = f s) :
    L.Indifferent (fun s => .ok (f s) s : EStateM ε σ α) :=
  fun s hs => ⟨hs, id, fun _ => congrArg (EStateM.Result.ok · (L.ease s)) (hf s)⟩

theorem ite {p : Prop} [Decidable p] {x y : EStateM ε σ α} (hx : L.Indifferent x)
    (hy : L.Indifferent y) : L.Indifferent (if p then x else y) := by
  split
  · exact hx
  · exact hy

/-- A check, and what follows. -/
theorem guard {p : Prop} [Decidable p] {x : EStateM ε σ PUnit} {f : PUnit → EStateM ε σ α}
    (hx : L.Indifferent x) (hf : ∀ a, L.Indifferent (f a)) :
    L.Indifferent (if p then x >>= f else f ⟨⟩) :=
  ite (hx.bind hf) (hf _)

/-- The state is looked at, but not at its limits. -/
theorem get_bind {f : σ → EStateM ε σ α} (hf : ∀ s, L.Fits s → f (L.ease s) = f s)
    (h : ∀ s, L.Indifferent (f s)) : L.Indifferent (MonadState.get >>= f) :=
  fun s hs => .after (.refl hs) (h s s hs) rfl fun _ => congrFun (hf s hs) (L.ease s)

/-- A step that neither fails nor touches the limits. -/
theorem modifyGet {f : σ → α × σ} (hfits : ∀ s, L.Fits s → L.Fits (f s).2)
    (hlimited : ∀ s, L.Limited s → L.Limited (f s).2)
    (hease : ∀ s, f (L.ease s) = ((f s).1, L.ease (f s).2)) :
    L.Indifferent (MonadStateOf.modifyGet f : EStateM ε σ α) :=
  fun s hs => ⟨hfits s hs, hlimited s, fun _ =>
    congrArg (fun r : α × σ => (.ok r.1 r.2 : EStateM.Result ε σ α)) (hease s)⟩

/-- A change that does not touch the limits. -/
theorem modify {f : σ → σ} (hfits : ∀ s, L.Fits s → L.Fits (f s))
    (hlimited : ∀ s, L.Limited s → L.Limited (f s)) (hease : ∀ s, f (L.ease s) = L.ease (f s)) :
    L.Indifferent (modify f : EStateM ε σ PUnit) :=
  fun s hs => ⟨hfits s hs, hlimited s, fun _ => congrArg (EStateM.Result.ok PUnit.unit) (hease s)⟩

end Indifferent

end Easing

/-! ### Limits of a workspace -/

namespace Workspace

/-- The workspace with the limits of another configuration. -/
def ease (c : Config) (s : Workspace) : Workspace :=
  { s with engine := { s.engine with
    config := c
    choices := { s.engine.choices with limit := c.maxChoicePoints } } }

/-- The limits are those of the configuration. -/
structure Under (c : Config) (s : Workspace) : Prop where
  /-- All of them. -/
  config : s.engine.config = c
  /-- Also the one that the choice stack keeps. -/
  limit : s.engine.choices.limit = c.maxChoicePoints

/-- A limit has not allowed what was to be done. -/
def Limited (s : Workspace) : Prop :=
  .limited ∈ s.chronicle

/-- Telling of something else does not hide what has been told. -/
theorem Limited.note {s : Workspace} (h : s.Limited) (e : Ghost Chronicle.Event) :
    (s.note e).Limited := by
  rw [Limited, chronicle_note]
  exact List.mem_cons_of_mem _ h

/-- The limits of a configuration are replaced by those of another one. -/
def easing (c c' : Config) : Easing Workspace :=
  ⟨Under c, Limited, ease c'⟩

end Workspace

/-- The limits of a configuration are replaced by those of another one, around an activation. -/
def Machine.easing (c c' : Config) : Easing Machine where
  Fits m := m.workspace.Under c
  Limited m := m.workspace.Limited
  ease m := { m with workspace := m.workspace.ease c' }

/-- The step of an engine ends alike with the limits of another configuration. -/
abbrev Steady (c c' : Config) (x : EngineM α) : Prop :=
  (Workspace.easing c c').Indifferent x

/-- The step of an activation ends alike with the limits of another configuration. -/
abbrev SteadyIn (c c' : Config) (x : MachineM α) : Prop :=
  (Machine.easing c c').Indifferent x

/-- The calls end alike with the limits of another configuration. -/
structure Context.Steady (c c' : Config) (ctx : Context) : Prop where
  /-- Calls of callees. -/
  invoke : ∀ callee args redo, Resolvent.Steady c c' (ctx.invoke callee args redo)
  /-- Cleanup goals. -/
  runCleanups : ∀ goals, Resolvent.Steady c c' (ctx.runCleanups goals)
  /-- Faults. -/
  report : ∀ f, Resolvent.Steady c c' (ctx.report f)

/-- The predicates of the host end alike with the limits of another configuration if what they call
does. -/
def Host.Steady (c c' : Config) (host : Host) : Prop :=
  ∀ ctx, ctx.Steady c c' → ∀ id redo args, Resolvent.Steady c c' (host id ctx redo args)

variable {c c' : Config}

namespace Steady

theorem note (e : Chronicle.Event) : Steady c c' (Engine.note e) :=
  .modify (fun _ hs => ⟨hs.config, hs.limit⟩) (fun _ h => h.note _) fun _ => rfl

theorem onDatabase (x : DatabaseM α) : Steady c c' (Engine.onDatabase x) := by
  intro s hs
  refine Engine.yields_onDatabase.mpr ?_
  unfold Yields
  cases hx : x s.database with
  | ok a d =>
    refine ⟨⟨hs.config, hs.limit⟩, id, fun _ => ?_⟩
    simp only [Engine.onDatabase, Workspace.easing, Workspace.ease, hx]
  | error e d =>
    refine ⟨⟨hs.config, hs.limit⟩, id, fun _ => ?_⟩
    simp only [Engine.onDatabase, Workspace.easing, Workspace.ease, hx]

theorem onTerms (x : StateM Universe α) : Steady c c' (Engine.onTerms x) :=
  onDatabase _

theorem onBindings (f : Store → Trail Empty → α × Store × Trail Empty) :
    Steady c c' (Engine.onBindings f) :=
  fun _ hs => ⟨⟨hs.config, hs.limit⟩, id, fun _ => rfl⟩

/-- A step on the choice points that does not look at how many there may be. -/
theorem onChoices {f : ChoiceStack → α × ChoiceStack}
    (hf : ∀ choices n, f { choices with limit := n } =
      ((f choices).1, { (f choices).2 with limit := n }))
    (hlimit : ∀ choices, (f choices).2.limit = choices.limit) : Steady c c' (Engine.onChoices f) := by
  intro s hs
  refine ⟨⟨hs.config, (hlimit _).trans hs.limit⟩, id, fun _ => ?_⟩
  have heq := hf s.engine.choices c'.maxChoicePoints
  simp only [Engine.onChoices, Workspace.easing, Workspace.ease, heq]

theorem deref (t : Term) : Steady c c' (Engine.deref t) :=
  .read fun _ => rfl

theorem height : Steady c c' Engine.height :=
  .read fun _ => rfl

theorem top? : Steady c c' Engine.top? :=
  .read fun _ => rfl

theorem raise (e : ErrorKind) : Steady c c' (Engine.raise e : EngineM α) :=
  onDatabase _

theorem throwTerm (t : Term) : Steady c c' (Engine.throwTerm t : EngineM α) :=
  (onTerms _).bind fun _ => .throw _

theorem quit (n : Int) : Steady c c' (Engine.quit n : EngineM α) :=
  (note _).bind fun _ => .throw _

theorem mark : Steady c c' Engine.mark :=
  onBindings _

theorem undoTo (m : Nat) : Steady c c' (Engine.undoTo m) :=
  onBindings _

theorem answered (o : Option α) : Steady c c' (Engine.answered o) := by
  cases o with
  | none => exact .throw _
  | some a => exact .pure a

theorem unify (n : Nat) (s t : Term) : Steady c c' (Engine.unify n s t) :=
  (onBindings _).bind answered

theorem unifyInPlace (n : Nat) (s t : Term) : Steady c c' (Engine.unifyInPlace n s t) :=
  (onBindings _).bind answered

theorem unifyOnce (n : Nat) (s t : Term) : Steady c c' (Engine.unifyOnce n s t) :=
  (unify n s t).bind fun _ => .pure _

theorem pop : Steady c c' Engine.pop :=
  onChoices (fun _ _ => rfl) fun _ => rfl

theorem cutTo (n : Nat) : Steady c c' (Engine.cutTo n) :=
  onChoices (fun _ _ => rfl) fun _ => rfl

end Steady

/-! ### Where limits are read -/

namespace Engine

/-- A refusal is told, and it ends the step. -/
theorem refuses_exceed {s : Workspace} (hs : s.Under c) (resource : String)
    {Q : α → Workspace → Prop} : Yields (exceed resource : EngineM α) s Q
      fun _ t => t.Under c ∧ t.Limited := by
  rw [exceed, yields_bind, note, yields_modify, raise, yields_onDatabase]
  refine ⟨⟨hs.config, hs.limit⟩, ?_⟩
  show .limited ∈ (s.note (.of .limited)).chronicle
  rw [Workspace.chronicle_note, Ghost.value_of]
  exact List.mem_cons_self

/-- Where there is room for it, a choice point is made. -/
theorem pushChoice_of_hasRoom {s : Workspace} (h : s.engine.choices.hasRoom) (kind : ChoiceKind) :
    pushChoice kind s = .ok () (Workspace.hold kind { s with engine := { s.engine with
      trail := s.engine.trail.mark.2
      choices := s.engine.choices.push ⟨s.engine.trail.mark.1, kind⟩
        (.of ⟨s.database.terms.store, s.engine.trail.mark.2⟩) } }) := by
  simp only [pushChoice, mark, onBindings, now, onChoices, Bind.bind, EStateM.bind, h, if_true]
  rfl

/-- Where there is no room for it, a limit refuses it. -/
theorem yields_pushChoice_full {s : Workspace} (h : ¬s.engine.choices.hasRoom) (kind : ChoiceKind)
    {Q : Unit → Workspace → Prop} {E : Stop → Workspace → Prop} : Yields (pushChoice kind) s Q E ↔
      Yields (exceed "choice_points" : EngineM Unit)
        { s with engine := { s.engine with trail := s.engine.trail.mark.2 } }
        (fun _ t => Q () (t.hold kind)) E := by
  rw [pushChoice, yields_bind, mark, yields_onBindings, yields_bind, yields_now, yields_bind,
    yields_onChoices, if_neg h]
  exact yields_bind

theorem refuses_pushChoice {s : Workspace} (hs : s.Under c) (h : ¬s.engine.choices.hasRoom)
    (kind : ChoiceKind) {Q : Unit → Workspace → Prop} :
    Yields (pushChoice kind) s Q fun _ t => t.Under c ∧ t.Limited := by
  have ht : Workspace.Under c { s with engine := { s.engine with trail := s.engine.trail.mark.2 } } :=
    ⟨hs.config, hs.limit⟩
  exact (yields_pushChoice_full h kind).mpr (refuses_exceed ht _)

/-- A choice point is made alike where there is room for it. -/
theorem steady_pushChoice (hc : c.Eased c') (kind : ChoiceKind) :
    Steady c c' (pushChoice kind) := by
  intro s hs
  by_cases hroom : s.engine.choices.hasRoom
  · have hroom' : (s.ease c').engine.choices.hasRoom := by
      have hsize : s.engine.choices.size < s.engine.choices.limit := of_decide_eq_true hroom
      exact decide_eq_true (Nat.lt_of_lt_of_le hsize (hs.limit ▸ hc.choicePoints))
    refine .of_ok (pushChoice_of_hasRoom hroom kind) ?_
    cases kind with
    | cleanup goal =>
      exact ⟨⟨hs.config, hs.limit⟩, fun hl => hl.note _, fun _ => pushChoice_of_hasRoom hroom' _⟩
    | _ => exact ⟨⟨hs.config, hs.limit⟩, id, fun _ => pushChoice_of_hasRoom hroom' _⟩
  · exact .of_refused (refuses_pushChoice hs hroom kind)

end Engine

/-- A call that is not too deep is allowed. -/
theorem Solver.checkDepth_of_allowed {s : Workspace}
    (hdepth : ¬s.engine.config.maxCallDepth ≤ s.engine.depth)
    (hstack : ¬s.engine.config.maxStackBytes < s.engine.depth * bytesPerCall) :
    checkDepth s = .ok () s := by
  show (if _ then _ else if _ then _ else _ : EngineM Unit) s = _
  rw [if_neg hdepth, if_neg hstack]
  rfl

/-- A call is allowed alike where it is not too deep. -/
theorem Solver.steady_checkDepth (hc : c.Eased c') : Steady c c' checkDepth := by
  intro s hs
  by_cases hdepth : s.engine.config.maxCallDepth ≤ s.engine.depth
  · refine .of_refused ?_
    rw [checkDepth, yields_bind, yields_get, if_pos hdepth]
    exact yields_bind.mpr (Engine.refuses_exceed hs _)
  by_cases hstack : s.engine.config.maxStackBytes < s.engine.depth * bytesPerCall
  · refine .of_refused ?_
    rw [checkDepth, yields_bind, yields_get, if_neg hdepth, if_pos hstack]
    exact Engine.refuses_exceed hs _
  have hdepth' : ¬c'.maxCallDepth ≤ s.engine.depth :=
    fun h => hdepth (hs.config ▸ Nat.le_trans hc.callDepth h)
  have hstack' : ¬c'.maxStackBytes < s.engine.depth * bytesPerCall :=
    fun h => hstack (hs.config ▸ Nat.lt_of_le_of_lt hc.stackBytes h)
  exact .of_ok (checkDepth_of_allowed hdepth hstack) ⟨hs, id, fun _ =>
    checkDepth_of_allowed hdepth' hstack'⟩

theorem Solver.nested_of_ok {x : EngineM α} {s t : Workspace} {a : α}
    (h : x (s.atDepth (s.engine.depth + 1)) = .ok a t) :
    nested x s = .ok a (t.atDepth (t.engine.depth - 1)) := by
  unfold Workspace.atDepth at h
  rw [nested, h]
  rfl

theorem Solver.nested_of_error {x : EngineM α} {s t : Workspace} {e : Stop}
    (h : x (s.atDepth (s.engine.depth + 1)) = .error e t) :
    nested x s = .error e (t.atDepth (t.engine.depth - 1)) := by
  unfold Workspace.atDepth at h
  rw [nested, h]
  rfl

theorem Solver.yields_nested {x : EngineM α} {s : Workspace} {Q : α → Workspace → Prop}
    {E : Stop → Workspace → Prop} :
    Yields (nested x) s Q E ↔ Yields x (s.atDepth (s.engine.depth + 1))
      (fun a t => Q a (t.atDepth (t.engine.depth - 1)))
      fun e t => E e (t.atDepth (t.engine.depth - 1)) := by
  unfold Yields
  cases hx : x (s.atDepth (s.engine.depth + 1)) with
  | ok a t => rw [nested_of_ok hx]
  | error e t => rw [nested_of_error hx]

/-- A call is counted alike. -/
theorem Solver.steady_nested {x : EngineM α} (hx : Steady c c' x) : Steady c c' (nested x) := by
  intro s hs
  have h := hx (s.atDepth (s.engine.depth + 1)) ⟨hs.config, hs.limit⟩
  refine yields_nested.mpr (h.imp (fun a t ht => ?_) fun e t ht => ?_)
  · exact ⟨⟨ht.fits.config, ht.fits.limit⟩, ht.limited, fun hl =>
      nested_of_ok (s := s.ease c') (t := t.ease c') (ht.eased hl)⟩
  · exact ⟨⟨ht.fits.config, ht.fits.limit⟩, ht.limited, fun hl =>
      nested_of_error (s := s.ease c') (t := t.ease c') (ht.eased hl)⟩

/-! ### Steps of an activation -/

/-- What a step of an activation leads to, in another workspace. -/
def Machine.moveTo (w : Workspace) :
    EStateM.Result Interrupt Machine α → EStateM.Result Interrupt Machine α
  | .ok r m => .ok r { m with workspace := w }
  | .error i m => .error i { m with workspace := w }

namespace SteadyIn

theorem onWorkspace {x : EngineM α} (hx : Steady c c' x) :
    SteadyIn c c' (Activation.onWorkspace x) := by
  intro m hm
  refine Activation.yields_onWorkspace.mpr ((hx m.workspace hm).imp (fun a s h => ?_) fun e s h => ?_)
  · refine ⟨h.fits, h.limited, fun hs => ?_⟩
    simp only [Activation.onWorkspace, Machine.easing]
    rw [show x (m.workspace.ease c') = _ from h.eased hs]
    rfl
  · refine ⟨h.fits, h.limited, fun hs => ?_⟩
    simp only [Activation.onWorkspace, Machine.easing]
    rw [show x (m.workspace.ease c') = _ from h.eased hs]
    rfl

theorem fault (f : Fault) : SteadyIn c c' (Activation.fault f : MachineM α) :=
  .throw _

theorem update (f : Activation → Activation) : SteadyIn c c' (Activation.update f) :=
  fun _ hm => ⟨hm, id, fun _ => rfl⟩

theorem orFault (f : Fault) (o : Option α) : SteadyIn c c' (Activation.orFault f o) := by
  cases o with
  | none => exact fault f
  | some a => exact .pure a

/-- An operand is pushed alike where there is room for it. -/
theorem push (hc : c.Eased c') (t : Term) : SteadyIn c c' (Activation.push t) := by
  intro m hm
  by_cases hroom : m.activation.operands.size < m.workspace.engine.config.maxOperands
  · have hroom' : m.activation.operands.size < c'.maxOperands :=
      Nat.lt_of_lt_of_le hroom (hm.config ▸ hc.operands)
    have hrun {w : Workspace} (h : m.activation.operands.size < w.engine.config.maxOperands) :
        Activation.push t ⟨w, m.activation⟩ =
          Activation.update (fun a => { a with operands := a.operands.push t }) ⟨w, m.activation⟩ :=
      if_pos h
    exact .after (.refl hm) (update _ m hm) (hrun hroom) fun _ =>
      hrun (w := m.workspace.ease c') hroom'
  · have hrun : Activation.push t m =
        .error (.fault .stackOverflow) { m with workspace := m.workspace.note (.of .limited) } :=
      if_neg hroom
    refine .of_refused ?_
    rw [Yields, hrun]
    refine ⟨⟨hm.config, hm.limit⟩, ?_⟩
    show .limited ∈ (m.workspace.note (.of .limited)).chronicle
    rw [Workspace.chronicle_note, Ghost.value_of]
    exact List.mem_cons_self

/-- A step on the activation that does not look at the rest. -/
theorem alone {x : MachineM α} (h : ∀ w w' a, x ⟨w', a⟩ = Machine.moveTo w' (x ⟨w, a⟩)) :
    SteadyIn c c' x := by
  intro m hm
  have hstays : x m = Machine.moveTo m.workspace (x m) := h m.workspace m.workspace m.activation
  have heased : x ((Machine.easing c c').ease m) = Machine.moveTo (m.workspace.ease c') (x m) :=
    h m.workspace _ m.activation
  unfold Easing.IndifferentAt Yields
  cases hx : x m with
  | ok r m' =>
    obtain ⟨w, a⟩ := m'
    rw [hx] at hstays heased
    cases hstays
    exact ⟨hm, id, fun _ => heased⟩
  | error e m' =>
    obtain ⟨w, a⟩ := m'
    rw [hx] at hstays heased
    cases hstays
    exact ⟨hm, id, fun _ => heased⟩

theorem pop : SteadyIn c c' Activation.pop := by
  refine alone fun w w' a => ?_
  unfold Activation.pop
  dsimp only
  cases a.operands.back? <;> rfl

theorem popMany (n : Nat) : SteadyIn c c' (Activation.popMany n) := by
  refine alone fun w w' a => ?_
  unfold Activation.popMany
  dsimp only
  split <;> rfl

theorem store (n : UInt16) (v : Slot) : SteadyIn c c' (Activation.store n v) := by
  refine alone fun w w' a => ?_
  unfold Activation.store
  dsimp only
  split <;> rfl

theorem barrier (n : UInt16) : SteadyIn c c' (Activation.barrier n) := by
  refine .get_bind (fun _ _ => rfl) fun m => ?_
  split
  · exact .pure _
  · exact fault _
  · exact fault _

theorem slotTerm (n : UInt16) : SteadyIn c c' (Activation.slotTerm n) := by
  refine .get_bind (fun _ _ => rfl) fun m => ?_
  split
  · exact .pure _
  · exact fault _
  · exact fault _

theorem place (l : UInt32) : SteadyIn c c' (Activation.place l) := by
  refine .get_bind (fun _ _ => rfl) fun m => ?_
  split
  · exact .pure _
  · exact fault _

theorem tag (n : UInt16) : SteadyIn c c' (Activation.tag n) :=
  .get_bind (fun _ _ => rfl) fun _ => orFault _ _

/-- A last step, after which the activation goes on with the next instruction. -/
theorem forward {x : MachineM α} (hx : SteadyIn c c' x) :
    SteadyIn c c' (x >>= fun _ => Pure.pure Course.forward) :=
  hx.bind fun _ => .pure _

end SteadyIn

namespace Activation

/-! ### Calls -/

theorem steady_unknownPolicy (hc : c.Eased c') {s : Workspace} (hs : s.Under c) :
    (s.ease c').unknownPolicy = s.unknownPolicy :=
  congrArg s.database.unknown.getD (hc.unknown.trans (congrArg Config.unknown hs.config.symm))

theorem steady_findCallee (hc : c.Eased c') (site : Nat) (tag : Tag) (args : Array Term) :
    Steady c c' (findCallee site tag args) := by
  refine .get_bind (fun _ _ => rfl) fun s => ?_
  dsimp only
  refine .get_bind (fun _ _ => rfl) fun t => ?_
  split
  · exact .pure _
  refine (Steady.onDatabase _).bind fun r => ?_
  split
  · refine Easing.Indifferent.bind (.modify (fun _ hs => ⟨hs.config, hs.limit⟩) (fun _ h => h)
      fun _ => rfl) fun _ => .pure _
  · exact (Steady.onDatabase _).bind fun _ => .pure _
  · refine .get_bind (fun u hu => ?_) fun u => ?_
    · dsimp only [Workspace.easing]
      rw [steady_unknownPolicy hc hu]
    split
    · exact .pure _
    · exact (Steady.onTerms _).bind fun _ => .throw _

theorem steady_look (hc : c.Eased c') (site : Nat) (tag : Tag) (args : Array Term) :
    Steady c c' (look site tag args) := by
  intro s hs
  have h := steady_findCallee hc site tag args s hs
  refine yields_look.mpr (h.imp (fun r t ht => ?_) fun e t ht => ?_)
  · refine ⟨⟨ht.fits.config, ht.fits.limit⟩, fun hl => (ht.limited hl).note _, fun hl => ?_⟩
    have heased : findCallee site tag args (s.ease c') = .ok r (t.ease c') :=
      ht.eased fun ht => hl (ht.note _)
    show look site tag args (s.ease c') = _
    rw [look, heased, steady_unknownPolicy hc hs]
    rfl
  · refine ⟨⟨ht.fits.config, ht.fits.limit⟩, fun hl => (ht.limited hl).note _, fun hl => ?_⟩
    have heased : findCallee site tag args (s.ease c') = .error e (t.ease c') :=
      ht.eased fun ht => hl (ht.note _)
    show look site tag args (s.ease c') = _
    rw [look, heased, steady_unknownPolicy hc hs]
    rfl

variable {ctx : Context} (hc : c.Eased c') (hctx : ctx.Steady c c')

include hctx in
theorem steady_invoke (callee : Callee) (args : Array Term) (redo : Bool) :
    Steady c c' (invoke ctx callee args redo) :=
  (Steady.note _).bind fun _ => hctx.invoke _ _ _

include hc

theorem steady_proceed (callee : Callee) (args : Array Term) (resume callAt : Nat) (a : Answer) :
    SteadyIn c c' (proceed callee args resume callAt a) := by
  cases a with
  | more => exact .forward (.onWorkspace (Engine.steady_pushChoice hc _))
  | last => exact .pure _
  | fail => exact .pure _

theorem steady_find (n : UInt16) : SteadyIn c c' (find n) := by
  refine (SteadyIn.tag n).bind fun tag => .get_bind (fun _ _ => rfl) fun m => ?_
  refine (SteadyIn.popMany _).bind fun args => .get_bind (fun _ _ => rfl) fun m => ?_
  exact SteadyIn.onWorkspace (steady_look hc _ _ _)

include hctx

theorem steady_call (n : UInt16) : SteadyIn c c' (call ctx n) := by
  refine (steady_find hc n).bind fun r => ?_
  cases r with
  | none => exact .pure _
  | some r =>
    refine (SteadyIn.onWorkspace (steady_invoke hctx _ _ _)).bind fun a => ?_
    exact .get_bind (fun _ _ => rfl) fun m => steady_proceed hc _ _ _ _ _

theorem steady_backtrack : SteadyIn c c' (backtrack ctx) := by
  refine (SteadyIn.onWorkspace .height).bind fun height => .get_bind (fun _ _ => rfl) fun m => ?_
  refine .guard (SteadyIn.fault _) fun _ => (SteadyIn.onWorkspace .top?).bind fun p => ?_
  split
  · exact SteadyIn.fault _
  · refine (SteadyIn.onWorkspace (.undoTo _)).bind fun _ => ?_
    exact (SteadyIn.update _).bind fun _ => .pure _
  · refine (SteadyIn.onWorkspace .pop).bind fun _ => ?_
    refine (SteadyIn.onWorkspace (.undoTo _)).bind fun _ => ?_
    split
    · exact .pure _
    · refine (SteadyIn.update _).bind fun _ => ?_
      refine (SteadyIn.onWorkspace (steady_invoke hctx _ _ _)).bind fun a => ?_
      exact steady_proceed hc _ _ _ _ _
    · exact (SteadyIn.onWorkspace (hctx.runCleanups _)).bind fun _ => .pure _
    · exact .pure _
    · exact .pure _
    · exact .pure _

/-! ### Instructions -/

omit hctx in
theorem steady_leave : SteadyIn c c' leave := by
  refine (SteadyIn.onWorkspace .height).bind fun height => .get_bind (fun _ _ => rfl) fun m => ?_
  refine .ite (SteadyIn.fault _) (.ite ?_ ?_)
  · exact (SteadyIn.onWorkspace .pop).bind fun _ => .pure _
  · refine Easing.Indifferent.bind (.modifyGet (fun _ h => h) (fun _ h => h) fun _ => rfl)
      fun slots => ?_
    exact (SteadyIn.onWorkspace (Engine.steady_pushChoice hc _)).bind fun _ => .pure _

/-- Every instruction is carried out alike. -/
theorem steady_perform (i : Instruction UInt16 UInt16 UInt32) : SteadyIn c c' (perform ctx i) := by
  cases i with
  | pop => exact SteadyIn.forward SteadyIn.pop.discard
  | dup =>
    exact .get_bind (fun _ _ => rfl) fun m => (SteadyIn.orFault _ _).bind fun t =>
      SteadyIn.forward (.push hc t)
  | pushConstant n =>
    exact .get_bind (fun _ _ => rfl) fun m => (SteadyIn.orFault _ _).bind fun t =>
      SteadyIn.forward (.push hc t)
  | pushArgument n =>
    exact .get_bind (fun _ _ => rfl) fun m => (SteadyIn.orFault _ _).bind fun t =>
      SteadyIn.forward (.push hc t)
  | pushEnvironment n => exact (SteadyIn.slotTerm n).bind fun t => SteadyIn.forward (.push hc t)
  | createVariable =>
    exact (SteadyIn.onWorkspace (.onTerms _)).bind fun t => SteadyIn.forward (.push hc _)
  | createCompound n =>
    refine (SteadyIn.tag n).bind fun tag => .get_bind (fun _ _ => rfl) fun m => ?_
    refine (SteadyIn.popMany _).bind fun args => ?_
    exact (SteadyIn.onWorkspace (.onTerms _)).bind fun t => SteadyIn.forward (.push hc t)
  | allocate n => exact SteadyIn.forward (.update _)
  | storeEnvironment n => exact SteadyIn.pop.bind fun t => SteadyIn.forward (.store n _)
  | jump l => exact (SteadyIn.place l).bind fun target => SteadyIn.forward (.update _)
  | call n => exact steady_call hc hctx n
  | leave => exact steady_leave hc
  | succeed => exact .pure _
  | unify =>
    refine SteadyIn.pop.bind fun t => SteadyIn.pop.bind fun s => ?_
    exact (SteadyIn.onWorkspace (.unifyInPlace _ _ _)).bind fun b => .pure _
  | tryMeElse l =>
    exact (SteadyIn.place l).bind fun target =>
      SteadyIn.forward (.onWorkspace (Engine.steady_pushChoice hc _))
  | retryMeElse l =>
    refine (SteadyIn.place l).bind fun target => (SteadyIn.onWorkspace .top?).bind fun p => ?_
    split
    · exact SteadyIn.forward (.onWorkspace (.onChoices (fun _ _ => rfl) fun _ => rfl))
    · exact SteadyIn.fault _
  | trustMe =>
    refine (SteadyIn.onWorkspace .top?).bind fun p => ?_
    split
    · exact SteadyIn.forward (.onWorkspace .pop)
    · exact SteadyIn.fault _
  | fail => exact .pure _
  | cut n =>
    refine (SteadyIn.barrier n).bind fun b => .get_bind (fun _ _ => rfl) fun m => ?_
    refine (SteadyIn.onWorkspace (.cutTo _)).bind fun goals => ?_
    exact .ite (.pure _) (SteadyIn.forward (.onWorkspace (hctx.runCleanups goals)))
  | saveCut n =>
    refine (SteadyIn.onWorkspace .height).bind fun height => ?_
    exact (SteadyIn.onWorkspace .mark).bind fun mark => SteadyIn.forward (.store n _)
  | raise =>
    refine SteadyIn.pop.bind fun t => (SteadyIn.onWorkspace (.deref t)).bind fun t' => ?_
    split
    · exact SteadyIn.onWorkspace (.raise _)
    · exact SteadyIn.onWorkspace (.throwTerm _)

theorem steady_step (course : Course) : SteadyIn c c' (step ctx course) := by
  cases course with
  | forward =>
    refine .get_bind (fun _ _ => rfl) fun m => ?_
    dsimp only
    split
    · exact (SteadyIn.update _).bind fun _ => SteadyIn.fault _
    · exact (SteadyIn.update _).bind fun _ => steady_perform hc hctx _
  | backward => exact steady_backtrack hc hctx
  | answer a => exact .pure _

/-! ### Runs -/

omit hc in
theorem steady_handle (e : Exception) (a : Activation) : Steady c c' (handle ctx e a) := by
  rw [handle]
  split
  · refine (Steady.cutTo _).bind fun goals => (hctx.runCleanups _).bind fun _ => ?_
    exact (Steady.undoTo _).bind fun _ => .pure _
  · refine .get_bind (fun _ _ => rfl) fun s => (Steady.cutTo _).bind fun goals => ?_
    refine (hctx.runCleanups _).bind fun _ => ?_
    split
    · exact (Steady.undoTo _).bind fun _ => .throw _
    · exact .throw _

omit hc in
theorem steady_settle (i : Interrupt) (a : Activation) : Steady c c' (settle ctx i a) := by
  rcases i with (x | n) | f
  · exact steady_handle hctx x a
  · exact .throw _
  · exact .throw _
  · exact (hctx.report f).bind fun x => steady_handle hctx x a

/-- Every run is alike. -/
theorem steady_run (n : Nat) :
    ∀ (course : Course) (a : Activation), Steady c c' (run ctx n course a) := by
  induction n with
  | zero => exact fun _ _ => .throw _
  | succ n ih =>
    intro course a s hs
    by_cases hanswer : ∃ b, course = .answer b
    · obtain ⟨b, rfl⟩ := hanswer
      exact Easing.Indifferent.pure b s hs
    have hanswer (b : Answer) : course ≠ .answer b := fun heq => hanswer ⟨b, heq⟩
    have hstep := steady_step hc hctx course ⟨s.pass, a⟩ ⟨hs.config, hs.limit⟩
    have hpass {m : Machine} {p : Prop} (h : (Machine.easing c c').Leads ⟨s.pass, a⟩ m p) :
        (Workspace.easing c c').Leads s m.workspace p :=
      ⟨h.fits, fun hl => h.limited (hl.note _), h.eased⟩
    cases hx : step ctx course ⟨s.pass, a⟩ with
    | ok course' m =>
      have h := hpass (hstep.ok hx)
      refine .after h (ih course' m.activation m.workspace h.fits) (run_of_ok hanswer hx) fun heased => ?_
      have hx' : step ctx course ⟨(s.ease c').pass, a⟩ =
        .ok course' ⟨m.workspace.ease c', m.activation⟩ := heased
      exact run_of_ok hanswer hx'
    | error i m =>
      have h := hpass (hstep.error hx)
      have hsettle := steady_settle hctx i m.activation m.workspace h.fits
      cases hx' : settle ctx i m.activation m.workspace with
      | ok a' t =>
        have h' := hsettle.ok hx'
        refine .after (h.trans h' And.intro) (ih .forward a' t h'.fits) (run_of_caught hanswer hx hx')
          fun heased => ?_
        have hx₁ : step ctx course ⟨(s.ease c').pass, a⟩ =
          .error i ⟨m.workspace.ease c', m.activation⟩ := heased.1
        exact run_of_caught hanswer hx₁ heased.2
      | error e t =>
        have h' := hsettle.error hx'
        refine .after (h.trans h' And.intro) (Easing.Indifferent.throw e t h'.fits)
          (run_of_uncaught hanswer hx hx') fun heased => ?_
        have hx₁ : step ctx course ⟨(s.ease c').pass, a⟩ =
          .error i ⟨m.workspace.ease c', m.activation⟩ := heased.1
        exact run_of_uncaught hanswer hx₁ heased.2

theorem steady_start (code : Code) (args : Array Term) : Steady c c' (start ctx code args) :=
  (Engine.steady_pushChoice hc _).bind fun _ => Steady.height.bind fun _ => steady_run hc hctx _ _ _

theorem steady_resume (code : Code) (args : Array Term) : Steady c c' (resume ctx code args) := by
  refine Steady.top?.bind fun p => ?_
  split
  · exact Steady.pop.bind fun _ => (Steady.undoTo _).bind fun _ => steady_run hc hctx _ _ _
  · exact (hctx.report _).bind fun _ => .throw _

end Activation

end Resolvent
