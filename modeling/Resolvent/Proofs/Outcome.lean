import Resolvent.Activation

/-!
# What a step yields

`Yields x s Q E` says that the step `x`, carried out in the state `s`, either gives an answer and a
state of which `Q` holds, or ends with an error and a state of which `E` holds. There is one
equation for every way in which steps are put together, so a step written in `do` notation is taken
apart by rewriting; what a named step yields is stated once, as a lemma of its own.

`Agree x y s Q E` says besides that another step `y` ends in the same way. So what holds of a run is
proved together with its independence of something that two runs differ in.
-/

namespace Resolvent

variable {ε ε' σ σ' α β : Type}

/-- A step carried out in `s` ends with an answer of which `Q` holds or an error of which `E`
holds. -/
def Yields (x : EStateM ε σ α) (s : σ) (Q : α → σ → Prop) (E : ε → σ → Prop) : Prop :=
  match x s with
  | .ok a s' => Q a s'
  | .error e s' => E e s'

section Rules

variable {s : σ} {Q : α → σ → Prop} {E : ε → σ → Prop} {R : β → σ → Prop}

theorem Yields.imp {x : EStateM ε σ α} {Q' : α → σ → Prop} {E' : ε → σ → Prop}
    (h : Yields x s Q E) (hQ : ∀ a s', Q a s' → Q' a s') (hE : ∀ e s', E e s' → E' e s') :
    Yields x s Q' E' := by
  unfold Yields at *
  split at h <;> simp_all

theorem Yields.and {x : EStateM ε σ α} {Q' : α → σ → Prop} {E' : ε → σ → Prop}
    (h : Yields x s Q E) (h' : Yields x s Q' E') :
    Yields x s (fun a s' => Q a s' ∧ Q' a s') fun e s' => E e s' ∧ E' e s' := by
  unfold Yields at *
  split at h <;> simp_all

/-- A condition for what a step yields. -/
theorem Yields.of_imp {x : EStateM ε σ α} {p : Prop} (h : p → Yields x s Q E) :
    Yields x s (fun a s' => p → Q a s') fun e s' => p → E e s' := by
  unfold Yields at *
  cases hx : x s <;> simp_all

theorem yields_ok {x : EStateM ε σ α} {a : α} {s' : σ} (h : Yields x s Q E) (hx : x s = .ok a s') :
    Q a s' := by
  simpa [Yields, hx] using h

theorem yields_error {x : EStateM ε σ α} {e : ε} {s' : σ} (h : Yields x s Q E)
    (hx : x s = .error e s') : E e s' := by
  simpa [Yields, hx] using h

/-- A step that ends with no error ends with an answer. -/
theorem Yields.exists_ok {x : EStateM ε σ α} (h : Yields x s Q fun _ _ => False) :
    ∃ a s', x s = .ok a s' ∧ Q a s' := by
  cases hx : x s with
  | ok a s' => exact ⟨a, s', rfl, yields_ok h hx⟩
  | error e s' => exact (yields_error h hx).elim

@[simp] theorem yields_pure {a : α} : Yields (pure a) s Q E ↔ Q a s := Iff.rfl

@[simp] theorem yields_throw {e : ε} : Yields (throw e) s Q E ↔ E e s := Iff.rfl

@[simp] theorem yields_bind {x : EStateM ε σ α} {f : α → EStateM ε σ β} :
    Yields (x >>= f) s R E ↔ Yields x s (fun a s' => Yields (f a) s' R E) E := by
  simp only [Yields, bind, EStateM.bind]
  cases x s <;> rfl

@[simp] theorem yields_map {x : EStateM ε σ α} {f : α → β} :
    Yields (f <$> x) s R E ↔ Yields x s (fun a s' => R (f a) s') E := by
  simp only [Yields, Functor.map, EStateM.map]
  cases x s <;> rfl

@[simp] theorem yields_discard {x : EStateM ε σ α} {R : Unit → σ → Prop} :
    Yields (discard x) s R E ↔ Yields x s (fun _ s' => R () s') E :=
  yields_map (f := fun _ => PUnit.unit)

@[simp] theorem yields_get {Q : σ → σ → Prop} : Yields get s Q E ↔ Q s s := Iff.rfl

@[simp] theorem yields_set {s' : σ} {Q : PUnit → σ → Prop} : Yields (set s') s Q E ↔ Q ⟨⟩ s' :=
  Iff.rfl

@[simp] theorem yields_modify {f : σ → σ} {Q : PUnit → σ → Prop} :
    Yields (modify f) s Q E ↔ Q ⟨⟩ (f s) := Iff.rfl

@[simp] theorem yields_modifyGet {f : σ → α × σ} :
    Yields (modifyGet f) s Q E ↔ Q (f s).1 (f s).2 := Iff.rfl

/-- A handler is not carried out where there is an answer. -/
theorem tryCatch_of_ok {x : EStateM ε σ α} {f : ε → EStateM ε σ α} {a : α} {s' : σ}
    (h : x s = .ok a s') : (tryCatch x f : EStateM ε σ α) s = .ok a s' := by
  show EStateM.tryCatch x f s = _
  delta EStateM.tryCatch
  dsimp only
  rw [h]

/-- A handler is carried out where there is an error. -/
theorem tryCatch_of_error {x : EStateM ε σ α} {f : ε → EStateM ε σ α} {e : ε} {s' : σ}
    (h : x s = .error e s') : (tryCatch x f : EStateM ε σ α) s = f e s' := by
  show EStateM.tryCatch x f s = _
  delta EStateM.tryCatch
  dsimp only
  rw [h]
  rfl

theorem yields_tryCatch {x : EStateM ε σ α} {f : ε → EStateM ε σ α} :
    Yields (tryCatch x f) s Q E ↔ Yields x s Q (fun e s' => Yields (f e) s' Q E) := by
  unfold Yields
  cases h : x s with
  | ok a s' => rw [tryCatch_of_ok h]
  | error e s' => rw [tryCatch_of_error h]

@[simp] theorem yields_ite {c : Prop} [Decidable c] {x y : EStateM ε σ α} :
    Yields (if c then x else y) s Q E ↔ (c → Yields x s Q E) ∧ (¬c → Yields y s Q E) := by
  split <;> simp_all

end Rules

/-- The answer of a step, with the state behind it. -/
def answer? (x : EStateM ε σ α) (s : σ) : Option (α × σ) :=
  match x s with
  | .ok a s' => some (a, s')
  | .error .. => none

theorem answer?_eq_some {x : EStateM ε σ α} {s s' : σ} {a : α} :
    answer? x s = some (a, s') ↔ x s = .ok a s' := by
  unfold answer?
  cases x s <;> simp

/-! ### Two steps that agree -/

/-- Two steps, carried out in `s`, end alike: with an answer of which `Q` holds or an error of which
`E` holds. -/
structure Agree (x y : EStateM ε σ α) (s : σ) (Q : α → σ → Prop) (E : ε → σ → Prop) : Prop where
  /-- They end alike. -/
  eq : y s = x s
  /-- They end so. -/
  yields : Yields x s Q E

namespace Agree

variable {x y : EStateM ε σ α} {s : σ} {Q : α → σ → Prop} {E : ε → σ → Prop}

/-- A step agrees with itself. -/
theorem of_yields (h : Yields x s Q E) : Agree x x s Q E :=
  ⟨rfl, h⟩

/-- What two steps come to agrees. -/
theorem of_eq {x' y' : EStateM ε σ α} {s' : σ} (hx : x s = x' s') (hy : y s = y' s')
    (h : Agree x' y' s' Q E) : Agree x y s Q E := by
  refine ⟨by rw [hx, hy, h.eq], ?_⟩
  rw [Yields, hx]
  exact h.yields

theorem imp {Q' : α → σ → Prop} {E' : ε → σ → Prop} (h : Agree x y s Q E)
    (hQ : ∀ a s', Q a s' → Q' a s') (hE : ∀ e s', E e s' → E' e s') : Agree x y s Q' E' :=
  ⟨h.eq, h.yields.imp hQ hE⟩

/-- What is known of the other step. -/
theorem and {Q' : α → σ → Prop} {E' : ε → σ → Prop} (h : Agree x y s Q E) (h' : Yields y s Q' E') :
    Agree x y s (fun a s' => Q a s' ∧ Q' a s') fun e s' => E e s' ∧ E' e s' := by
  refine ⟨h.eq, h.yields.and ?_⟩
  rw [Yields, ← h.eq]
  exact h'

theorem bind {f g : α → EStateM ε σ β} {R : β → σ → Prop} {E' : ε → σ → Prop}
    (h : Agree x y s Q E) (hf : ∀ a s', Q a s' → Agree (f a) (g a) s' R E')
    (he : ∀ e s', E e s' → E' e s') : Agree (x >>= f) (y >>= g) s R E' := by
  obtain ⟨heq, hy⟩ := h
  simp only [Yields] at hy
  cases hx : x s with
  | ok a s' =>
    rw [hx] at hy
    obtain ⟨heq', hy'⟩ := hf a s' hy
    refine ⟨?_, ?_⟩
    · simp only [Bind.bind, EStateM.bind, heq, hx, heq']
    · simpa only [Yields, Bind.bind, EStateM.bind, hx] using hy'
  | error e s' =>
    rw [hx] at hy
    refine ⟨?_, ?_⟩
    · simp only [Bind.bind, EStateM.bind, heq, hx]
    · simpa only [Yields, Bind.bind, EStateM.bind, hx] using he e s' hy

/-- A first step that both carry out. -/
theorem bind_same {f g : α → EStateM ε σ β} {R : β → σ → Prop} {E' : ε → σ → Prop}
    (h : Yields x s (fun a s' => Agree (f a) (g a) s' R E') E') :
    Agree (x >>= f) (x >>= g) s R E' :=
  (of_yields h).bind (fun _ _ h => h) fun _ _ h => h

theorem map {f : α → β} {R : β → σ → Prop} (h : Agree x y s (fun a s' => R (f a) s') E) :
    Agree (f <$> x) (f <$> y) s R E := by
  refine ⟨?_, yields_map.mpr h.yields⟩
  simp only [Functor.map, EStateM.map, h.eq]

theorem tryCatch {f g : ε → EStateM ε σ α} {Q' : α → σ → Prop} {E' : ε → σ → Prop}
    (h : Agree x y s Q E) (hQ : ∀ a s', Q a s' → Q' a s')
    (he : ∀ e s', E e s' → Agree (f e) (g e) s' Q' E') :
    Agree (MonadExcept.tryCatch x f) (MonadExcept.tryCatch y g) s Q' E' := by
  refine ⟨?_, yields_tryCatch.mpr (h.yields.imp hQ fun e s' h => (he e s' h).yields)⟩
  obtain ⟨heq, hy⟩ := h
  cases hx : x s with
  | ok a s' => exact (tryCatch_of_ok (heq.trans hx)).trans (tryCatch_of_ok hx).symm
  | error e s' =>
    rw [tryCatch_of_error (heq.trans hx), tryCatch_of_error hx]
    exact (he e s' (yields_error hy hx)).eq

end Agree

/-! ### Steps that keep a relation -/

/-- The step leads from any state to a related one, whether it gives an answer or an error. -/
def Keeps (R : σ → σ → Prop) (x : EStateM ε σ α) : Prop :=
  ∀ s, Yields x s (fun _ s' => R s s') fun _ s' => R s s'

namespace Keeps

variable {R : σ → σ → Prop} [Std.Refl R] [Trans R R R]

omit [Trans R R R] in
theorem pure (a : α) : Keeps R (Pure.pure a : EStateM ε σ α) :=
  fun s => Std.Refl.refl s

omit [Trans R R R] in
theorem throw (e : ε) : Keeps R (throw e : EStateM ε σ α) :=
  fun s => Std.Refl.refl s

omit [Trans R R R] in
/-- What stands behind a step that throws is not carried out. -/
theorem throw_bind (e : ε) (f : α → EStateM ε σ β) :
    Keeps R ((MonadExcept.throw e : EStateM ε σ α) >>= f) :=
  fun s => Std.Refl.refl s

omit [Trans R R R] in
theorem get : Keeps R (get : EStateM ε σ σ) :=
  fun s => Std.Refl.refl s

omit [Std.Refl R] [Trans R R R] in
theorem modify {f : σ → σ} (hf : ∀ s, R s (f s)) : Keeps R (modify f : EStateM ε σ PUnit) :=
  hf

omit [Std.Refl R] [Trans R R R] in
theorem modifyGet {f : σ → α × σ} (hf : ∀ s, R s (f s).2) :
    Keeps R (modifyGet f : EStateM ε σ α) :=
  hf

omit [Std.Refl R] in
theorem bind {x : EStateM ε σ α} {f : α → EStateM ε σ β} (hx : Keeps R x)
    (hf : ∀ a, Keeps R (f a)) : Keeps R (x >>= f) := by
  intro s
  rw [yields_bind]
  refine (hx s).imp (fun a s' h => ?_) fun _ _ h => h
  exact (hf a s').imp (fun _ _ h' => Trans.trans h h') fun _ _ h' => Trans.trans h h'

theorem map {x : EStateM ε σ α} (f : α → β) (hx : Keeps R x) : Keeps R (f <$> x) :=
  hx.bind fun _ => pure _

omit [Std.Refl R] [Trans R R R] in
theorem ite {c : Prop} [Decidable c] {x y : EStateM ε σ α} (hx : Keeps R x) (hy : Keeps R y) :
    Keeps R (if c then x else y) := by
  split
  · exact hx
  · exact hy

theorem mapM {f : α → EStateM ε σ β} (hf : ∀ a, Keeps R (f a)) (l : List α) :
    Keeps R (l.mapM f) := by
  induction l with
  | nil => exact pure []
  | cons a l ih =>
    rw [List.mapM_cons]
    exact (hf a).bind fun _ => ih.bind fun _ => pure _

theorem forM {f : α → EStateM ε σ PUnit} (hf : ∀ a, Keeps R (f a)) (l : List α) :
    Keeps R (l.forM f) := by
  induction l with
  | nil => exact pure PUnit.unit
  | cons a l ih => exact (hf a).bind fun _ => ih

end Keeps

/-! ### Steps on a part of the state -/

section Lifts

variable {s : Workspace} {Q : α → Workspace → Prop} {E : Stop → Workspace → Prop}

@[simp] theorem Activation.yields_onWorkspace {x : EngineM α} {m : Machine}
    {Q : α → Machine → Prop} {E : Interrupt → Machine → Prop} :
    Yields (Activation.onWorkspace x) m Q E ↔
      Yields x m.workspace (fun r s' => Q r ⟨s', m.activation⟩)
        (fun e s' => E (.stop e) ⟨s', m.activation⟩) := by
  simp only [Yields, Activation.onWorkspace]
  cases x m.workspace <;> rfl

theorem Activation.agree_onWorkspace {x y : EngineM α} {m : Machine} {Q : α → Machine → Prop}
    {E : Interrupt → Machine → Prop} (h : Agree x y m.workspace (fun r s' => Q r ⟨s', m.activation⟩)
      fun e s' => E (.stop e) ⟨s', m.activation⟩) :
    Agree (Activation.onWorkspace x) (Activation.onWorkspace y) m Q E := by
  refine ⟨?_, Activation.yields_onWorkspace.mpr h.yields⟩
  simp only [Activation.onWorkspace, h.eq]

/-- A call looks for what it leads to, and that it has done so is told. -/
theorem Activation.yields_look {site : Nat} {tag : Tag} {args : Array Term}
    {Q : Option (Callee × Array Term) → Workspace → Prop} :
    Yields (look site tag args) s Q E ↔ Yields (findCallee site tag args) s
      (fun r s' => Q r (s'.note (.of (.looked ⟨s.database, s.unknownPolicy, tag, args, .ok r⟩))))
      (fun e s' =>
        E e (s'.note (.of (.looked ⟨s.database, s.unknownPolicy, tag, args, .error e⟩)))) := by
  simp only [Yields, look]
  cases findCallee site tag args s <;> rfl

/-- Calls that agree are told of alike. -/
theorem Activation.agree_invoke {ctx ctx' : Context} {callee : Callee} {args : Array Term}
    {redo : Bool} {Q : Answer → Workspace → Prop} (h : Agree (ctx.invoke callee args redo)
      (ctx'.invoke callee args redo) (s.note (.of (.invoked callee args redo))) Q E) :
    Agree (invoke ctx callee args redo) (invoke ctx' callee args redo) s Q E :=
  .bind_same h

theorem Engine.yields_onDatabase {x : DatabaseM α} :
    Yields (Engine.onDatabase x) s Q E ↔
      Yields x s.database (fun a d => Q a ⟨d, s.engine⟩)
        (fun e d => E (.thrown e) ⟨d, s.engine⟩) := by
  simp only [Yields, Engine.onDatabase]
  cases x s.database <;> rfl

theorem Database.yields_onTerms {x : StateM Universe α} {d : Database} {Q : α → Database → Prop}
    {E : Exception → Database → Prop} :
    Yields (Database.onTerms x) d Q E ↔
      Q (x d.terms).1 { d with terms := (x d.terms).2 } := Iff.rfl

/-- A compilation leads to another universe, where its error is raised. -/
theorem Database.yields_compile {x : EStateM CompileError Universe α}
    {kind : CompileError → ErrorKind} {d : Database} {Q : α → Database → Prop}
    {E : Exception → Database → Prop} :
    Yields (Database.compile x kind) d Q E ↔ Yields x d.terms (fun a u => Q a { d with terms := u })
      fun e u => E (Exception.ofError (kind e) u).1
        { d with terms := (Exception.ofError (kind e) u).2 } := by
  obtain ⟨terms, predicates, codeCache, sites, generation, unknown, listeners, journal⟩ := d
  simp only [Yields, Database.compile]
  cases x terms <;> rfl

theorem Engine.yields_onTerms {x : StateM Universe α} :
    Yields (Engine.onTerms x) s Q E ↔
      Q (x s.database.terms).1
        { s with database := { s.database with terms := (x s.database.terms).2 } } := Iff.rfl

theorem Engine.yields_onChoices {f : ChoiceStack → α × ChoiceStack} :
    Yields (Engine.onChoices f) s Q E ↔
      Q (f s.engine.choices).1
        { s with engine := { s.engine with choices := (f s.engine.choices).2 } } := Iff.rfl

theorem Engine.yields_onBindings {f : Store → Trail Empty → α × Store × Trail Empty} :
    Yields (Engine.onBindings f) s Q E ↔
      Q (f s.database.terms.store s.engine.trail).1
        { database := { s.database with terms := { s.database.terms with
            store := (f s.database.terms.store s.engine.trail).2.1 } }
          engine := { s.engine with trail := (f s.database.terms.store s.engine.trail).2.2 } } :=
  Iff.rfl

end Lifts

/-! ### Runs of activations -/

namespace Activation

variable {ctx : Context} {n : Nat} {c c' : Course} {a : Activation} {s : Workspace} {m' : Machine}
  {i : Interrupt}

/-- The instruction at the next offset is carried out. -/
theorem advance_of_fetch {m : Machine} {j : Instruction UInt16 UInt16 UInt32} {next : Nat}
    (h : m.activation.code.chunk.fetch m.activation.next = .ok (j, next)) :
    advance ctx m = perform ctx j
      ⟨m.workspace, { m.activation with current := m.activation.next, next := next }⟩ := by
  have hget {f : Machine → MachineM Course} (m : Machine) : (get >>= f) m = f m m := rfl
  rw [advance, hget]
  dsimp only
  rw [h]
  rfl

theorem yields_advance {m : Machine} {j : Instruction UInt16 UInt16 UInt32} {next : Nat}
    {Q : Course → Machine → Prop} {E : Interrupt → Machine → Prop}
    (h : m.activation.code.chunk.fetch m.activation.next = .ok (j, next)) :
    Yields (step ctx .forward) m Q E ↔ Yields (perform ctx j)
      ⟨m.workspace, { m.activation with current := m.activation.next, next := next }⟩ Q E := by
  rw [Yields, Yields, step, advance_of_fetch h]

/-- A run takes a step, and brings what it is interrupted by to a handler. -/
theorem run_succ (hc : ∀ a, c ≠ .answer a) :
    run ctx (n + 1) c a s = match step ctx c ⟨s.pass, a⟩ with
      | .ok c ⟨s, a⟩ => run ctx n c a s
      | .error i ⟨s, a⟩ =>
        match settle ctx i a s with
        | .ok a s => run ctx n .forward a s
        | .error e s => .error e s := by
  cases c with
  | answer a => exact absurd rfl (hc a)
  | forward => rfl
  | backward => rfl

/-- A run goes on where a step leads. -/
theorem run_of_ok (hc : ∀ a, c ≠ .answer a) (h : step ctx c ⟨s.pass, a⟩ = .ok c' m') :
    run ctx (n + 1) c a s = run ctx n c' m'.activation m'.workspace := by
  rw [run_succ hc, h]

/-- A run goes on where a ball is caught. -/
theorem run_of_caught (hc : ∀ a, c ≠ .answer a) (h : step ctx c ⟨s.pass, a⟩ = .error i m')
    {a' : Activation} {s' : Workspace} (h' : settle ctx i m'.activation m'.workspace = .ok a' s') :
    run ctx (n + 1) c a s = run ctx n .forward a' s' := by
  rw [run_succ hc, h]
  dsimp only
  rw [h']

/-- A run ends with a ball that is not caught. -/
theorem run_of_uncaught (hc : ∀ a, c ≠ .answer a) (h : step ctx c ⟨s.pass, a⟩ = .error i m')
    {e : Stop} {s' : Workspace} (h' : settle ctx i m'.activation m'.workspace = .error e s') :
    run ctx (n + 1) c a s = (throw e : EngineM Answer) s' := by
  rw [run_succ hc, h]
  dsimp only
  rw [h']
  rfl

end Activation

end Resolvent
