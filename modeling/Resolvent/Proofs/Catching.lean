import Resolvent.Proofs.Following

/-!
# What a handler does

A handler keeps the ball in a slot, makes an alternative, builds the catcher and unifies it with the
ball. If that succeeds, the alternative is taken away and the recovery goal is next; if it fails, the
search comes back to the alternative, and the ball is thrown again.

`Stage` says where an activation is while it does so and what it has, and there is one lemma for every
instruction of a handler. `GetsTo` says that steps lead somewhere unless a limit does not allow one of
them.
-/

namespace Resolvent

mutual

/-- The term is the tree with its variables replaced by what is in their slots. -/
inductive Tree.Instance (slots : Program.Slots) (env : Array Slot) : Tree → Term → Prop where
  | var {v : Var} {n : UInt16} {t : Term} (hn : slots[v.id]? = some n)
      (ht : env[n.toNat]? = some (.term t)) : Instance slots env (.var v) t
  | constant {t : Term} (ht : t.Ground) : Instance slots env t.erase t
  | compound {tag : Tag} {args : List Tree} {stamp : Nat} {ts : List Term}
      (h : InstanceAll slots env args ts) : Instance slots env (.compound tag args) (.compound stamp tag ts)

/-- So are all terms of a list. -/
inductive Tree.InstanceAll (slots : Program.Slots) (env : Array Slot) :
    List Tree → List Term → Prop where
  | nil : InstanceAll slots env [] []
  | cons {t : Tree} {ts : List Tree} {u : Term} {us : List Term} (h : Instance slots env t u)
      (hs : InstanceAll slots env ts us) : InstanceAll slots env (t :: ts) (u :: us)

end

theorem Tree.InstanceAll.length_eq {slots : Program.Slots} {env : Array Slot} : ∀ {ts : List Tree}
    {us : List Term}, InstanceAll slots env ts us → us.length = ts.length
  | _, _, .nil => rfl
  | _, _, .cons _ hs => by rw [List.length_cons, List.length_cons, hs.length_eq]

namespace Activation

variable {ctx : Context} {m : Machine} {ρ : Workspace} {points : List ChoicePoint} {env : Array Slot}
  {ops : List Term} {pc : Nat}

/-! ### Instructions -/

/-- Where an activation is and what it has: since a workspace nothing has been bound, these are the
choice points, the slots and the operands, and this is the place of the next instruction. -/
structure Stage (ρ : Workspace) (points : List ChoicePoint) (env : Array Slot) (ops : List Term)
    (pc : Nat) (m : Machine) : Prop where
  /-- The workspace has been reached. -/
  later : ρ.Later m.workspace
  /-- Nothing has been bound. -/
  moment : ρ.moment.Same m.workspace.moment
  /-- The choice points. -/
  points : m.workspace.points = points
  /-- The slots. -/
  slots : m.activation.slots = env
  /-- The operands, the newest last. -/
  operands : m.activation.operands.toList = ops
  /-- The next instruction. -/
  next : m.activation.next = pc

/-- A limit, or the fuel, does not allow the instruction; or it faults for another reason. -/
def Hindered (i : Interrupt) (m : Machine) : Prop :=
  i = .stop .spent ∨ m.workspace.AtLimit ∨ ∃ f, i = .fault f ∧ f ≠ .stackOverflow

theorem Hindered.of_fault {f : Fault} (hf : f ≠ .stackOverflow) : Hindered (.fault f) m :=
  .inr (.inr ⟨f, rfl, hf⟩)

namespace Stage

theorem stays {s : Workspace} (h : Stage ρ points env ops pc m) (hs : m.workspace.Stays s) :
    Stage ρ points env ops pc ⟨s, m.activation⟩ :=
  ⟨h.later.trans hs.same.toOwes, h.moment.trans hs.same.moment, hs.same.points.trans h.points, h.slots,
    h.operands, h.next⟩

theorem ready (h : Stage ρ points env ops pc m) : m.workspace.Ready :=
  h.later.ready

/-- A term is popped. -/
theorem yields_pop {t : Term} (h : Stage ρ points env (ops ++ [t]) pc m) :
    Yields pop m (fun u m' => u = t ∧ m'.workspace = m.workspace ∧ Stage ρ points env ops pc m')
      fun _ _ => False := by
  have hback : m.activation.operands.back? = some t := by
    rw [← Array.getLast?_toList, h.operands, List.getLast?_concat]
  unfold pop Yields
  simp only [hback]
  refine ⟨trivial, trivial, h.later, h.moment, h.points, h.slots, ?_, h.next⟩
  rw [Array.toList_pop, h.operands, List.dropLast_concat]

/-- A term is pushed. -/
theorem yields_push (h : Stage ρ points env ops pc m) (t : Term) :
    Yields (push t >>= fun _ => pure Course.forward) m
      (fun c m' => c = .forward ∧ Stage ρ points env (ops ++ [t]) pc m') Hindered := by
  have hpush : Yields (push t) m (fun _ m' => Stage ρ points env (ops ++ [t]) pc m') Hindered := by
    unfold push Yields
    dsimp only
    split <;> rename_i heq <;> split at heq <;> cases heq
    · exact ⟨h.later, h.moment, h.points, h.slots, by rw [Array.toList_push, h.operands], h.next⟩
    · exact .inr (.inl ⟨m.workspace.chronicle,
        (Workspace.chronicle_note _ _).trans (by rw [Ghost.value_of])⟩)
  rw [yields_bind]
  exact hpush.imp (fun _ _ h => yields_pure.mpr ⟨rfl, h⟩) fun _ _ h => h

theorem yields_pushConstant (h : Stage ρ points env ops pc m) {n : UInt16} {t : Term}
    (hn : m.activation.code.chunk.constants[n.toNat]? = some t) :
    Yields (perform ctx (.pushConstant n)) m
      (fun c m' => c = .forward ∧ Stage ρ points env (ops ++ [t]) pc m') Hindered := by
  rw [perform, yields_bind, yields_get, yields_bind, yields_orFault hn]
  exact h.yields_push t

theorem yields_pushEnvironment (h : Stage ρ points env ops pc m) (n : UInt16) :
    Yields (perform ctx (.pushEnvironment n)) m (fun c m' => c = .forward ∧
      ∃ t, env[n.toNat]? = some (.term t) ∧ Stage ρ points env (ops ++ [t]) pc m') Hindered := by
  rw [perform, yields_bind, slotTerm, yields_bind, yields_get, h.slots]
  split
  · rename_i t ht
    exact (h.yields_push t).imp (fun c m' h => ⟨h.1, t, ht, h.2⟩) fun _ _ h => h
  · exact .of_fault (by simp)
  · exact .of_fault (by simp)

theorem yields_createCompound {ts : List Term} (h : Stage ρ points env (ops ++ ts) pc m) {n : UInt16}
    {tag : Tag} (hn : m.activation.code.chunk.tags[n.toNat]? = some tag)
    (harity : m.workspace.symbols.arity tag = ts.length) :
    Yields (perform ctx (.createCompound n)) m (fun c m' => c = .forward ∧
      ∃ stamp, Stage ρ points env (ops ++ [.compound stamp tag ts]) pc m') Hindered := by
  have hsize : m.activation.operands.size = ops.length + ts.length := by
    rw [Array.size_eq_length_toList, h.operands, List.length_append]
  have hpop : Yields (popMany ts.length) m
      (fun us m' => us.toList = ts ∧ m'.workspace = m.workspace ∧ Stage ρ points env ops pc m')
      fun _ _ => False := by
    unfold popMany Yields
    dsimp only
    rw [if_pos (by omega)]
    refine ⟨?_, rfl, h.later, h.moment, h.points, h.slots, ?_, h.next⟩
    · rw [Array.toList_extract, List.extract_eq_take_drop, h.operands, hsize, Nat.add_sub_cancel,
        List.drop_left, Nat.add_sub_cancel_left, List.take_length]
    · dsimp only
      rw [Array.toList_shrink, h.operands, hsize, Nat.add_sub_cancel, List.take_left]
  rw [perform, yields_bind, Activation.tag, yields_bind, yields_get, yields_orFault hn, yields_bind,
    yields_get, yields_bind]
  rw [show m.workspace.database.terms.symbols.arity tag = ts.length from harity]
  refine hpop.imp (fun us m' hm' => ?_) fun _ _ h => h.elim
  obtain ⟨rfl, -, hm'⟩ := hm'
  rw [yields_bind, yields_onWorkspace]
  refine (Engine.yields_onTerms_of_extending hm'.ready
    (Universe.extending_compound tag us.toList)).imp (fun c s hs => ?_) fun _ _ h => h.elim
  obtain ⟨hstays, rfl, -⟩ := hs
  exact ((hm'.stays hstays).yields_push _).imp (fun c m' h => ⟨h.1, _, h.2⟩) fun _ _ h => h

theorem yields_storeEnvironment {t : Term} (h : Stage ρ points env [t] pc m) (n : UInt16) :
    Yields (perform ctx (.storeEnvironment n)) m (fun c m' => c = .forward ∧ n.toNat < env.size ∧
      Stage ρ points (env.setIfInBounds n.toNat (.term t)) [] pc m') Hindered := by
  rw [perform, yields_bind]
  refine (yields_pop (show Stage ρ points env ([] ++ [t]) pc m from h)).imp (fun u m' hm' => ?_)
    fun _ _ h => h.elim
  obtain ⟨rfl, -, hm'⟩ := hm'
  have hstore : Yields (store n (.term u)) m' (fun _ m'' => n.toNat < env.size ∧
      Stage ρ points (env.setIfInBounds n.toNat (.term u)) [] pc m'') Hindered := by
    unfold store Yields
    dsimp only
    rw [hm'.slots]
    split <;> rename_i heq <;> split at heq <;> cases heq
    · exact ⟨‹_›, hm'.later, hm'.moment, hm'.points, rfl, hm'.operands, hm'.next⟩
    · exact .of_fault (by simp)
  rw [yields_bind]
  exact hstore.imp (fun _ _ h => yields_pure.mpr ⟨rfl, h⟩) fun _ _ h => h

theorem yields_tryMeElse (h : Stage ρ points env ops pc m) (l : UInt32) :
    Yields (perform ctx (.tryMeElse l)) m (fun c m' => c = .forward ∧
      Stage ρ (points ++ [⟨ρ.mark, .alternative l.toNat⟩]) env ops pc m') Hindered := by
  rw [perform, yields_bind, place, yields_bind, yields_get]
  split
  · rw [yields_pure, yields_bind, yields_onWorkspace]
    refine ((Engine.yields_pushChoice h.ready (by simp [ChoicePoint.cleanup?])).and
      (atLimit_pushChoice _ _)).imp (fun _ s hs => ?_) fun _ _ hs => .inr (.inl hs.2)
    obtain ⟨⟨hl, hp, hm, -⟩, -⟩ := hs
    refine ⟨rfl, h.later.trans hl, h.moment.trans hm, ?_, h.slots, h.operands, h.next⟩
    rw [hp, h.points, Workspace.mark, h.moment.mark_eq]
  · exact .of_fault (by simp)

theorem yields_trustMe {p : ChoicePoint} (h : Stage ρ (points ++ [p]) env ops pc m) :
    Yields (perform ctx .trustMe) m (fun c m' => c = .forward ∧ Stage ρ points env ops pc m')
      Hindered := by
  rw [perform, yields_bind, yields_onWorkspace, Engine.yields_top?, h.points, List.getLast?_concat]
  split
  · rename_i k r heq
    cases heq
    rw [yields_bind, yields_onWorkspace]
    refine (Engine.yields_pop_later h.ready h.points rfl).imp (fun _ s hs => ?_) fun _ _ h => h.elim
    obtain ⟨hl, hp, hm, -⟩ := hs
    exact ⟨rfl, h.later.trans hl, hm ▸ h.moment, hp, h.slots, h.operands, h.next⟩
  · exact .of_fault (by simp)

/-- Two terms are unified. -/
theorem yields_unify {t u : Term} (h : Stage ρ points env [t, u] pc m)
    (hfits : ∀ t ∈ m.activation.operands, t.Fits m.workspace.symbols) :
    Yields (perform ctx .unify) m (fun c m' => ∃ b, c = (if b then .forward else .backward) ∧
      ρ.Later m'.workspace ∧ Engine.unifyInPlace ctx.fuel t u m.workspace = .ok b m'.workspace ∧
        Stage m'.workspace points env [] pc m') Hindered := by
  have hmem (v : Term) (hv : v ∈ [t, u]) : v.Fits m.workspace.symbols :=
    hfits v (Array.mem_toList_iff.mp (h.operands ▸ hv))
  have hunify := Engine.yields_unifyInPlace h.ready (hmem t (by simp)) (hmem u (by simp)) ctx.fuel
  rw [perform, yields_bind]
  refine (yields_pop (show Stage ρ points env ([t] ++ [u]) pc m from h)).imp (fun _ m₁ h₁ => ?_)
    fun _ _ h => h.elim
  obtain ⟨rfl, heq₁, h₁⟩ := h₁
  rw [yields_bind]
  refine (yields_pop (show Stage ρ points env ([] ++ [t]) pc m₁ from h₁)).imp (fun _ m₂ h₂ => ?_)
    fun _ _ h => h.elim
  obtain ⟨rfl, heq₂, h₂⟩ := h₂
  rw [yields_bind, yields_onWorkspace]
  rw [← heq₁, ← heq₂] at hunify ⊢
  rename_i t u
  cases hx : Engine.unifyInPlace ctx.fuel u t m₂.workspace with
  | ok b s =>
    obtain ⟨hl, hp, -⟩ := yields_ok hunify hx
    rw [Yields, hx]
    refine ⟨b, ?_, h₂.later.trans hl, rfl, hl.ready.later, .refl hl.ready.recording, hp.trans h₂.points,
      h₂.slots, h₂.operands, h₂.next⟩
    cases b <;> rfl
  | error e s =>
    obtain ⟨rfl, -⟩ := yields_error hunify hx
    rw [Yields, hx]
    exact .inl rfl

end Stage

/-- The search comes back to an alternative, and what has been bound since it was made is undone. -/
theorem yields_backtrack {n : Nat} (hl : ρ.Later m.workspace)
    (hp : m.workspace.points = points ++ [⟨ρ.mark, .alternative n⟩]) :
    Yields (backtrack ctx) m (fun c m' => c = .forward ∧
      Stage ρ (points ++ [⟨ρ.mark, .alternative n⟩]) m.activation.slots [] n m') Hindered := by
  have hmarks : ∀ p ∈ m.workspace.points, p.mark ≤ ρ.mark := by
    have hsorted := hl.ready.made.sorted
    rw [hp, List.pairwise_append] at hsorted
    rw [hp]
    intro p hmem
    obtain hmem | hmem := List.mem_append.mp hmem
    · exact hsorted.2.2 p hmem _ (List.mem_singleton_self _)
    · obtain rfl := List.mem_singleton.mp hmem
      exact Nat.le_refl _
  rw [backtrack, yields_bind, yields_onWorkspace, Engine.yields_height, yields_bind, yields_get]
  split
  · exact .of_fault (by simp)
  dsimp only
  rw [yields_bind, yields_onWorkspace, Engine.yields_top?, hp, List.getLast?_concat]
  dsimp only
  rw [yields_bind, yields_onWorkspace]
  refine (Engine.yields_undoTo hl hmarks).imp (fun _ s hs => ?_) fun _ _ h => h.elim
  obtain ⟨hl', hm, hp', -⟩ := hs
  exact ⟨rfl, hl', hm, hp'.trans hp, rfl, rfl, rfl⟩

/-! ### Steps -/

/-- Steps lead to where the property holds, unless a limit or the fuel does not allow one of them. -/
inductive GetsTo (ctx : Context) (P : Trace → Course → Machine → Prop) :
    Trace → Course → Machine → Prop where
  /-- The property holds here. -/
  | here {τ : Trace} {c : Course} {m : Machine} (h : P τ c m) : GetsTo ctx P τ c m
  /-- A step is taken. -/
  | step {τ : Trace} {c c' : Course} {m m' : Machine} (hc : ∀ a, c ≠ .answer a)
      (hx : step ctx c m.pass = .ok c' m') (h : GetsTo ctx P (τ.step c m.pass) c' m') :
      GetsTo ctx P τ c m
  /-- A step is not allowed. -/
  | limited {τ : Trace} {c : Course} {m m' : Machine} {i : Interrupt} (hc : ∀ a, c ≠ .answer a)
      (hx : step ctx c m.pass = .error i m') (h : i = .stop .spent ∨ m'.workspace.AtLimit) :
      GetsTo ctx P τ c m

/-- An activation goes on forward where these guards are open, in a machine with the property; and these
were open when the choice stack had the height, if it is higher now. -/
structure Poised (B : Call) (d height : Nat) (path : List Guard) (R : Machine → Prop) (τ : Trace)
    (m : Machine) : Prop where
  /-- It goes on. -/
  goes : Goes B d τ .forward m
  /-- The open guards. -/
  opened : τ.path = path
  /-- Those that were open. -/
  memory : height < m.workspace.points.length → τ.memory height = path
  /-- The property. -/
  holds : R m

section Steps

variable {ctx' : Context} {B : Call} {d height : Nat} {path : List Guard} {R R' : Machine → Prop}
  {τ : Trace} {P : Trace → Course → Machine → Prop} {hd : Option Chunk.Handler} {next : Nat}

theorem Poised.has (h : Poised B d height path R τ m) (hr : R' m) : Poised B d height path R' τ m :=
  ⟨h.goes, h.opened, h.memory, hr⟩

/-- The guards stay open in an instruction that they all cover, unless it saves a barrier. -/
theorem Poised.opened_step {i : Instruction Term Tag Nat} (h : Poised B d height path R τ m)
    (hi : B.code.chunk.Stands hd m.activation.next i next)
    (hcovers : ∀ g ∈ path, g.handler.covers m.activation.next) (hsave : ∀ n, i ≠ .saveCut n) :
    (τ.step .forward m.pass).path = path ∧ (τ.step .forward m.pass).memory height = path := by
  obtain ⟨_, _, _, _, hlive, -⟩ := h.goes
  have hpath : τ.inForce m.activation.next = path := by
    rw [Trace.inForce, h.opened, List.filter_eq_self]
    exact hcovers
  refine ⟨?_, ?_⟩
  · show ((m.activation.code.chunk.entered? m.activation.next).toList.map _) ++ τ.inForce _ = path
    rw [hlive.code, hi.entered?_eq_none hsave]
    exact hpath
  · show (if height < m.workspace.points.length then τ.memory height else τ.inForce _) = path
    split
    · exact h.memory ‹_›
    · exact hpath

/-- A step is taken. -/
theorem GetsTo.of_yields (hctx : ctx.Disciplined ctx') {c : Course} (h : Goes B d τ c m)
    (hc : ∀ a, c ≠ .answer a) {Q : Course → Machine → Prop}
    (hy : Yields (Activation.step ctx c) m.pass Q Hindered)
    (k : ∀ c' m', Q c' m' → Goes B d (τ.step c m.pass) c' m' →
      GetsTo ctx P (τ.step c m.pass) c' m') : GetsTo ctx P τ c m := by
  have hstep := (agree_step hctx (h.stays hc h.later.ready.stays_pass) hc).yields
  cases hx : Activation.step ctx c m.pass with
  | ok c' m' => exact .step hc hx (k c' m' (yields_ok hy hx) (yields_ok hstep hx))
  | error e m' =>
    obtain hspent | hlimit | ⟨f, rfl, hf⟩ := yields_error hy hx
    · exact .limited hc hx (.inl hspent)
    · exact .limited hc hx (.inr hlimit)
    · have hbreaks := yields_error hstep hx
      exact absurd hbreaks.1 hf

/-- The next step is to carry out an instruction. -/
theorem Poised.yields_step {i : Instruction Term Tag Nat}
    (h : Poised B d height path (Stage ρ points env ops pc) τ m) (hi : B.code.chunk.Stands hd pc i next)
    {Q : Course → Machine → Prop} {E : Interrupt → Machine → Prop}
    (hy : ∀ j m', B.code.chunk.Packs (fun o a => a.toNat = o) i j → m'.activation.code = B.code →
      B.origin.symbols.Extends m'.workspace.symbols →
      (∀ t ∈ m'.activation.operands, t.Fits m'.workspace.symbols) →
      Stage ρ points env ops next m' → Yields (perform ctx j) m' Q E) :
    Yields (Activation.step ctx .forward) m.pass Q E := by
  obtain rfl := h.holds.next
  have hstays := h.goes.later.ready.stays_pass
  have hstage := h.holds.stays hstays
  obtain ⟨_, _, _, _, hlive, -⟩ := h.goes.stays (by simp) hstays
  obtain ⟨j, hj, hpacks⟩ := hi.fetch
  have hcode : m.activation.code = B.code := hlive.code
  refine (yields_advance (m := m.pass) (hcode ▸ hj)).mpr ?_
  exact hy j _ hpacks hcode hlive.origin.symbols hlive.operands
    ⟨hstage.later, hstage.moment, hstage.points, hstage.slots, hstage.operands, rfl⟩

/-- An instruction is carried out. -/
theorem Poised.performs (hctx : ctx.Disciplined ctx') {i : Instruction Term Tag Nat}
    (h : Poised B d height path (Stage ρ points env ops pc) τ m) (hi : B.code.chunk.Stands hd pc i next)
    (hcovers : ∀ g ∈ path, g.handler.covers pc) (hsave : ∀ n, i ≠ .saveCut n)
    {Q : Course → Machine → Prop}
    (hy : ∀ j m', B.code.chunk.Packs (fun o a => a.toNat = o) i j → m'.activation.code = B.code →
      B.origin.symbols.Extends m'.workspace.symbols →
      (∀ t ∈ m'.activation.operands, t.Fits m'.workspace.symbols) →
      Stage ρ points env ops next m' → Yields (perform ctx j) m' Q Hindered)
    (k : ∀ τ' c m', Q c m' → Goes B d τ' c m' → τ'.path = path → τ'.memory height = path →
      GetsTo ctx P τ' c m') : GetsTo ctx P τ .forward m := by
  obtain ⟨hpath, hmemory⟩ := h.opened_step (h.holds.next ▸ hi) (h.holds.next ▸ hcovers) hsave
  exact .of_yields hctx h.goes (by simp) (h.yields_step hi hy)
    fun c' m' hq hgoes => k _ c' m' hq hgoes hpath hmemory

/-- An instruction is carried out, and the activation goes on behind it. -/
theorem Poised.getsTo (hctx : ctx.Disciplined ctx') {i : Instruction Term Tag Nat}
    (h : Poised B d height path (Stage ρ points env ops pc) τ m) (hi : B.code.chunk.Stands hd pc i next)
    (hcovers : ∀ g ∈ path, g.handler.covers pc) (hsave : ∀ n, i ≠ .saveCut n)
    (hy : ∀ j m', B.code.chunk.Packs (fun o a => a.toNat = o) i j → m'.activation.code = B.code →
      B.origin.symbols.Extends m'.workspace.symbols → Stage ρ points env ops next m' →
      Yields (perform ctx j) m' (fun c m'' => c = .forward ∧ R m'') Hindered)
    (k : ∀ τ' m', Poised B d height path R τ' m' → GetsTo ctx P τ' .forward m') :
    GetsTo ctx P τ .forward m := by
  refine h.performs hctx hi hcovers hsave (fun j m' hj hcode hext _ hm => hy j m' hj hcode hext hm) ?_
  rintro τ' _ m' ⟨rfl, hr⟩ hgoes hpath hmemory
  exact k τ' m' ⟨hgoes, hpath, fun _ => hmemory, hr⟩

variable {slots : Program.Slots} {env' : Array Slot}

mutual

/-- The code of a tree pushes an instance of it. -/
theorem Poised.builds (hctx : ctx.Disciplined ctx')
    (hv : ∀ (v : Var) n, slots[v.id]? = some n → env[n.toNat]? = env'[n.toNat]?) :
    ∀ {t : Tree} {pc next : Nat} {ops : List Term}
    {τ : Trace} {m : Machine}, B.code.chunk.Builds slots hd t pc next →
    Poised B d height path (Stage ρ points env ops pc) τ m →
    (∀ o, pc ≤ o → o < next → ∀ g ∈ path, g.handler.covers o) → next ≤ 0x100000000 →
    t.Fits B.origin.symbols →
    (∀ u τ' m', t.Instance slots env' u →
      Poised B d height path (Stage ρ points env (ops ++ [u]) next) τ' m' →
        GetsTo ctx P τ' .forward m') → GetsTo ctx P τ .forward m
  | _, pc, next, ops, τ, m, .var (n := n) hn hi, h, hcovers, _, _, k => by
    refine h.getsTo hctx (R := fun m => ∃ t, env[n.toNat]? = some (.term t) ∧
      Stage ρ points env (ops ++ [t]) next m) hi (hcovers _ (Nat.le_refl _) hi.lt) (by simp)
      (fun j m' hj _ _ hm => ?_) fun τ' m' h' => ?_
    · cases hj with | pushEnvironment => exact hm.yields_pushEnvironment _
    · obtain ⟨t, ht, hstage⟩ := h'.holds
      exact k t τ' m' (.var hn (hv _ _ hn ▸ ht)) (h'.has hstage)
  | _, pc, next, ops, τ, m, .constant ht hi, h, hcovers, _, _, k => by
    refine h.getsTo hctx hi (hcovers _ (Nat.le_refl _) hi.lt) (by simp) (fun j m' hj hcode _ hm => ?_)
      fun τ' m' h' => k _ τ' m' (.constant ht) h'
    cases hj with | pushConstant hn => exact hm.yields_pushConstant (hcode ▸ hn)
  | .compound tag _, pc, next, ops, τ, m, .compound hargs hi, h, hcovers, hbound, ht, k => by
    have hle := hargs.le
    cases ht with | compound harity hfits =>
    refine Poised.buildsAll hctx hv hargs h (fun o hlo hhi => hcovers o hlo (Nat.lt_trans hhi hi.lt))
      (Nat.le_trans (Nat.le_of_lt hi.lt) hbound) hfits fun us τ' m' hus h' => ?_
    refine h'.getsTo hctx (R := fun m => ∃ stamp, Stage ρ points env (ops ++ [.compound stamp tag us]) next m)
      hi (hcovers _ hle hi.lt) (by simp) (fun j m' hj hcode hext hm => ?_) fun τ'' m'' h'' => ?_
    · cases hj with
      | createCompound hn =>
        refine hm.yields_createCompound (hcode ▸ hn) ?_
        have hlength := hargs.length_le
        have hlt := hi.lt
        rw [(harity.mono hext).arity_eq, hus.length_eq]
        exact Nat.mod_eq_of_lt (by omega)
    · obtain ⟨stamp, hstage⟩ := h''.holds
      exact k _ τ'' m'' (.compound hus) (h''.has hstage)

/-- The code of trees pushes instances of them. -/
theorem Poised.buildsAll (hctx : ctx.Disciplined ctx')
    (hv : ∀ (v : Var) n, slots[v.id]? = some n → env[n.toNat]? = env'[n.toNat]?) :
    ∀ {ts : List Tree} {pc next : Nat}
    {ops : List Term} {τ : Trace} {m : Machine}, B.code.chunk.BuildsAll slots hd ts pc next →
    Poised B d height path (Stage ρ points env ops pc) τ m →
    (∀ o, pc ≤ o → o < next → ∀ g ∈ path, g.handler.covers o) → next ≤ 0x100000000 →
    (∀ t ∈ ts, t.Fits B.origin.symbols) →
    (∀ us τ' m', Tree.InstanceAll slots env' ts us →
      Poised B d height path (Stage ρ points env (ops ++ us) next) τ' m' →
        GetsTo ctx P τ' .forward m') → GetsTo ctx P τ .forward m
  | _, pc, _, ops, τ, m, .nil, h, _, _, _, k => k [] τ m .nil (by rw [List.append_nil]; exact h)
  | _, pc, next, ops, τ, m, .cons ht hts, h, hcovers, hbound, hfits, k => by
    rw [List.forall_mem_cons] at hfits
    refine Poised.builds hctx hv ht h (fun o hlo hhi => hcovers o hlo (Nat.lt_of_lt_of_le hhi hts.le))
      (Nat.le_trans hts.le hbound) hfits.1 fun u τ' m' hu h' => ?_
    refine Poised.buildsAll hctx hv hts h'
      (fun o hlo hhi => hcovers o (Nat.le_trans (Nat.le_of_lt ht.lt) hlo) hhi) hbound hfits.2
      fun us τ'' m'' hus h'' => ?_
    refine k (u :: us) τ'' m'' (.cons hu hus) ?_
    rw [List.append_assoc] at h''
    exact h''

end

end Steps

/-! ### The catcher -/

/-- The catcher, with what is in the slots in the place of its variables, has been unified with the
ball, in a workspace that had the bindings of another one. -/
def Unified (fuel : Nat) (slots : Program.Slots) (env : Array Slot) (catcher : Tree) (ball : Term)
    (ρ : Workspace) (b : Bool) (s : Workspace) : Prop :=
  ∃ u r, catcher.Instance slots env u ∧ ρ.moment.Same r.moment ∧ Engine.unifyInPlace fuel u ball r = .ok b s

/-- What becomes of a ball that has been brought to a handler, in a workspace and where the guards
around the goal are open. -/
inductive Tried (ctx : Context) (slots : Program.Slots) (env : Array Slot) (catcher : Tree) (ball : Term)
    (ρ : Workspace) (path : List Guard) (recovery : Nat) : Trace → Course → Machine → Prop where
  /-- The catcher unifies with it. Nothing else has been bound, the choice points are those of the
  workspace, and the recovery goal is next. -/
  | accepted {τ : Trace} {m : Machine} {s : Workspace} (hu : Unified ctx.fuel slots env catcher ball ρ true s)
      (hm : s.moment.Same m.workspace.moment) (hp : m.workspace.points = ρ.points)
      (hn : m.activation.next = recovery) (hpath : τ.path = path) :
      Tried ctx slots env catcher ball ρ path recovery τ .forward m
  /-- The catcher does not unify with it. It is thrown again at the next step, with the bindings and the
  choice points of the workspace. -/
  | refused {τ : Trace} {m m' : Machine} {s : Workspace} {y : Exception}
      (hu : Unified ctx.fuel slots env catcher ball ρ false s)
      (hx : step ctx .forward m.pass = .error (.stop (.thrown y)) m')
      (hy : ball.erase.Variant y.ball.erase) (hs : ρ.Same m'.workspace)
      (hpath : (τ.step .forward m.pass).path = path) :
      Tried ctx slots env catcher ball ρ path recovery τ .forward m

/-- A ball that is thrown again is a variant of what it was. -/
theorem variant_of_thrownAs {x y : Exception} {u : Universe} (hx : x.Sealed u) (h : x.ball.ThrownAs u y) :
    x.ball.erase.Variant y.ball.erase := by
  have hderef := u.store.deref_of_nonvar hx.nonvar
  rw [Term.ThrownAs, hderef] at h
  split at h
  · rename_i v hv
    exact absurd hv (hx.nonvar v)
  · exact hx.resolve_eq ▸ h

section Catcher

variable {ctx' : Context} {B : Call} {d : Nat} {path : List Guard} {τ : Trace} {hd : Option Chunk.Handler}
  {k : Chunk.Handler} {x y : List Goal} {catcher : Tree} {slots : Program.Slots} {e : Exception}
  {P : Trace → Course → Machine → Prop}

theorem Stage.same (h : Stage ρ ρ.points env ops pc m) : ρ.Same m.workspace :=
  ⟨h.later, h.moment, h.points⟩

theorem Stage.sealed (h : Stage ρ points env ops pc m) (he : e.Sealed ρ.database.terms) :
    e.Sealed m.workspace.database.terms :=
  he.mono h.later.symbols fun v hv => (h.moment.value v).trans hv

/-- The code behind a handler that has not accepted a ball throws it again. -/
theorem Poised.rethrows {ball : UInt16} {pc₁ pc₂ pc₃ : Nat} {p : ChoicePoint} (hctx : ctx.Disciplined ctx')
    (hcovers : ∀ o, pc ≤ o → o < pc₃ → ∀ g ∈ path, g.handler.covers o)
    (htrust : B.code.chunk.Stands hd pc .trustMe pc₁)
    (hpush : B.code.chunk.Stands hd pc₁ (.pushEnvironment ball) pc₂)
    (hraise : B.code.chunk.Stands hd pc₂ .raise pc₃)
    (hball : env[ball.toNat]? = some (.term e.ball)) (he : e.Sealed ρ.database.terms)
    (h : Poised B d ρ.points.length path (Stage ρ (ρ.points ++ [p]) env [] pc) τ m)
    (k : ∀ τ m m' y, step ctx .forward m.pass = .error (.stop (.thrown y)) m' →
      e.ball.erase.Variant y.ball.erase → ρ.Same m'.workspace → (τ.step .forward m.pass).path = path →
      P τ .forward m) : GetsTo ctx P τ .forward m := by
  have hlt := htrust.lt
  have hlt₁ := hpush.lt
  have hlt₂ := hraise.lt
  refine h.getsTo hctx (R := Stage ρ ρ.points env [] pc₁) htrust (hcovers _ (by omega) (by omega)) (by simp)
    (fun j m' hj _ _ hm => ?_) fun τ m h => ?_
  · cases hj
    exact hm.yields_trustMe
  refine h.getsTo hctx (R := fun m => ∃ t, env[ball.toNat]? = some (.term t) ∧
    Stage ρ ρ.points env [t] pc₂ m) hpush (hcovers _ (by omega) (by omega)) (by simp)
    (fun j m' hj _ _ hm => ?_) fun τ m h => ?_
  · cases hj
    exact hm.yields_pushEnvironment ball
  obtain ⟨t, ht, hstage⟩ := h.holds
  obtain rfl := Slot.term.inj (Option.some.inj (ht.symm.trans hball))
  have h := h.has hstage
  have hthrows : Yields (step ctx .forward) m.pass (fun _ _ => False) fun i m' =>
      ∃ y, i = .stop (.thrown y) ∧ e.ball.erase.Variant y.ball.erase ∧ ρ.Same m'.workspace := by
    refine h.yields_step hraise fun j m' hj _ _ hops hm => ?_
    cases hj
    have hback : m'.activation.operands.back? = some e.ball := by
      rw [← Array.getLast?_toList, hm.operands]
      rfl
    refine (yields_raise hm.ready (hops _ (Array.mem_of_back? hback)) hback).imp (fun _ _ h => h)
      fun i m'' hi => ?_
    obtain ⟨y, rfl, hy, hstays⟩ := hi
    exact ⟨y, rfl, variant_of_thrownAs (hm.sealed he) hy, hm.same.trans hstays.same⟩
  cases hx : step ctx .forward m.pass with
  | ok c m' => exact (yields_ok hthrows hx).elim
  | error i m' =>
    obtain ⟨y, rfl, hy, hs⟩ := yields_error hthrows hx
    have hpath := (h.opened_step (h.holds.next ▸ hraise) (h.holds.next ▸ hcovers _ (by omega) (by omega))
      (by simp)).1
    exact .here (k τ m m' y hx hy hs hpath)

/-- A handler unifies its catcher with the ball, and goes on with the recovery goal or throws the ball
again. -/
theorem Poised.tries {n n' pc' : Nat} (hctx : ctx.Disciplined ctx')
    (hk : B.code.chunk.Guards slots hd k x catcher y pc n pc' n')
    (hbehind : ∀ (i : Nat) s, slots[i]? = some s → n < s.toNat) (hfits : catcher.Fits B.origin.symbols)
    (hcovers : ∀ o, pc ≤ o → o < pc' → ∀ g ∈ path, g.handler.covers o)
    (he : e.Sealed ρ.database.terms)
    (h : Poised B d ρ.points.length path (Stage ρ ρ.points env [e.ball] k.target.toNat) τ m) :
    ∃ q n₁ q', Body.Stands B.code.chunk slots hd k.slot y q n₁ q' n' ∧
      GetsTo ctx (Tried ctx slots env catcher e.ball ρ path q) τ .forward m := by
  obtain ⟨ball, pc₁, pc₂, pc₃, pc₄, pc₅, pc₆, pc₇, pc₈, pc₉, pc₁₀, pc₁₁, pc₁₂, pc₁₃, n₁, hball, -, -, -,
    rfl, hsave, hbody, hjump, hstore, htry, hcatcher, hpush, hunify, htrust, hrecovery, hjump', htrust',
    hpush', hraise⟩ := hk
  refine ⟨pc₉, n₁, pc₁₀, hrecovery, ?_⟩
  have hlt := hsave.lt
  have hle₁ := hbody.bounds.1
  have hlt₂ := hjump.lt
  have hlt₃ := hstore.lt
  have hlt₄ := htry.lt
  have hlt₅ := hcatcher.lt
  have hlt₆ := hpush.lt
  have hlt₇ := hunify.lt
  have hlt₈ := htrust.lt
  have hle₉ := hrecovery.bounds.1
  have hlt₁₀ := hjump'.lt
  have hlt₁₁ := htrust'.lt
  have hlt₁₂ := hpush'.lt
  have hlt₁₃ := hraise.lt
  have hbound : pc₁₁ < 0x100000000 := by
    obtain ⟨j, -, hj⟩ := htry.fetch
    cases hj with | tryMeElse hl => exact hl ▸ UInt32.toNat_lt _
  -- the ball is stored, and an alternative is made for the case that the catcher does not unify with it
  refine h.getsTo hctx (R := fun m => ball.toNat < env.size ∧
    Stage ρ ρ.points (env.setIfInBounds ball.toNat (.term e.ball)) [] pc₄ m) hstore
    (hcovers _ (by omega) (by omega)) (by simp) (fun j m' hj _ _ hm => ?_) fun τ m h => ?_
  · cases hj
    exact hm.yields_storeEnvironment ball
  obtain ⟨hsize, hstage⟩ := h.holds
  have h := h.has hstage
  clear hstage
  generalize henv : env.setIfInBounds ball.toNat (.term e.ball) = env' at h
  have hget : env'[ball.toNat]? = some (.term e.ball) := by
    rw [← henv, Array.getElem?_setIfInBounds_self_of_lt hsize]
  have hvars (v : Var) (s : UInt16) (hs : slots[v.id]? = some s) : env'[s.toNat]? = env[s.toNat]? := by
    have hlt := hbehind _ _ hs
    rw [← henv, Array.getElem?_setIfInBounds_ne (by omega)]
  refine h.getsTo hctx (R := Stage ρ (ρ.points ++ [⟨ρ.mark, .alternative pc₁₁⟩]) env' [] pc₅) htry
    (hcovers _ (by omega) (by omega)) (by simp) (fun j m' hj _ _ hm => ?_) fun τ m h => ?_
  · cases hj with | tryMeElse hl => exact hl ▸ hm.yields_tryMeElse _
  -- the catcher and the ball are unified
  refine h.builds hctx hvars hcatcher (fun o _ _ => hcovers o (by omega) (by omega)) (by omega) hfits
    fun u τ m hu h => ?_
  refine h.getsTo hctx (R := fun m => ∃ t, env'[ball.toNat]? = some (.term t) ∧
    Stage ρ (ρ.points ++ [⟨ρ.mark, .alternative pc₁₁⟩]) env' [u, t] pc₇ m) hpush
    (hcovers _ (by omega) (by omega)) (by simp) (fun j m' hj _ _ hm => ?_) fun τ m h => ?_
  · cases hj
    exact hm.yields_pushEnvironment ball
  obtain ⟨t, ht, hstage⟩ := h.holds
  obtain rfl := Slot.term.inj (Option.some.inj (ht.symm.trans hget))
  refine (h.has hstage).performs hctx (Q := fun c m => ∃ b, c = (if b then .forward else .backward) ∧
    ρ.Later m.workspace ∧ Unified ctx.fuel slots env catcher e.ball ρ b m.workspace ∧
      Stage m.workspace (ρ.points ++ [⟨ρ.mark, .alternative pc₁₁⟩]) env' [] pc₈ m) hunify
    (hcovers _ (by omega) (by omega)) (by simp) (fun j m' hj _ _ hops hm => ?_) ?_
  · cases hj
    refine (hm.yields_unify hops).imp (fun c m'' hm' => ?_) fun _ _ h => h
    obtain ⟨b, hc, hl, hx, hstage⟩ := hm'
    exact ⟨b, hc, hl, ⟨u, m'.workspace, hu, hm.moment, hx⟩, hstage⟩
  rintro τ c m ⟨b, rfl, hl, hu, hstage⟩ hgoes hpath hmemory
  cases b with
  | true =>
    have h : Poised B d ρ.points.length path (Stage m.workspace (ρ.points ++ [⟨ρ.mark, .alternative pc₁₁⟩])
      env' [] pc₈) τ m := ⟨hgoes, hpath, fun _ => hmemory, hstage⟩
    refine h.getsTo hctx (R := Stage m.workspace ρ.points env' [] pc₉) htrust
      (hcovers _ (by omega) (by omega)) (by simp) (fun j m' hj _ _ hm => ?_) fun τ m h => ?_
    · cases hj
      exact hm.yields_trustMe
    · exact .here (.accepted hu h.holds.moment h.holds.points h.holds.next h.opened)
  | false =>
    have hlength : m.workspace.points.length - 1 = ρ.points.length := by
      rw [hstage.points, List.length_append, List.length_singleton, Nat.add_sub_cancel]
    have hstays := hl.ready.stays_pass
    refine .of_yields hctx hgoes (by simp) (yields_backtrack (hl.trans hstays.same.toOwes)
      (hstays.same.points.trans hstage.points)) ?_
    rintro _ m' ⟨rfl, hm'⟩ hgoes'
    have h : Poised B d ρ.points.length path (Stage ρ (ρ.points ++ [⟨ρ.mark, .alternative pc₁₁⟩])
        env' [] pc₁₁) (τ.step .backward m.pass) m' := by
      refine ⟨hgoes', ?_, fun _ => ?_, hstage.slots ▸ hm'⟩
      · exact (congrArg τ.memory hlength).trans hmemory
      · show (if _ then _ else _) = path
        split
        · exact hmemory
        · exact (congrArg τ.memory hlength).trans hmemory
    exact h.rethrows hctx (fun o _ _ => hcovers o (by omega) (by omega)) htrust' hpush' hraise hget he
      fun τ m m' y hx hy hs hpath => .refused hu hx hy hs hpath

/-- The code of the goal of the innermost guard is covered, as a whole, by the other guards. -/
theorem Guarded.guards {T : Tree → Prop} {g : Guard} (h : Guarded B d τ m)
    (hcatches : ∀ j, j < B.code.chunk.handlers.size → B.code.chunk.Catches slots T j)
    (hpath : τ.path = g :: path) :
    ∃ hd x catcher y pc n pc' n', T catcher ∧
      B.code.chunk.Guards slots hd g.handler x catcher y pc n pc' n' ∧
      (∀ (i : Nat) s, slots[i]? = some s → n < s.toNat) ∧
      ∀ o, pc ≤ o → o < pc' → ∀ g' ∈ path, g'.handler.covers o := by
  have hframe := h.frame
  have hcovers := h.covers
  rw [hpath] at hframe hcovers
  cases hfind : B.code.chunk.handlerFor? m.activation.current with
  | none =>
    rw [hfind] at hframe
    cases hframe
  | some k =>
    rw [hfind] at hframe
    obtain ⟨Γ, bs, t, hm, -, -, -, hhead⟩ := hframe
    obtain rfl : g.handler = k := by
      rw [Frame.handlers, ← hm.marks.handlers, List.map_cons, List.head?_cons] at hhead
      exact Option.some.inj hhead
    obtain ⟨hmem, hnodup⟩ := hm.marks.path_nodup
    rw [List.map_cons, List.nodup_cons] at hnodup
    rw [Chunk.handlerFor?, ← Array.find?_toList, List.find?_eq_some_iff_append] at hfind
    obtain ⟨hcovered, before, behind, hsplit, hbefore⟩ := hfind
    have hsize := congrArg List.length hsplit
    rw [Array.length_toList, List.length_append, List.length_cons] at hsize
    obtain ⟨k, hd, x, catcher, y, pc, n, pc', n', hk, hT, hguards, hbehind, hstart, hstop, huniform⟩ :=
      hcatches before.length (by omega)
    rw [hsplit, List.getElem?_append_right (Nat.le_refl _), Nat.sub_self, List.getElem?_cons_zero] at hk
    obtain rfl := Option.some.inj hk
    refine ⟨hd, x, catcher, y, pc, n, pc', n', hT, hguards, hbehind, fun o hlo hhi g' hg' => ?_⟩
    -- the other guard covers the instruction, so its handler is behind the innermost one
    have hcovers' := hcovers g' (List.mem_cons_of_mem _ hg')
    have hbehind' : g'.handler ∈ B.code.chunk.handlers.toList.drop (before.length + 1) := by
      have hmem' := Array.mem_toList_iff.mpr (hmem g' (List.mem_cons_of_mem _ hg'))
      rw [hsplit] at hmem' ⊢
      rw [List.drop_append, List.drop_eq_nil_of_le (Nat.le_succ _), List.nil_append, Nat.add_sub_cancel_left,
        List.drop_succ_cons, List.drop_zero]
      obtain hmem' | hmem' := List.mem_append.mp hmem'
      · have hnot := hbefore _ hmem'
        rw [hcovers'] at hnot
        cases hnot
      · obtain heq | hmem' := List.mem_cons.mp hmem'
        · exact absurd (heq ▸ List.mem_map_of_mem hg') hnodup.1
        · exact hmem'
    simp only [Chunk.Handler.covers, Bool.and_eq_true, decide_eq_true_eq] at hcovered
    obtain hall | hnone := huniform g'.handler hbehind'
    · exact hall o hlo hhi
    · exact absurd hcovers' (hnone _ (Nat.le_trans hstart hcovered.1) (Nat.lt_of_lt_of_le hcovered.2 hstop))

end Catcher

end Activation

end Resolvent
