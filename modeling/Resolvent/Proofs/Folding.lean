import Resolvent.Proofs.Pieces
import Resolvent.Proofs.Sharing
import Resolvent.Proofs.Straightline

/-!
# Constants in the code of terms

The code of a term pushes its largest parts without variables as constants (`Tree.groundParts`), and it
pushes one term in the end: the tree with its variables replaced by what is in their slots then
(`Program.Emit.build_folds`).

`Activation.Pushed` says that terms have been pushed and that nothing else has happened. While the code of
a tree is carried out, `Tree.peak` operands are on the stack at once; where there is no room for as many
the activation faults (`Activation.Pushed.folds`).
-/

namespace Resolvent

/-! ### Trees without variables -/

namespace Tree

mutual

/-- The largest parts of the tree without variables, from left to right. -/
def groundParts : Tree → List Tree
  | .var _ => []
  | .const c => [.const c]
  | .compound tag args => if allGround args then [.compound tag args] else groundPartsAll args

/-- The largest parts of the trees without variables, from left to right. -/
def groundPartsAll : List Tree → List Tree
  | [] => []
  | t :: ts => groundParts t ++ groundPartsAll ts

end

mutual

/-- How many operands the code of the tree has on the stack at once. -/
def peak : Tree → Nat
  | .var _ | .const _ => 1
  | .compound _ args => if allGround args then 1 else peakAll args

/-- How many operands the code of the trees has on the stack at once. -/
def peakAll : List Tree → Nat
  | [] => 0
  | t :: ts => max (peak t) (peakAll ts + 1)

end

mutual

theorem isGround_iff : ∀ {t : Tree}, t.isGround ↔ ∀ v, .var v ∉ t.nodes
  | .var v => by simp [isGround, nodes]
  | .const c => by simp [isGround, nodes]
  | .compound tag args => by simp [isGround, nodes, allGround_iff]

theorem allGround_iff : ∀ {ts : List Tree}, allGround ts ↔ ∀ v, .var v ∉ nodesAll ts
  | [] => by simp [allGround, nodesAll]
  | t :: ts => by simp [allGround, nodesAll, isGround_iff, allGround_iff, forall_and]

end

theorem groundParts_of_isGround {t : Tree} (h : t.isGround) : t.groundParts = [t] := by
  cases t with
  | var v => cases h
  | const c => rfl
  | compound tag args => exact if_pos h

theorem peak_of_isGround {t : Tree} (h : t.isGround) : t.peak = 1 := by
  cases t with
  | var v => cases h
  | const c => rfl
  | compound tag args => exact if_pos h

theorem peak_compound {tag : Tag} {args : List Tree} (h : allGround args = false) :
    (compound tag args).peak = peakAll args := by
  rw [peak, h]
  rfl

/-- There is an argument on the stack when the functor is applied, unless there is none. -/
theorem peakAll_pos {ts : List Tree} (h : allGround ts = false) : 0 < peakAll ts := by
  cases ts with
  | nil => cases h
  | cons t ts => rw [peakAll]; omega

end Tree

theorem Store.mem_vars {σ : Store} {t : Term} {v : Var} : v ∈ σ.vars t ↔ .var v ∈ (σ.resolve t).nodes := by
  rw [resolve_eq_treeWithin, vars, postorder_eq]
  refine ⟨fun h => ?_, fun h => Var.mem_distinct (List.mem_filterMap.mpr ⟨.var v, h, rfl⟩)⟩
  obtain ⟨x, hx, hv⟩ := List.mem_filterMap.mp (Var.mem_of_mem_distinct h)
  cases x with
  | var w =>
    obtain rfl := Option.some.inj hv
    exact hx
  | const c => cases hv
  | functor tag arity => cases hv

/-- A term has no variables just if the tree that it denotes has none. -/
theorem Store.vars_eq_nil_iff {σ : Store} {t : Term} : σ.vars t = [] ↔ (σ.resolve t).isGround := by
  rw [Tree.isGround_iff, List.eq_nil_iff_forall_not_mem]
  exact forall_congr' fun v => not_congr mem_vars

/-! ### The constants of a tree -/

namespace Program.Emit

variable {slots : Slots}

mutual

/-- The constants are the largest parts without variables. -/
theorem Folds.parts : ∀ {t : Tree} {ls : List Line}, Folds slots t ls →
    (∀ c ∈ ls.filterMap pushedConstant?, c.Ground) ∧
      Term.eraseAll (ls.filterMap pushedConstant?) = t.groundParts
  | _, _, .var _ => ⟨by simp [pushedConstant?], rfl⟩
  | _, _, .constant hc => by
    rw [Tree.groundParts_of_isGround hc.isGround_erase]
    exact ⟨fun c h => by obtain rfl := List.mem_singleton.mp h; exact hc, rfl⟩
  | .compound tag args, _, .compound hargs h => by
    rw [List.filterMap_append, show [Line.instruction (.createCompound tag)].filterMap pushedConstant? = []
      from rfl, List.append_nil, Tree.groundParts, hargs]
    exact h.parts

theorem FoldsAll.parts : ∀ {ts : List Tree} {ls : List Line}, FoldsAll slots ts ls →
    (∀ c ∈ ls.filterMap pushedConstant?, c.Ground) ∧
      Term.eraseAll (ls.filterMap pushedConstant?) = Tree.groundPartsAll ts
  | _, _, .nil => ⟨by simp, rfl⟩
  | _, _, .cons h hs => by
    obtain ⟨hc, heq⟩ := h.parts
    obtain ⟨hcs, heqs⟩ := hs.parts
    rw [List.filterMap_append, Term.eraseAll_eq_map, List.map_append, ← Term.eraseAll_eq_map,
      ← Term.eraseAll_eq_map, heq, heqs]
    exact ⟨fun c h => (List.mem_append.mp h).elim (hc c) (hcs c), rfl⟩

end

end Program.Emit

/-! ### What is pushed -/

/-- What the slot of a variable holds, read as a tree; the variable itself if there is no term in it. -/
def Program.Slots.content (slots : Program.Slots) (env : Array Slot) (v : Var) : Tree :=
  match slots[v.id]?.bind fun n => env[n.toNat]? with
  | some (.term t) => t.erase
  | _ => .var v

mutual

theorem Term.Ground.subst_erase (θ : Var → Tree) : ∀ {t : Term}, t.Ground → t.erase.subst θ = t.erase
  | .const c, _ => rfl
  | .compound stamp tag args, .compound _ _ h => by
    rw [Term.erase, Tree.subst, Term.substAll_eraseAll θ h]

theorem Term.substAll_eraseAll (θ : Var → Tree) : ∀ {ts : List Term}, (∀ t ∈ ts, t.Ground) →
    Tree.substAll θ (Term.eraseAll ts) = Term.eraseAll ts
  | [], _ => rfl
  | t :: ts, h => by
    rw [List.forall_mem_cons] at h
    rw [Term.eraseAll, Tree.substAll, h.1.subst_erase, Term.substAll_eraseAll θ h.2]

end

namespace Chunk

variable {c : Chunk} {slots : Program.Slots} {env : Array Slot}

mutual

/-- The term that is pushed is the tree with its variables replaced by what is in their slots. -/
theorem Pushes.erase_eq : ∀ {t : Tree} {k k' : Nat} {u : Term}, c.Pushes slots env t k u k' →
    u.erase = t.subst (slots.content env)
  | _, _, _, _, .var hn ht => by rw [Tree.subst, Program.Slots.content, hn, Option.bind_some, ht]
  | _, _, _, _, .constant ht _ => (ht.subst_erase _).symm
  | _, _, _, _, .compound h => by rw [Term.erase, Tree.subst, h.erase_eq]

theorem PushesAll.erase_eq : ∀ {ts : List Tree} {k k' : Nat} {us : List Term},
    c.PushesAll slots env ts k us k' → Term.eraseAll us = Tree.substAll (slots.content env) ts
  | _, _, _, _, .nil => rfl
  | _, _, _, _, .cons h hs => by rw [Term.eraseAll, Tree.substAll, h.erase_eq, hs.erase_eq]

end

end Chunk

/-! ### Carrying the lines out -/

namespace Activation

open Program (offset)

variable {ctx : Context} {stop : Nat} {m m' : Machine} {us : List Term} {k pc : Nat}
  {Q : EStateM.Result Interrupt Machine Course → Prop}

/-- The terms have been pushed and the instruction at `pc` is next. Nothing else has happened but that
stamps below `k` have been given to compounds, which the chronicle may tell. -/
structure Pushed (m : Machine) (us : List Term) (k pc : Nat) (m' : Machine) : Prop where
  /-- The activation. -/
  activation : m'.activation = { m.activation with
    operands := m.activation.operands ++ us.toArray, next := pc, current := m'.activation.current }
  /-- The database. -/
  database : m'.workspace.database = { m.workspace.database with terms := { m.workspace.database.terms with
    store := { m.workspace.database.terms.store with stamps := k } } }
  /-- The engine. -/
  engine : m'.workspace.engine = { m.workspace.engine with chronicle := m'.workspace.engine.chronicle }
  /-- There was room for the terms. -/
  fits : us.length ≤ room m

namespace Pushed

theorem refl (m : Machine) :
    Pushed m [] m.workspace.database.terms.store.stamps m.activation.next m :=
  ⟨by simp, rfl, rfl, Nat.zero_le _⟩

theorem yields_push (h : Pushed m us k pc m') (t : Term) :
    Yields (push t >>= fun _ => pure Course.forward) m'
      (fun c m'' => c = .forward ∧ Pushed m (us ++ [t]) k pc m'')
      fun i _ => i = .fault .stackOverflow ∧ room m < us.length + 1 := by
  have hsize : m'.activation.operands.size = m.activation.operands.size + us.length := by
    rw [h.activation]
    simp
  have hmax : m'.workspace.engine.config.maxOperands = m.workspace.engine.config.maxOperands := by
    rw [h.engine]
  have hpush : Yields (push t) m' (fun _ m'' => Pushed m (us ++ [t]) k pc m'')
      fun i _ => i = .fault .stackOverflow ∧ room m < us.length + 1 := by
    unfold push Yields room
    dsimp only
    split <;> rename_i heq <;> split at heq <;> cases heq <;> rename_i hlt <;>
      rw [hsize, hmax] at hlt
    · refine ⟨?_, h.database, h.engine, ?_⟩
      · dsimp only
        rw [h.activation]
        simp
      · rw [List.length_append, List.length_singleton, room]
        omega
    · exact ⟨rfl, by omega⟩
  rw [yields_bind]
  exact hpush.imp (fun _ _ h => yields_pure.mpr ⟨rfl, h⟩) fun _ _ h => h

theorem yields_pushConstant (h : Pushed m us k pc m') {n : UInt16} {t : Term}
    (hn : m.activation.code.chunk.constants[n.toNat]? = some t) : Yields (perform ctx (.pushConstant n)) m'
      (fun c m'' => c = .forward ∧ Pushed m (us ++ [t]) k pc m'')
      fun i _ => i = .fault .stackOverflow ∧ room m < us.length + 1 := by
  rw [perform, yields_bind, yields_get, yields_bind, yields_orFault (by rw [h.activation]; exact hn)]
  exact h.yields_push t

theorem yields_pushEnvironment (h : Pushed m us k pc m') {n : UInt16} {t : Term}
    (hn : m.activation.slots[n.toNat]? = some (.term t)) : Yields (perform ctx (.pushEnvironment n)) m'
      (fun c m'' => c = .forward ∧ Pushed m (us ++ [t]) k pc m'')
      fun i _ => i = .fault .stackOverflow ∧ room m < us.length + 1 := by
  have hslot : m'.activation.slots[n.toNat]? = some (.term t) := by
    rw [h.activation]
    exact hn
  rw [perform, yields_bind, slotTerm, yields_bind, yields_get, hslot]
  exact h.yields_push t

/-- The newest operands become the arguments of a compound. -/
theorem yields_createCompound {ts : List Term} (h : Pushed m (us ++ ts) k pc m') {n : UInt16} {tag : Tag}
    (hn : m.activation.code.chunk.tags[n.toNat]? = some tag)
    (harity : m.workspace.database.terms.symbols.arity tag = ts.length) :
    Yields (perform ctx (.createCompound n)) m'
      (fun c m'' => c = .forward ∧ Pushed m (us ++ [.compound k tag ts]) (k + 1) pc m'')
      fun i _ => i = .fault .stackOverflow ∧ room m < us.length + 1 := by
  have hops : m'.activation.operands.toList = m.activation.operands.toList ++ us ++ ts := by
    rw [h.activation]
    simp
  have hsize : m'.activation.operands.size = (m.activation.operands.toList ++ us).length + ts.length := by
    rw [Array.size_eq_length_toList, hops, List.length_append]
  have hpop : Yields (popMany ts.length) m' (fun vs m'' => vs.toList = ts ∧ Pushed m us k pc m'')
      fun _ _ => False := by
    have hshrink : m'.activation.operands.shrink (m'.activation.operands.size - ts.length) =
        m.activation.operands ++ us.toArray := by
      rw [← Array.toList_inj, Array.toList_shrink, hops, hsize, Nat.add_sub_cancel, List.take_left]
      simp
    unfold popMany Yields
    dsimp only
    rw [if_pos (by omega)]
    refine ⟨?_, ?_, h.database, h.engine, ?_⟩
    · rw [Array.toList_extract, List.extract_eq_take_drop, hops, hsize, Nat.add_sub_cancel,
        List.drop_left, Nat.add_sub_cancel_left, List.take_length]
    · dsimp only
      rw [hshrink, h.activation]
    · have := h.fits
      rw [List.length_append] at this
      omega
  have htag : m'.activation.code.chunk.tags[n.toNat]? = some tag := by
    rw [h.activation]
    exact hn
  have hsymbols : m'.workspace.database.terms.symbols = m.workspace.database.terms.symbols := by
    rw [h.database]
  rw [perform, yields_bind, Activation.tag, yields_bind, yields_get, yields_orFault htag, yields_bind,
    yields_get, yields_bind, hsymbols, harity]
  refine hpop.imp (fun vs m'' hm'' => ?_) fun _ _ h => h.elim
  obtain ⟨rfl, hm''⟩ := hm''
  have hstamps : m''.workspace.database.terms.store.stamps = k := by rw [hm''.database]
  rw [yields_bind, yields_onWorkspace, Engine.yields_onTerms]
  subst hstamps
  refine yields_push ?_ _
  exact ⟨hm''.activation, congrArg (fun d : Database => { d with terms := { d.terms with
    store := { d.terms.store with stamps := m''.workspace.database.terms.store.stamps + 1 } } })
    hm''.database, hm''.engine, hm''.fits⟩

/-- An instruction is carried out on the way to a place behind it. -/
theorem comes {p : Program} {before after : List Program.Line} {i : Instruction Term Tag Nat}
    {n : Nat} {R : Machine → Prop} (hp : p.Packing m.activation.code.chunk)
    (hlines : p.lines.toList = before ++ .instruction i :: after)
    (hstop : offset before + i.size ≤ stop) (h : Pushed m us k (offset before) m')
    (hy : ∀ (L : Nat → UInt32 → Prop) j m'', m.activation.code.chunk.Packs L i j →
      Pushed m us k (offset before + i.size) m'' → Yields (perform ctx j) m''
        (fun c m₃ => c = .forward ∧ R m₃) fun i _ => i = .fault .stackOverflow ∧ room m < n)
    (hfull : ∀ m'', room m < n → Q (.error (.fault .stackOverflow) m''))
    (hR : ∀ m'', R m'' → Comes ctx stop Q m'') : Comes ctx stop Q m' := by
  obtain ⟨j, hj, hpacks⟩ := hp.fetch before i after hlines
  have hsize := Program.Emit.size_pos i
  have hnext : m'.activation.next = offset before := by rw [h.activation]
  have hfetch : m'.activation.code.chunk.fetch m'.activation.next = .ok (j, offset before + i.size) := by
    rw [hnext, h.activation]
    exact hj
  have hbehind : Pushed m us k (offset before + i.size) ⟨m'.workspace.pass,
      { m'.activation with current := m'.activation.next, next := offset before + i.size }⟩ := by
    refine ⟨?_, h.database, ?_, h.fits⟩
    · dsimp only
      rw [h.activation]
    · dsimp only [Workspace.pass, Workspace.note]
      rw [h.engine]
  refine comes_of_yields (by omega)
    ((yields_advance (m := ⟨m'.workspace.pass, m'.activation⟩) hfetch).mpr ?_)
  refine (hy _ j _ hpacks hbehind).imp (fun c m'' hc => ?_) fun i m'' hi => ?_
  · obtain ⟨rfl, hr⟩ := hc
    exact ⟨fun _ => hR m'' hr, fun hne => absurd rfl hne⟩
  · obtain ⟨rfl, hroom⟩ := hi
    exact hfull m'' hroom

variable {p : Program} {slots : Program.Slots}

mutual

/-- Lines that fold a tree push one term, or there is not enough room. -/
theorem folds (hp : p.Packing m.activation.code.chunk) : ∀ {t : Tree} {ls before after : List Program.Line}
    {us : List Term} {k : Nat} {m' : Machine}, Program.Emit.Folds slots t ls →
    p.lines.toList = before ++ ls ++ after → offset (before ++ ls) ≤ stop →
    Filled slots m.activation.slots t → t.Sized m.workspace.database.terms.symbols →
    Pushed m us k (offset before) m' →
    (∀ m'', room m < us.length + t.peak → Q (.error (.fault .stackOverflow) m'')) →
    (∀ u k' m'', us.length + t.peak ≤ room m →
      m.activation.code.chunk.Pushes slots m.activation.slots t k u k' →
      Pushed m (us ++ [u]) k' (offset (before ++ ls)) m'' → Comes ctx stop Q m'') →
    Comes ctx stop Q m'
  | _, _, before, after, us, k, m', .var (v := v) (n := n) hn, hlines, hstop, hv, _, h, hfull, hpushed => by
    obtain ⟨u, n', hn', hu⟩ := hv v (by simp [Tree.nodes])
    obtain rfl := Option.some.inj (hn.symm.trans hn')
    rw [List.append_assoc] at hlines
    rw [Program.offset_append, Program.offset_instruction] at hstop hpushed
    refine h.comes hp hlines hstop (R := Pushed m (us ++ [u]) k _) (fun _ j m'' hj hm'' => ?_) hfull
      fun m'' hm'' => hpushed u k m'' ?_ (.var hn hu) hm''
    · cases hj with | pushEnvironment => exact hm''.yields_pushEnvironment hu
    · simpa [Tree.peak] using hm''.fits
  | _, _, before, after, us, k, m', .constant (c := c) hc, hlines, hstop, _, _, h, hfull, hpushed => by
    rw [List.append_assoc] at hlines
    rw [Program.offset_append, Program.offset_instruction] at hstop hpushed
    rw [Tree.peak_of_isGround hc.isGround_erase] at hfull hpushed
    refine h.comes hp hlines hstop
      (R := fun m'' => c ∈ m.activation.code.chunk.constants ∧ Pushed m (us ++ [c]) k _ m'')
      (fun _ j m'' hj hm'' => ?_) hfull fun m'' hm'' => hpushed c k m'' ?_ (.constant hc hm''.1) hm''.2
    · cases hj with
      | pushConstant hn =>
        exact (hm''.yields_pushConstant hn).imp (fun _ _ h => ⟨h.1, Array.mem_of_getElem? hn, h.2⟩)
          fun _ _ h => h
    · simpa using hm''.2.fits
  | .compound tag args, _, before, after, us, k, m', @Program.Emit.Folds.compound _ _ _ ls hargs hls, hlines,
      hstop, hv, ht, h, hfull, hpushed => by
    cases ht with | compound harity hsized =>
    have hpos := Tree.peakAll_pos hargs
    rw [Tree.peak_compound hargs] at hfull hpushed
    rw [← List.append_assoc] at hlines hstop hpushed
    rw [Program.offset_append, Program.offset_instruction] at hstop hpushed
    refine foldsAll hp hls (by rw [hlines, List.append_assoc]) (by omega) hv.arg hsized h hfull
      fun ts k' m₁ hroom hts h₁ => ?_
    -- the arguments leave the stack, so there is room for the compound
    refine h₁.comes hp (i := .createCompound tag) (by rw [hlines, List.append_assoc]; rfl) hstop
      (n := us.length + 1) (R := Pushed m (us ++ [.compound k' tag ts]) (k' + 1) _)
      (fun _ j m'' hj hm'' => ?_) (fun m'' hless => absurd hroom ?_)
      fun m'' hm'' => hpushed _ _ m'' hroom (.compound hts) hm''
    · cases hj with
      | createCompound hn => exact hm''.yields_createCompound hn (harity.trans hts.length_eq.symm)
    · omega

/-- So it is with lines that fold trees. -/
theorem foldsAll (hp : p.Packing m.activation.code.chunk) : ∀ {ts : List Tree}
    {ls before after : List Program.Line} {us : List Term} {k : Nat} {m' : Machine},
    Program.Emit.FoldsAll slots ts ls → p.lines.toList = before ++ ls ++ after →
    offset (before ++ ls) ≤ stop → (∀ t ∈ ts, Filled slots m.activation.slots t) →
    (∀ t ∈ ts, t.Sized m.workspace.database.terms.symbols) → Pushed m us k (offset before) m' →
    (∀ m'', room m < us.length + Tree.peakAll ts → Q (.error (.fault .stackOverflow) m'')) →
    (∀ vs k' m'', us.length + Tree.peakAll ts ≤ room m →
      m.activation.code.chunk.PushesAll slots m.activation.slots ts k vs k' →
      Pushed m (us ++ vs) k' (offset (before ++ ls)) m'' → Comes ctx stop Q m'') →
    Comes ctx stop Q m'
  | _, _, before, after, us, k, m', .nil, hlines, hstop, _, _, h, hfull, hpushed =>
    hpushed [] k m' h.fits .nil (by rwa [List.append_nil, List.append_nil])
  | t :: ts, _, before, after, us, k, m', @Program.Emit.FoldsAll.cons _ _ _ ls ls' hls hls', hlines, hstop, hv,
      hsized, h, hfull, hpushed => by
    rw [List.forall_mem_cons] at hv hsized
    rw [Tree.peakAll] at hfull hpushed
    rw [← List.append_assoc] at hlines hstop hpushed
    have hle : offset (before ++ ls) ≤ stop := by
      rw [Program.offset_append] at hstop
      omega
    refine folds hp hls (by rw [hlines, List.append_assoc (before ++ ls)]) hle hv.1 hsized.1 h
      (fun m'' hroom => hfull m'' (by omega)) fun u k₁ m₁ hroom hu h₁ => ?_
    refine foldsAll hp hls' hlines hstop hv.2 hsized.2 h₁ (fun m'' hroom' => hfull m'' ?_)
      fun vs k' m'' hroom' hvs h'' => hpushed (u :: vs) k' m'' ?_ (.cons hu hvs) ?_
    · rw [List.length_append, List.length_singleton] at hroom'
      omega
    · rw [List.length_append, List.length_singleton] at hroom'
      omega
    · rwa [List.append_assoc] at h''

end

end Pushed

/-- The code of the tree is carried out up to `stop`: if there is room, one term has been pushed, which is
the tree with its variables replaced by what is in their slots; if not, the activation has faulted. -/
def Delivers (ctx : Context) (slots : Program.Slots) (stop : Nat) (t : Tree) (m : Machine) : Prop :=
  Comes ctx stop (fun r =>
    (t.peak ≤ room m → ∃ u k m', r = .ok .forward m' ∧ Pushed m [u] k stop m' ∧
      m.activation.code.chunk.Pushes slots m.activation.slots t m.workspace.database.terms.store.stamps u k ∧
      u.erase = t.subst (slots.content m.activation.slots)) ∧
    (room m < t.peak → ∃ m', r = .error (.fault .stackOverflow) m')) m

/-- Lines that fold a tree deliver it. -/
theorem delivers_of_folds {p : Program} {slots : Program.Slots} {t : Tree}
    {before ls after : List Program.Line} (hp : p.Packing m.activation.code.chunk)
    (hls : Program.Emit.Folds slots t ls) (hlines : p.lines.toList = before ++ ls ++ after)
    (hnext : m.activation.next = offset before) (ht : t.Sized m.workspace.database.terms.symbols)
    (hv : Filled slots m.activation.slots t) : Delivers ctx slots (offset (before ++ ls)) t m := by
  have hnone : Pushed m [] m.workspace.database.terms.store.stamps (offset before) m := hnext ▸ .refl m
  refine hnone.folds hp hls hlines (Nat.le_refl _) hv ht (fun m' hroom => ?_)
    fun u k m' hroom hu hm' => comes_here (by rw [hm'.activation]) ?_
  all_goals rw [List.length_nil, Nat.zero_add] at hroom
  · exact ⟨fun h => absurd hroom (Nat.not_lt.mpr h), fun _ => ⟨m', rfl⟩⟩
  · exact ⟨fun _ => ⟨u, k, m', rfl, hm', hu, hu.erase_eq⟩, fun h => absurd h (Nat.not_lt.mpr hroom)⟩

end Activation

namespace Program.Emit

/-- Where the unbound variables of a term have slots, its code is written behind what has been written
before, which stays. It pushes one constant for a term without variables, and else one constant for each
of its largest parts without variables. Wherever the code is packed, an activation that comes to it pushes
one term on the way to its end, the term as it is read now with what is then in the slots of its
variables, or there is no room for its operands. -/
theorem build_folds (slots : Slots) (σ : Store) (t : Term) (e : Emitter)
    (hslots : ∀ v ∈ σ.vars t, ∃ n, slots[v.id]? = some n) :
    ∃ ls k, build slots (σ.resolve t) e = .ok () { e with lines := e.lines ++ ls.toArray, stamps := k } ∧
      Folds slots (σ.resolve t) ls ∧
      (σ.vars t = [] → ∃ c : Term, c.Ground ∧ c.erase = σ.resolve t ∧ ls = [constantLine c]) ∧
      (∀ c ∈ ls.filterMap pushedConstant?, c.Ground) ∧
      Term.eraseAll (ls.filterMap pushedConstant?) = (σ.resolve t).groundParts ∧
      ∀ (p : Program) (c : Chunk) (after : List Line), p.lines.toList = e.lines.toList ++ ls ++ after →
        p.assemble = .ok c → ∀ (ctx : Context) (m : Machine), m.activation.code.chunk = c →
          m.activation.next = offset e.lines.toList →
          (σ.resolve t).Sized m.workspace.database.terms.symbols →
          Activation.Filled slots m.activation.slots (σ.resolve t) →
          Activation.Delivers ctx slots (offset (e.lines.toList ++ ls)) (σ.resolve t) m := by
  obtain ⟨e', he'⟩ := exists_build (fun v hv => hslots v (Store.mem_vars.mpr hv)) e
  obtain ⟨ls, hwrote, hls⟩ := folds_of_build he'
  have hlines : e'.lines = e.lines ++ ls.toArray := by
    rw [← Array.toList_inj, hwrote.lines]
    simp
  refine ⟨ls, e'.stamps, ?_, hls, fun ht => hls.ground (Store.vars_eq_nil_iff.mp ht), hls.parts.1, hls.parts.2,
    fun p c after hp hc ctx m hm hnext hsized hfilled => ?_⟩
  · rw [he', ← hlines, ← hwrote.rest]
  · subst hm
    exact Activation.delivers_of_folds (packing_of_assemble hc) hls hp hnext hsized hfilled

/-- The slot of a variable. -/
def listSlots : Slots :=
  (∅ : Slots).insert 0 1

/-- Two variables, the second of which is bound. -/
def listStore : Store :=
  ⟨#[none, some (.atom .nil)], 2⟩

/-- A list cell of the first variable and a compound of the second one. -/
def listTerm : Term :=
  .compound 1 .cons [.var ⟨0⟩, .compound 0 .negation [.var ⟨1⟩]]

/-- A constant has been written. -/
def listEmitter : Emitter :=
  ⟨#[constantLine (.atom .trueGoal)], #[], 2, 2, 0, 2⟩

/-- The program of the constant and the code of the list cell. -/
def listProgram : Program where
  name := "list"
  arity := 0
  slots := 2
  lines := #[constantLine (.atom .trueGoal), .instruction (.pushEnvironment 1),
    constantLine (.compound 2 .negation [.atom .nil]), .instruction (.createCompound .cons)]
  handlers := #[]

/-- An activation that comes to the code of the list cell. -/
def listMachine (c : Chunk) : Machine where
  workspace := ⟨.empty, .ofConfig .standard⟩
  activation := ⟨⟨c, 0⟩, #[], 3, 0, #[.atom .trueGoal], #[.empty, .term (.atom .failGoal)], 0⟩

theorem resolve_listTerm : listStore.resolve listTerm =
    .compound .cons [.var ⟨0⟩, .compound .negation [.const (.atom .nil)]] := by
  have hunbound : listStore.value? ⟨0⟩ = none := rfl
  have hbound : listStore.value? ⟨1⟩ = some (.atom .nil) := rfl
  rw [Store.resolve_eq_treeWithin, show listStore.size = 2 from rfl, listTerm]
  simp [Store.treeWithin, Store.treesWithin, hunbound, hbound]

theorem build_listTerm : build listSlots (listStore.resolve listTerm) listEmitter =
    .ok () { listEmitter with lines := listProgram.lines, stamps := 3 } := by
  rw [resolve_listTerm, build, Tree.postorder_eq]
  rfl

theorem exists_listChunk : ∃ c, listProgram.assemble = .ok c := by
  have h : listProgram.assemble.isOk = true := by decide +kernel
  cases hc : listProgram.assemble with
  | ok c => exact ⟨c, rfl⟩
  | error e =>
    rw [hc] at h
    cases h

/-- A term that stands behind a pushed constant, partly bound and partly without variables, gets the three
lines behind that constant, and these push it. -/
theorem build_folds_list : (∀ v ∈ listStore.vars listTerm, ∃ n, listSlots[v.id]? = some n) ∧
    ∃ ls k c, build listSlots (listStore.resolve listTerm) listEmitter =
        .ok () { listEmitter with lines := listEmitter.lines ++ ls.toArray, stamps := k } ∧
      Term.eraseAll (ls.filterMap pushedConstant?) = [.compound .negation [.const (.atom .nil)]] ∧
      listProgram.lines.toList = listEmitter.lines.toList ++ ls ∧ listProgram.assemble = .ok c ∧
      ∀ ctx, ∃ u m', Activation.Ends ctx (offset listProgram.lines.toList) (listMachine c)
          (.ok .forward m') ∧ m'.activation.operands.toList = [.atom .trueGoal, u] ∧
        u.erase = .compound .cons [.const (.atom .failGoal), .compound .negation [.const (.atom .nil)]] := by
  have hslots : ∀ v ∈ listStore.vars listTerm, ∃ n, listSlots[v.id]? = some n := by
    intro v hv
    rw [Store.mem_vars, resolve_listTerm] at hv
    obtain rfl : v = ⟨0⟩ := by simpa [Tree.nodes, Tree.nodesAll] using hv
    exact ⟨1, rfl⟩
  obtain ⟨ls, k, hbuild, -, -, -, hparts, hrun⟩ := build_folds listSlots listStore listTerm listEmitter hslots
  obtain ⟨c, hc⟩ := exists_listChunk
  have hlines : listProgram.lines.toList = listEmitter.lines.toList ++ ls := by
    have heq := build_listTerm.symm.trans hbuild
    injection heq with _ heq
    simpa using congrArg (fun e : Emitter => e.lines.toList) heq
  refine ⟨hslots, ls, k, c, hbuild, ?_, hlines, hc, fun ctx => ?_⟩
  · rw [hparts, resolve_listTerm]
    rfl
  have hfilled : Activation.Filled listSlots (listMachine c).activation.slots (listStore.resolve listTerm) := by
    intro v hv
    rw [resolve_listTerm] at hv
    obtain rfl : v = ⟨0⟩ := by simpa [Tree.nodes, Tree.nodesAll] using hv
    exact ⟨.atom .failGoal, 1, rfl, rfl⟩
  have hsized : (listStore.resolve listTerm).Sized (listMachine c).workspace.database.terms.symbols := by
    rw [resolve_listTerm]
    dsimp only [listMachine, Database.empty, Universe.initial]
    have hcons : Symbols.initial.arity .cons = 2 := by decide +kernel
    have hnegation : Symbols.initial.arity .negation = 1 := by decide +kernel
    refine .compound hcons fun t ht => ?_
    obtain rfl | ht := List.mem_cons.mp ht
    · exact .var _
    obtain rfl := List.mem_singleton.mp ht
    exact .compound hnegation fun t ht => List.mem_singleton.mp ht ▸ .const _
  obtain ⟨r, hends, hroom, -⟩ :=
    hrun listProgram c [] (by rw [List.append_nil, hlines]) hc ctx (listMachine c) rfl rfl hsized hfilled
  have hpeak : (listStore.resolve listTerm).peak ≤ Activation.room (listMachine c) := by
    rw [resolve_listTerm]
    exact Nat.le_sub_of_add_le (show 2 + 1 ≤ Config.standard.maxOperands by decide)
  obtain ⟨u, k', m', rfl, hm', -, hu⟩ := hroom hpeak
  refine ⟨u, m', hlines ▸ hends, by rw [hm'.activation]; rfl, ?_⟩
  rw [hu, resolve_listTerm]
  rfl

end Program.Emit

end Resolvent
