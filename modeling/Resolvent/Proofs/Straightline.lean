import Resolvent.Proofs.Operating
import Resolvent.Proofs.Typing

/-!
# Code that goes straight on

`Activation.Ends` says how an activation that goes forward comes to a place in its code: it gets there, or
it takes another course or is interrupted on the way. What a run does then is what it does from there on
(`Activation.Ends.run`).

`Spot` says where an activation is and what it has. There is one lemma for every instruction of the code
that makes variables and builds terms, and what such code does follows from these: `Chunk.Pushes` is the
term that the code of a tree pushes, with the stamps that it takes for compounds, and `Filled` says what
the slots of the variables made are filled with. An instruction pushes at most one operand, so
such code runs out of room only if there is less of it than there are bytes left (`Overflows`).
-/

namespace Resolvent

namespace Activation

variable {ctx : Context} {stop : Nat} {m : Machine}

/-! ### Coming to a place -/

/-- Goes forward, in at most `n` steps, until the next instruction is the one at `stop`, unless the
activation takes another course or is interrupted before. -/
def advanceTo (ctx : Context) (stop : Nat) : Nat → Machine → Option (EStateM.Result Interrupt Machine Course)
  | 0, _ => none
  | n + 1, m =>
    if m.activation.next = stop then some (.ok .forward m)
    else match step ctx .forward ⟨m.workspace.pass, m.activation⟩ with
      | .ok .forward m' => advanceTo ctx stop n m'
      | r => some r

/-- How an activation that goes forward comes to a place or does not get there. -/
def Ends (ctx : Context) (stop : Nat) (m : Machine) (r : EStateM.Result Interrupt Machine Course) : Prop :=
  ∃ n, advanceTo ctx stop n m = some r

theorem advanceTo_of_le {r : EStateM.Result Interrupt Machine Course} : ∀ {n k : Nat} {m : Machine}, n ≤ k →
    advanceTo ctx stop n m = some r → advanceTo ctx stop k m = some r
  | 0, _, _, _, h => by cases h
  | n + 1, k, m, hle, h => by
    obtain ⟨k, rfl⟩ : ∃ j, k = j + 1 := ⟨k - 1, by omega⟩
    rw [advanceTo] at h ⊢
    split at h
    · rwa [if_pos ‹_›]
    · rw [if_neg ‹_›]
      cases hstep : step ctx .forward ⟨m.workspace.pass, m.activation⟩ with
      | ok c m' =>
        rw [hstep] at h
        cases c with
        | forward => exact advanceTo_of_le (Nat.le_of_succ_le_succ hle) h
        | _ => exact h
      | error i m' =>
        rw [hstep] at h
        exact h

/-- It does so in one way only. -/
theorem Ends.unique {r r' : EStateM.Result Interrupt Machine Course} (h : Ends ctx stop m r)
    (h' : Ends ctx stop m r') : r = r' := by
  obtain ⟨n, hn⟩ := h
  obtain ⟨k, hk⟩ := h'
  have hn := advanceTo_of_le (Nat.le_max_left n k) hn
  have hk := advanceTo_of_le (Nat.le_max_right n k) hk
  exact Option.some.inj (hn.symm.trans hk)

/-- A run goes on from there. -/
theorem Ends.run {c : Course} {m' : Machine} (h : Ends ctx stop m (.ok c m')) :
    ∃ k, ∀ n, run ctx (n + k) .forward m.activation m.workspace = run ctx n c m'.activation m'.workspace := by
  obtain ⟨k, hk⟩ := h
  induction k generalizing m with
  | zero => cases hk
  | succ k ih =>
    rw [advanceTo] at hk
    split at hk
    · cases hk
      exact ⟨0, fun n => rfl⟩
    · cases hstep : step ctx .forward ⟨m.workspace.pass, m.activation⟩ with
      | ok c₁ m₁ =>
        rw [hstep] at hk
        have hrun (n : Nat) := run_of_ok (n := n) (by simp) hstep
        cases c₁ with
        | forward =>
          obtain ⟨j, hj⟩ := ih hk
          exact ⟨j + 1, fun n => by rw [← Nat.add_assoc, hrun, hj]⟩
        | backward =>
          cases hk
          exact ⟨1, fun n => hrun n⟩
        | answer a =>
          cases hk
          exact ⟨1, fun n => hrun n⟩
      | error i m₁ =>
        rw [hstep] at hk
        cases hk

/-- An activation comes to a place, or does not get there, in a way that has a property. -/
def Comes (ctx : Context) (stop : Nat) (Q : EStateM.Result Interrupt Machine Course → Prop) (m : Machine) :
    Prop :=
  ∃ r, Ends ctx stop m r ∧ Q r

variable {Q : EStateM.Result Interrupt Machine Course → Prop}

theorem Comes.imp {Q' : EStateM.Result Interrupt Machine Course → Prop} (h : Comes ctx stop Q m)
    (hQ : ∀ r, Q r → Q' r) : Comes ctx stop Q' m :=
  Exists.imp (fun r hr => ⟨hr.1, hQ r hr.2⟩) h

theorem comes_here (hm : m.activation.next = stop) (hQ : Q (.ok .forward m)) : Comes ctx stop Q m :=
  ⟨_, ⟨1, by rw [advanceTo, if_pos hm]⟩, hQ⟩

/-- A step is taken on the way. -/
theorem comes_of_yields (hm : m.activation.next ≠ stop)
    (h : Yields (step ctx .forward) ⟨m.workspace.pass, m.activation⟩
      (fun c m' => (c = .forward → Comes ctx stop Q m') ∧ (c ≠ .forward → Q (.ok c m')))
      fun i m' => Q (.error i m')) : Comes ctx stop Q m := by
  cases hstep : step ctx .forward ⟨m.workspace.pass, m.activation⟩ with
  | ok c m' =>
    obtain ⟨hforward, hother⟩ := yields_ok h hstep
    have hone (hc : c ≠ .forward) : advanceTo ctx stop 1 m = some (.ok c m') := by
      rw [advanceTo, if_neg hm, hstep]
      cases c with
      | forward => exact absurd rfl hc
      | _ => rfl
    cases c with
    | forward =>
      obtain ⟨r, ⟨n, hn⟩, hr⟩ := hforward rfl
      refine ⟨r, ⟨n + 1, ?_⟩, hr⟩
      rw [advanceTo, if_neg hm, hstep]
      exact hn
    | backward => exact ⟨_, ⟨1, hone (by simp)⟩, hother (by simp)⟩
    | answer a => exact ⟨_, ⟨1, hone (by simp)⟩, hother (by simp)⟩
  | error i m' =>
    refine ⟨.error i m', ⟨1, ?_⟩, yields_error h hstep⟩
    rw [advanceTo, if_neg hm, hstep]

/-! ### Instructions -/

/-- Where an activation is and what it has: how many operands it may have, its code and arguments, the
symbols and the store, the slots and the operands, and the place of the next instruction. -/
structure Spot (limit : Nat) (code : Code) (args : Array Term) (s : Symbols) (σ : Store) (env : Array Slot)
    (ops : List Term) (pc : Nat) (m : Machine) : Prop where
  /-- The code. -/
  code : m.activation.code = code
  /-- The arguments. -/
  args : m.activation.args = args
  /-- The symbols. -/
  symbols : m.workspace.database.terms.symbols = s
  /-- The bindings. -/
  store : m.workspace.database.terms.store = σ
  /-- The slots. -/
  slots : m.activation.slots = env
  /-- The operands, the newest last. -/
  operands : m.activation.operands.toList = ops
  /-- The next instruction. -/
  next : m.activation.next = pc
  /-- How many operands there may be. -/
  limit : m.workspace.engine.config.maxOperands = limit

/-- For how many more operands there is room. -/
def room (m : Machine) : Nat :=
  m.workspace.engine.config.maxOperands - m.activation.operands.size

/-- There is no room for an operand behind `n` others. -/
def Overflows (limit n : Nat) (i : Interrupt) (_ : Machine) : Prop :=
  i = .fault .stackOverflow ∧ limit ≤ n

namespace Spot

variable {limit : Nat} {code : Code} {args : Array Term} {s : Symbols} {σ : Store} {env : Array Slot}
  {ops : List Term} {pc : Nat} {R : Machine → Prop}

theorem yields_push (h : Spot limit code args s σ env ops pc m) (t : Term) :
    Yields (push t >>= fun _ => pure Course.forward) m
      (fun c m' => c = .forward ∧ Spot limit code args s σ env (ops ++ [t]) pc m')
      (Overflows limit ops.length) := by
  have hpush : Yields (push t) m (fun _ m' => Spot limit code args s σ env (ops ++ [t]) pc m')
      (Overflows limit ops.length) := by
    unfold push Yields
    dsimp only
    split <;> rename_i heq <;> split at heq <;> cases heq <;> rename_i hroom
    · exact ⟨h.code, h.args, h.symbols, h.store, h.slots, by rw [Array.toList_push, h.operands], h.next,
        h.limit⟩
    · rw [h.limit, Array.size_eq_length_toList, h.operands] at hroom
      exact ⟨rfl, Nat.le_of_not_lt hroom⟩
  rw [yields_bind]
  exact hpush.imp (fun _ _ h => yields_pure.mpr ⟨rfl, h⟩) fun _ _ h => h

theorem yields_pop {t : Term} (h : Spot limit code args s σ env (ops ++ [t]) pc m) :
    Yields pop m (fun u m' => u = t ∧ Spot limit code args s σ env ops pc m') fun _ _ => False := by
  have hback : m.activation.operands.back? = some t := by
    rw [← Array.getLast?_toList, h.operands, List.getLast?_concat]
  unfold pop Yields
  simp only [hback]
  refine ⟨trivial, h.code, h.args, h.symbols, h.store, h.slots, ?_, h.next, h.limit⟩
  rw [Array.toList_pop, h.operands, List.dropLast_concat]

theorem yields_pushConstant (h : Spot limit code args s σ env ops pc m) {n : UInt16} {t : Term}
    (hn : code.chunk.constants[n.toNat]? = some t) : Yields (perform ctx (.pushConstant n)) m
      (fun c m' => c = .forward ∧ Spot limit code args s σ env (ops ++ [t]) pc m')
      (Overflows limit ops.length) := by
  rw [perform, yields_bind, yields_get, yields_bind, h.code, yields_orFault hn]
  exact h.yields_push t

theorem yields_pushArgument (h : Spot limit code args s σ env ops pc m) {n : UInt16} {t : Term}
    (hn : args[n.toNat]? = some t) : Yields (perform ctx (.pushArgument n)) m
      (fun c m' => c = .forward ∧ Spot limit code args s σ env (ops ++ [t]) pc m')
      (Overflows limit ops.length) := by
  rw [perform, yields_bind, yields_get, yields_bind, h.args, yields_orFault hn]
  exact h.yields_push t

theorem yields_pushEnvironment (h : Spot limit code args s σ env ops pc m) {n : UInt16} {t : Term}
    (hn : env[n.toNat]? = some (.term t)) : Yields (perform ctx (.pushEnvironment n)) m
      (fun c m' => c = .forward ∧ Spot limit code args s σ env (ops ++ [t]) pc m')
      (Overflows limit ops.length) := by
  rw [perform, yields_bind, slotTerm, yields_bind, yields_get, h.slots, hn]
  exact h.yields_push t

theorem yields_createVariable (h : Spot limit code args s σ env ops pc m) :
    Yields (perform ctx .createVariable) m (fun c m' => c = .forward ∧
      Spot limit code args s σ.fresh.2 env (ops ++ [.var σ.fresh.1]) pc m') (Overflows limit ops.length) := by
  obtain rfl := h.store
  rw [perform, yields_bind, yields_onWorkspace, Engine.yields_onTerms]
  refine yields_push ?_ _
  exact ⟨h.code, h.args, h.symbols, rfl, h.slots, h.operands, h.next, h.limit⟩

theorem yields_createCompound {ts : List Term} (h : Spot limit code args s σ env (ops ++ ts) pc m) {n : UInt16}
    {tag : Tag} (hn : code.chunk.tags[n.toNat]? = some tag) (harity : s.arity tag = ts.length) :
    Yields (perform ctx (.createCompound n)) m (fun c m' => c = .forward ∧
      Spot limit code args s (σ.compound tag ts).2 env (ops ++ [(σ.compound tag ts).1]) pc m')
      (Overflows limit ops.length) := by
  have hsize : m.activation.operands.size = ops.length + ts.length := by
    rw [Array.size_eq_length_toList, h.operands, List.length_append]
  have hpop : Yields (popMany ts.length) m
      (fun us m' => us.toList = ts ∧ Spot limit code args s σ env ops pc m') fun _ _ => False := by
    unfold popMany Yields
    dsimp only
    rw [if_pos (by omega)]
    refine ⟨?_, h.code, h.args, h.symbols, h.store, h.slots, ?_, h.next, h.limit⟩
    · rw [Array.toList_extract, List.extract_eq_take_drop, h.operands, hsize, Nat.add_sub_cancel,
        List.drop_left, Nat.add_sub_cancel_left, List.take_length]
    · dsimp only
      rw [Array.toList_shrink, h.operands, hsize, Nat.add_sub_cancel, List.take_left]
  rw [perform, yields_bind, Activation.tag, yields_bind, yields_get, h.code, yields_orFault hn, yields_bind,
    yields_get, yields_bind, h.symbols, harity]
  refine hpop.imp (fun us m' hm' => ?_) fun _ _ h => h.elim
  obtain ⟨rfl, hm'⟩ := hm'
  obtain rfl := hm'.store
  rw [yields_bind, yields_onWorkspace, Engine.yields_onTerms]
  refine yields_push ?_ _
  exact ⟨hm'.code, hm'.args, hm'.symbols, rfl, hm'.slots, hm'.operands, hm'.next, hm'.limit⟩

theorem yields_storeEnvironment {t : Term} (h : Spot limit code args s σ env (ops ++ [t]) pc m) {n : UInt16}
    (hn : n.toNat < env.size) : Yields (perform ctx (.storeEnvironment n)) m (fun c m' => c = .forward ∧
      Spot limit code args s σ (env.setIfInBounds n.toNat (.term t)) ops pc m') fun _ _ => False := by
  rw [perform, yields_bind]
  refine h.yields_pop.imp (fun u m' hm' => ?_) fun _ _ h => h.elim
  obtain ⟨rfl, hm'⟩ := hm'
  have hstore : Yields (Activation.store n (.term u)) m' (fun _ m'' =>
      Spot limit code args s σ (env.setIfInBounds n.toNat (.term u)) ops pc m'') fun _ _ => False := by
    unfold Activation.store Yields
    dsimp only
    rw [hm'.slots, if_pos hn]
    exact ⟨hm'.code, hm'.args, hm'.symbols, hm'.store, rfl, hm'.operands, hm'.next, hm'.limit⟩
  rw [yields_bind]
  exact hstore.imp (fun _ _ h => yields_pure.mpr ⟨rfl, h⟩) fun _ _ h => h

/-- Two terms are unified: the activation goes forward or backward, or the fuel does not suffice. -/
theorem yields_unify {t u : Term} (h : Spot limit code args s σ env (ops ++ [t] ++ [u]) pc m) :
    Yields (perform ctx .unify) m
      (fun c m' => ∃ (τ : Trail Empty) (b : Bool), (Resolvent.unifyInPlace ctx.fuel t u σ τ).1 = some b ∧
        c = (if b then .forward else .backward) ∧
        Spot limit code args s (Resolvent.unifyInPlace ctx.fuel t u σ τ).2.1 env ops pc m')
      fun i _ => i = .stop .spent ∧
        ∃ τ : Trail Empty, (Resolvent.unifyInPlace ctx.fuel t u σ τ).1 = none := by
  rw [perform, yields_bind]
  refine h.yields_pop.imp (fun _ m₁ h₁ => ?_) fun _ _ h => h.elim
  obtain ⟨rfl, h₁⟩ := h₁
  rw [yields_bind]
  refine h₁.yields_pop.imp (fun _ m₂ h₂ => ?_) fun _ _ h => h.elim
  obtain ⟨rfl, h₂⟩ := h₂
  obtain rfl := h₂.store
  rename_i t u
  rw [yields_bind, yields_onWorkspace, Engine.unifyInPlace, yields_bind, Engine.yields_onBindings]
  cases hanswer : (Resolvent.unifyInPlace ctx.fuel u t m₂.workspace.database.terms.store
      m₂.workspace.engine.trail).1 with
  | none => exact ⟨rfl, _, hanswer⟩
  | some b =>
    refine ⟨m₂.workspace.engine.trail, b, hanswer, ?_, h₂.code, h₂.args, h₂.symbols, rfl, h₂.slots,
      h₂.operands, h₂.next, h₂.limit⟩
    cases b <;> rfl

/-- An instruction is carried out on the way to a place behind it. -/
theorem comes {stop next : Nat} {Q : EStateM.Result Interrupt Machine Course → Prop}
    {hd : Option Chunk.Handler} {i : Instruction Term Tag Nat} (h : Spot limit code args s σ env ops pc m)
    (hi : code.chunk.Stands hd pc i next) (hstop : next ≤ stop)
    (hy : ∀ j m', code.chunk.Packs (fun o a => a.toNat = o) i j → Spot limit code args s σ env ops next m' →
      Yields (perform ctx j) m'
        (fun c m'' => (c = .forward → Comes ctx stop Q m'') ∧ (c ≠ .forward → Q (.ok c m'')))
        fun i m'' => Q (.error i m'')) : Comes ctx stop Q m := by
  obtain ⟨j, hj, hpacks⟩ := hi.fetch
  have hlt := hi.lt
  have hfetch : m.activation.code.chunk.fetch m.activation.next = .ok (j, next) := by
    rw [h.code, h.next]
    exact hj
  refine comes_of_yields (by rw [h.next]; omega)
    ((yields_advance (m := ⟨m.workspace.pass, m.activation⟩) hfetch).mpr ?_)
  exact hy j _ hpacks ⟨h.code, h.args, h.symbols, h.store, h.slots, h.operands, rfl, h.limit⟩

/-- An instruction that goes on behind it. -/
theorem comes_forward {stop next n : Nat} {Q : EStateM.Result Interrupt Machine Course → Prop}
    {hd : Option Chunk.Handler} {i : Instruction Term Tag Nat}
    (hQ : limit ≤ n → ∀ m', Q (.error (.fault .stackOverflow) m'))
    (h : Spot limit code args s σ env ops pc m) (hi : code.chunk.Stands hd pc i next) (hstop : next ≤ stop)
    (hy : ∀ j m', code.chunk.Packs (fun o a => a.toNat = o) i j → Spot limit code args s σ env ops next m' →
      Yields (perform ctx j) m' (fun c m'' => c = .forward ∧ R m'') (Overflows limit n))
    (k : ∀ m', R m' → Comes ctx stop Q m') : Comes ctx stop Q m := by
  refine h.comes hi hstop fun j m' hj hm' => (hy j m' hj hm').imp (fun c m'' hc => ?_) fun i m'' hi => ?_
  · obtain ⟨rfl, hr⟩ := hc
    exact ⟨fun _ => k m'' hr, fun hne => absurd rfl hne⟩
  · obtain ⟨rfl, hn⟩ := hi
    exact hQ hn m''

end Spot

end Activation

/-! ### Terms that are built -/

theorem Chunk.StandsVariables.le {c : Chunk} {slots : Program.Slots} : ∀ {vs : List Var} {pc pc' : Nat},
    c.StandsVariables slots vs pc pc' → pc ≤ pc'
  | [], _, _, h => by
    rw [StandsVariables] at h
    exact Nat.le_of_eq h.symm
  | _ :: _, _, _, h => by
    rw [StandsVariables] at h
    obtain ⟨_, _, _, -, h₁, h₂, h⟩ := h
    have := h₁.lt; have := h₂.lt; have := StandsVariables.le h
    omega

/-- The compounds in the tree have as many arguments as their tags. -/
inductive Tree.Sized (s : Symbols) : Tree → Prop where
  | var (v : Var) : Sized s (.var v)
  | const (c : Constant) : Sized s (.const c)
  | compound {tag : Tag} {args : List Tree} (harity : s.arity tag = args.length)
      (hargs : ∀ t ∈ args, Sized s t) : Sized s (.compound tag args)

mutual

/-- The code of the tree pushes the term: its variables are replaced by what is in their slots, its parts
without variables are constants, and its other compounds have the stamps from the first number up to
the second one. -/
inductive Chunk.Pushes (c : Chunk) (slots : Program.Slots) (env : Array Slot) :
    Tree → Nat → Term → Nat → Prop where
  | var {v : Var} {n : UInt16} {t : Term} {k : Nat} (hn : slots[v.id]? = some n)
      (ht : env[n.toNat]? = some (.term t)) : Pushes c slots env (.var v) k t k
  | constant {t : Term} {k : Nat} (ht : t.Ground) (hc : t ∈ c.constants) :
      Pushes c slots env t.erase k t k
  | compound {tag : Tag} {args : List Tree} {ts : List Term} {k k' : Nat}
      (h : PushesAll c slots env args k ts k') :
      Pushes c slots env (.compound tag args) k (.compound k' tag ts) (k' + 1)

/-- So it is with the code of trees. -/
inductive Chunk.PushesAll (c : Chunk) (slots : Program.Slots) (env : Array Slot) :
    List Tree → Nat → List Term → Nat → Prop where
  | nil {k : Nat} : PushesAll c slots env [] k [] k
  | cons {t : Tree} {ts : List Tree} {u : Term} {us : List Term} {k k' k'' : Nat}
      (h : Pushes c slots env t k u k') (hs : PushesAll c slots env ts k' us k'') :
      PushesAll c slots env (t :: ts) k (u :: us) k''

end

theorem Chunk.PushesAll.length_eq {c : Chunk} {slots : Program.Slots} {env : Array Slot} :
    ∀ {ts : List Tree} {us : List Term} {k k' : Nat}, c.PushesAll slots env ts k us k' →
      us.length = ts.length
  | _, _, _, _, .nil => rfl
  | _, _, _, _, .cons _ hs => by rw [List.length_cons, List.length_cons, hs.length_eq]

namespace Program.Slots

variable {slots : Slots} {env : Array Slot} {v v' : Var} {t : Term} {n : UInt16}

/-- The slot of the variable holds the term. -/
def Holds (slots : Slots) (env : Array Slot) (v : Var) (t : Term) : Prop :=
  ∃ n : UInt16, slots[v.id]? = some n ∧ env[n.toNat]? = some (.term t)

/-- Every variable has a slot of its own, and there are that many slots. -/
structure Distinct (slots : Slots) (size : Nat) : Prop where
  /-- No other variable has the slot. -/
  injective : ∀ (i j : Nat) n, slots[i]? = some n → slots[j]? = some n → i = j
  /-- There are that many. -/
  lt : ∀ (i : Nat) n, slots[i]? = some n → n.toNat < size

theorem Holds.unique {u : Term} (h : slots.Holds env v t) (h' : slots.Holds env v u) : t = u := by
  obtain ⟨n, hn, ht⟩ := h
  obtain ⟨n', hn', hu⟩ := h'
  obtain rfl := Option.some.inj (hn.symm.trans hn')
  exact Slot.term.inj (Option.some.inj (ht.symm.trans hu))

/-- A slot that has been written holds what was written. -/
theorem Distinct.holds (h : slots.Distinct env.size) (hn : slots[v.id]? = some n) (t : Term) :
    slots.Holds (env.setIfInBounds n.toNat (.term t)) v t :=
  ⟨n, hn, by rw [Array.getElem?_setIfInBounds_self_of_lt (h.lt _ _ hn)]⟩

/-- The others hold what they held. -/
theorem Distinct.holds_iff (h : slots.Distinct env.size) (hn : slots[v.id]? = some n) (hv : v' ≠ v)
    {u : Term} :
    slots.Holds (env.setIfInBounds n.toNat (.term t)) v' u ↔ slots.Holds env v' u := by
  refine exists_congr fun n' => and_congr_right fun hn' => ?_
  have hne : n.toNat ≠ n'.toNat := fun heq => hv (by
    have := h.injective v'.id v.id n' hn' (UInt16.toNat_inj.mp heq ▸ hn)
    cases v; cases v'; exact congrArg Var.mk this)
  rw [Array.getElem?_setIfInBounds_ne hne]

/-- The slots of the variables hold distinct variables made since there were `n`. -/
structure Fresh (slots : Slots) (env : Array Slot) (n : Nat) (σ : Store) (vs : List Var) : Prop where
  /-- They hold variables made since. -/
  holds : ∀ v ∈ vs, ∃ w, slots.Holds env v (.var w) ∧ n ≤ w.id ∧ w.id < σ.size
  /-- These are distinct. -/
  injective : ∀ v ∈ vs, ∀ v' ∈ vs, ∀ w, slots.Holds env v (.var w) → slots.Holds env v' (.var w) → v = v'

/-- One more variable is made. -/
theorem Fresh.cons {k : Nat} {σ : Store} {vs : List Var} (h : slots.Fresh env k σ vs)
    (hs : slots.Distinct env.size) (hn : slots[v.id]? = some n) (hk : k ≤ σ.size) :
    slots.Fresh (env.setIfInBounds n.toNat (.term (.var σ.fresh.1))) k σ.fresh.2 (v :: vs) := by
  have hnew := hs.holds hn (.var σ.fresh.1)
  -- none of the others is the new one
  have hold {v' w : Var} (hv' : v' ∈ vs) (hne : v' ≠ v)
      (hw : slots.Holds (env.setIfInBounds n.toNat (.term (.var σ.fresh.1))) v' (.var w)) :
      slots.Holds env v' (.var w) ∧ w.id < σ.size := by
    have hw := (hs.holds_iff hn hne).mp hw
    obtain ⟨u, hu, -, hlt⟩ := h.holds v' hv'
    cases hw.unique hu
    exact ⟨hw, hlt⟩
  refine ⟨fun v' hv' => ?_, fun v₁ hv₁ v₂ hv₂ w hw₁ hw₂ => ?_⟩
  · by_cases hne : v' = v
    · subst hne
      exact ⟨_, hnew, hk, by rw [Store.size_fresh]; exact Nat.lt_succ_self _⟩
    · obtain ⟨w, hw, hkw, hlt⟩ := h.holds v' ((List.mem_cons.mp hv').resolve_left hne)
      exact ⟨w, (hs.holds_iff hn hne).mpr hw, hkw, by rw [Store.size_fresh]; exact Nat.lt_succ_of_lt hlt⟩
  · have hmem {v' : Var} (hv' : v' ∈ v :: vs) (hne : v' ≠ v) : v' ∈ vs :=
      (List.mem_cons.mp hv').resolve_left hne
    by_cases h₁ : v₁ = v <;> by_cases h₂ : v₂ = v
    · rw [h₁, h₂]
    · subst h₁
      cases hw₁.unique hnew
      exact absurd (hold (hmem hv₂ h₂) h₂ hw₂).2 (Nat.lt_irrefl _)
    · subst h₂
      cases hw₂.unique hnew
      exact absurd (hold (hmem hv₁ h₁) h₁ hw₁).2 (Nat.lt_irrefl _)
    · exact h.injective v₁ (hmem hv₁ h₁) v₂ (hmem hv₂ h₂) w (hold (hmem hv₁ h₁) h₁ hw₁).1
        (hold (hmem hv₂ h₂) h₂ hw₂).1

end Program.Slots

namespace Activation

variable {ctx : Context} {limit : Nat} {code : Code} {args : Array Term} {s : Symbols} {slots : Program.Slots}
  {env : Array Slot} {hd : Option Chunk.Handler} {stop : Nat}
  {Q : EStateM.Result Interrupt Machine Course → Prop}

/-- The variables of the tree have terms in their slots. -/
def Filled (slots : Program.Slots) (env : Array Slot) (t : Tree) : Prop :=
  ∀ v, .var v ∈ t.nodes → ∃ u, slots.Holds env v u

theorem Filled.arg {tag : Tag} {ts : List Tree} (h : Filled slots env (.compound tag ts)) :
    ∀ t ∈ ts, Filled slots env t := fun t ht v hv => h v (by
  rw [Tree.nodes, List.mem_append]
  exact .inl (Tree.mem_nodesAll.mpr ⟨t, ht, hv⟩))

/-- The code that makes variables fills their slots; with room for an operand per byte there is enough. -/
theorem Spot.makes {n : Nat} :
    ∀ {vs made : List Var} {env : Array Slot} {pc next : Nat} {ops : List Term} {σ : Store} {m : Machine},
    (limit - ops.length < stop - pc → ∀ m', Q (.error (.fault .stackOverflow) m')) →
    code.chunk.StandsVariables slots vs pc next → next ≤ stop → slots.Distinct env.size →
    slots.Fresh env n σ made → n ≤ σ.size → Spot limit code args s σ env ops pc m →
    (∀ σ' env' m', Spot limit code args s σ' env' ops next m' → σ.Extends σ' → σ'.stamps = σ.stamps →
      env'.size = env.size → slots.Fresh env' n σ' (vs.reverse ++ made) → Comes ctx stop Q m') →
    Comes ctx stop Q m
  | [], made, env, pc, next, ops, σ, m, _, hstands, _, _, hmade, _, h, k => by
    rw [Chunk.StandsVariables] at hstands
    subst hstands
    exact k σ env m h (.refl σ) rfl rfl hmade
  | v :: vs, made, env, pc, next, ops, σ, m, hQ, hstands, hle, hs, hmade, hn, h, k => by
    rw [Chunk.StandsVariables] at hstands
    obtain ⟨i, pc₁, pc₂, hi, h₁, h₂, hrest⟩ := hstands
    have hle' := hrest.le
    have hlt := h₁.lt
    have hlt' := h₂.lt
    refine h.comes_forward (n := ops.length) (fun h => hQ (by omega))
      (R := Spot limit code args s σ.fresh.2 env (ops ++ [.var σ.fresh.1]) pc₁) h₁
      (by omega) (fun j m' hj hm' => ?_) fun m₁ hm₁ => ?_
    · cases hj with | createVariable => exact hm'.yields_createVariable
    refine hm₁.comes_forward (n := ops.length) (fun h => hQ (by omega)) (R := Spot limit code args s σ.fresh.2
      (env.setIfInBounds i.toNat (.term (.var σ.fresh.1))) ops pc₂) h₂ (by omega)
      (fun j m' hj hm' => ?_) fun m₂ hm₂ => ?_
    · cases hj with | storeEnvironment =>
        exact (hm'.yields_storeEnvironment (hs.lt _ _ hi)).imp (fun _ _ h => h) fun _ _ h => h.elim
    refine Spot.makes (fun h => hQ (by omega)) hrest hle (by rwa [Array.size_setIfInBounds])
      (hmade.cons hs hi hn)
      (by rw [Store.size_fresh]; omega) hm₂ fun σ' env' m' hm' hext hstamps hsize hfresh => ?_
    refine k σ' env' m' hm' ((Store.Extends.fresh σ).trans hext) hstamps
      (hsize.trans (Array.size_setIfInBounds ..)) ?_
    rwa [List.reverse_cons, List.append_assoc]

mutual

/-- The code of a tree pushes it; with room for an operand per byte there is enough. -/
theorem Spot.builds :
    ∀ {t : Tree} {pc next : Nat} {ops : List Term} {σ : Store} {m : Machine},
    (limit - ops.length < stop - pc → ∀ m', Q (.error (.fault .stackOverflow) m')) →
    code.chunk.Builds slots hd t pc next → next ≤ stop → Filled slots env t → t.Sized s →
    Spot limit code args s σ env ops pc m →
    (∀ u k m', code.chunk.Pushes slots env t σ.stamps u k →
      Spot limit code args s { σ with stamps := k } env (ops ++ [u]) next m' → Comes ctx stop Q m') →
    Comes ctx stop Q m
  | _, pc, next, ops, σ, m, hQ, .var (v := v) hn hi, hle, hv, _, h, k => by
    have hlt := hi.lt
    obtain ⟨u, n, hn', hu⟩ := hv v (by simp [Tree.nodes])
    obtain rfl := Option.some.inj (hn.symm.trans hn')
    refine h.comes_forward (n := ops.length) (fun h => hQ (by omega)) hi hle (fun j m' hj hm' => ?_)
      fun m' hm' => k u σ.stamps m' (.var hn hu) hm'
    cases hj with | pushEnvironment => exact hm'.yields_pushEnvironment hu
  | _, pc, next, ops, σ, m, hQ, .constant ht hi, hle, _, _, h, k => by
    have hlt := hi.lt
    refine h.comes_forward (n := ops.length) (fun h => hQ (by omega)) hi hle
      (R := fun m' => ∃ hc, Spot limit code args s σ env (ops ++ [_]) next m')
      (fun j m' hj hm' => ?_) fun m' ⟨hc, hm'⟩ => k _ σ.stamps m' (.constant ht hc) hm'
    cases hj with
    | pushConstant hn =>
      exact (hm'.yields_pushConstant hn).imp (fun _ _ h => ⟨h.1, Array.mem_of_getElem? hn, h.2⟩)
        fun _ _ h => h
  | .compound tag ts, pc, next, ops, σ, m, hQ, .compound hargs hi, hle, hv, ht, h, k => by
    have hlt := hi.lt
    have hle' := hargs.le
    cases ht with | compound harity hsized =>
    refine Spot.buildsAll hQ hargs (by omega) hv.arg hsized h fun us k' m' hus h' => ?_
    refine h'.comes_forward (n := ops.length) (fun h => hQ (by omega)) hi hle (fun j m'' hj hm'' => ?_)
      fun m'' hm'' => k _ _ m'' (.compound hus) hm''
    cases hj with
    | createCompound hn => exact hm''.yields_createCompound hn (harity.trans hus.length_eq.symm)

/-- The code of trees pushes them; with room for an operand per byte there is enough. -/
theorem Spot.buildsAll :
    ∀ {ts : List Tree} {pc next : Nat} {ops : List Term} {σ : Store} {m : Machine},
    (limit - ops.length < stop - pc → ∀ m', Q (.error (.fault .stackOverflow) m')) →
    code.chunk.BuildsAll slots hd ts pc next → next ≤ stop → (∀ t ∈ ts, Filled slots env t) →
    (∀ t ∈ ts, t.Sized s) → Spot limit code args s σ env ops pc m →
    (∀ us k m', code.chunk.PushesAll slots env ts σ.stamps us k →
      Spot limit code args s { σ with stamps := k } env (ops ++ us) next m' → Comes ctx stop Q m') →
    Comes ctx stop Q m
  | _, pc, _, ops, σ, m, _, .nil, _, _, _, h, k => k [] σ.stamps m .nil (by rwa [List.append_nil])
  | _, pc, next, ops, σ, m, hQ, .cons ht hts, hle, hv, hsized, h, k => by
    rw [List.forall_mem_cons] at hv hsized
    have hlt := ht.lt
    have hle' := hts.le
    refine Spot.builds hQ ht (by omega) hv.1 hsized.1 h fun u k' m' hu h' => ?_
    refine Spot.buildsAll (fun hroom => hQ ?_) hts hle hv.2 hsized.2 h' fun us k'' m'' hus h'' => ?_
    · rw [List.length_append, List.length_singleton] at hroom
      omega
    · refine k (u :: us) k'' m'' (.cons hu hus) ?_
      rwa [List.append_assoc] at h''

end

end Activation

end Resolvent
