import Resolvent.Proofs.Footing

/-!
# Activations on another footing

An activation that runs on a higher footing has a higher entry, and its barriers tell greater heights
(`Activation.raise`); apart from that it does the same, step by step (`Footing.Moves.step`), and so
does its run. Below its entry it does not look, wherever its code may lead it: it cuts and handles balls
above its entry only, and its entry is no alternative that the code could take away.
-/

namespace Resolvent

variable {α β : Type}

/-- The activation, where the choice stack is higher by `n`. -/
def Activation.raise (n : Nat) (a : Activation) : Activation :=
  { a with slots := a.slots.map (Slot.raise n), entry := a.entry + n }

/-- The calls end alike on another footing. -/
structure Context.Level (ctx : Context) : Prop where
  /-- Calls. -/
  call : ∀ {F : Footing} {s t : Workspace} (callee : Callee) (args : Array Term), F.Stands [] s t →
    Parallel F.Limited (ctx.invoke callee args false) (ctx.invoke callee args false) s t F.Answered F.Ended
  /-- Calls for another solution. -/
  redo : ∀ {F : Footing} {l : List ChoicePoint} {s t : Workspace} (callee : Callee) (args : Array Term),
    l ≠ [] → F.Stands l s t → Parallel F.Limited (ctx.invoke callee args true)
      (ctx.invoke callee args true) s t F.Answered F.Ended
  /-- Cleanup goals. -/
  cleanups : ∀ {F : Footing} {l : List ChoicePoint} {s t : Workspace} (goals : List Term),
    F.Stands l s t → Parallel F.Limited (ctx.runCleanups goals) (ctx.runCleanups goals) s t
      (F.Agrees l) fun e s' t' => e ≠ .spent → F.Stands l s' t'
  /-- Faults. -/
  report : ∀ {F : Footing} {l : List ChoicePoint} {s t : Workspace} (f : Fault), F.Stands l s t →
    Surely F.Limited (ctx.report f) (ctx.report f) s t (F.Agrees l) F.Ended
  /-- What they do is told. -/
  tracing : Effect.tracing.Calls ctx

/-- Calls forget nothing. -/
theorem Context.Level.telling {ctx : Context} (h : ctx.Level) : Effect.telling.Calls ctx :=
  Effect.calls_telling h.tracing

namespace Footing

variable (F : Footing)

/-- A limit has not allowed the second activation what was to be done. -/
def LimitedIn (m : Machine) : Prop :=
  F.Limited m.workspace

/-- The two activations have come equally far, with the given choice points above their entries. -/
structure Moves (l : List ChoicePoint) (m m' : Machine) : Prop where
  /-- The searches. -/
  stands : F.Stands l m.workspace m'.workspace
  /-- The activations. -/
  activation : m'.activation = m.activation.raise F.shift
  /-- The entry of the first one is on the top of the footing. -/
  entry : m.activation.entry = F.lower.length

/-- Both activations have given the same, and have come equally far. -/
def AgreesIn (l : List ChoicePoint) (a b : α) (m m' : Machine) : Prop :=
  a = b ∧ F.Moves l m m'

/-- Both activations have been interrupted, and have come equally far if this was not for want of fuel. -/
def Interrupted (i : Interrupt) (m m' : Machine) : Prop :=
  i ≠ .stop .spent → ∃ l, F.Moves l m m'

/-- Both activations go on in the same way. -/
def Goes (e : ChoicePoint) (c c' : Course) (m m' : Machine) : Prop :=
  c = c' ∧ match c with
    | .answer a => ∃ l, F.Stands l m.workspace m'.workspace ∧ (a = .more → l ≠ [])
    | _ => ∃ l, (F.above [e]).Moves l m m'

variable {F} {l : List ChoicePoint} {m m' : Machine}

theorem excusedIn {x : MachineM α} (hx : Effect.telling.AllowsIn x) : Excused F.LimitedIn x := by
  refine fun t ht => (hx t).imp (fun _ _ h => ht.later h.2) fun i _ h => ht.later ?_
  cases i <;> exact h.2

/-- Steps of the engines, seen from the activations. -/
theorem beside_onWorkspace {M L : Workspace → Prop} {x : EngineM α} {y : EngineM β}
    {Q : α → β → Workspace → Workspace → Prop} {E : Stop → Workspace → Workspace → Prop}
    (hx : Beside M L x y m.workspace m'.workspace Q E) :
    Beside (fun n => M n.workspace) (fun n => L n.workspace) (Activation.onWorkspace x)
      (Activation.onWorkspace y) m m'
      (fun a b n n' => ∃ s t, Q a b s t ∧ n = ⟨s, m.activation⟩ ∧ n' = ⟨t, m'.activation⟩)
      fun i n n' => ∃ e s t, i = .stop e ∧ E e s t ∧ n = ⟨s, m.activation⟩ ∧ n' = ⟨t, m'.activation⟩ := by
  refine Activation.yields_onWorkspace.mpr (Yields.imp hx ?_ ?_)
  · rintro b t' (hm | ⟨a, s', hx, hq⟩)
    · exact .inl hm
    · exact .inr ⟨a, ⟨s', m.activation⟩, by simp only [Activation.onWorkspace, hx], s', t', hq, rfl, rfl⟩
  · rintro e t' (hl | ⟨s', hx, he⟩)
    · exact .inl hl
    · exact .inr ⟨⟨s', m.activation⟩, by simp only [Activation.onWorkspace, hx], e, s', t', rfl, he, rfl,
        rfl⟩

/-- Steps of the engines that throw nothing. -/
theorem surely_onWorkspace {L : Workspace → Prop} {x : EngineM α} {y : EngineM β}
    {Q : α → β → Workspace → Workspace → Prop} {E : Interrupt → Machine → Machine → Prop}
    (hx : Surely L x y m.workspace m'.workspace Q fun _ _ _ => False) :
    Surely (fun n => L n.workspace) (Activation.onWorkspace x) (Activation.onWorkspace y) m m'
      (fun a b n n' => ∃ s t, Q a b s t ∧ n = ⟨s, m.activation⟩ ∧ n' = ⟨t, m'.activation⟩) E :=
  (beside_onWorkspace hx).imp (fun _ _ _ _ h => h) fun _ _ _ ⟨_, _, _, _, he, _⟩ => he.elim

namespace Moves

variable (h : F.Moves l m m')

include h

theorem interrupted (i : Interrupt) : F.Interrupted i m m' :=
  fun _ => ⟨l, h⟩

/-- The searches have gone on alike. -/
theorem work {k : List ChoicePoint} {s t : Workspace} (hs : F.Stands k s t) :
    F.Moves k ⟨s, m.activation⟩ ⟨t, m'.activation⟩ :=
  ⟨hs, h.activation, h.entry⟩

theorem interrupted_of_ended {e : Stop} {s t : Workspace} (he : F.Ended e s t) :
    F.Interrupted (.stop e) ⟨s, m.activation⟩ ⟨t, m'.activation⟩ := by
  intro hne
  obtain ⟨k, hk⟩ := he fun heq => hne (congrArg _ heq)
  exact ⟨k, h.work hk⟩

theorem onWorkspace {k : List ChoicePoint} {x y : EngineM α}
    (hx : Surely F.Limited x y m.workspace m'.workspace (F.Agrees k) F.Ended) :
    Surely F.LimitedIn (Activation.onWorkspace x) (Activation.onWorkspace y) m m' (F.AgreesIn k)
      F.Interrupted := by
  refine (beside_onWorkspace hx).imp (fun a b n n' hq => ?_) fun i n n' hi => ?_
  · obtain ⟨s, t, ⟨hab, hs⟩, rfl, rfl⟩ := hq
    exact ⟨hab, h.work hs⟩
  · obtain ⟨e, s, t, rfl, he, rfl, rfl⟩ := hi
    exact h.interrupted_of_ended he

theorem fault (f : Fault) {Q : α → β → Machine → Machine → Prop} :
    Surely F.LimitedIn (Activation.fault f : MachineM α) (Activation.fault f : MachineM β) m m' Q
      F.Interrupted :=
  .throw (h.interrupted _)

theorem orFault (f : Fault) (o : Option α) : Surely F.LimitedIn (Activation.orFault f o)
    (Activation.orFault f o) m m' (F.AgreesIn l) F.Interrupted := by
  cases o with
  | none => exact h.fault f
  | some a => exact .pure ⟨rfl, h⟩

/-- The activations go on alike. -/
theorem set {a : Activation} (ha : a.entry = m.activation.entry) :
    F.Moves l ⟨m.workspace, a⟩ ⟨m'.workspace, a.raise F.shift⟩ :=
  ⟨h.stands, rfl, ha.trans h.entry⟩

theorem update {f : Activation → Activation}
    (hf : ∀ a n, f (a.raise n) = (f a).raise n ∧ (f a).entry = a.entry) :
    Surely F.LimitedIn (Activation.update f) (Activation.update f) m m' (F.AgreesIn l) F.Interrupted := by
  obtain ⟨s, a⟩ := m
  obtain ⟨t, a'⟩ := m'
  obtain rfl : a' = _ := h.activation
  refine .of_ok rfl rfl ⟨rfl, ?_⟩
  rw [(hf a F.shift).1]
  exact h.set (hf a 0).2

theorem push (t : Term) : Surely F.LimitedIn (Activation.push t) (Activation.push t) m m'
    (F.AgreesIn l) F.Interrupted := by
  obtain ⟨s, a⟩ := m
  obtain ⟨s', a'⟩ := m'
  obtain rfl : a' = _ := h.activation
  by_cases hroom : a.operands.size < s.engine.config.maxOperands
  · have hroom' : a.operands.size < s'.engine.config.maxOperands := h.stands.config ▸ hroom
    refine .of_ok (if_pos hroom) (if_pos hroom') ⟨rfl, ?_⟩
    exact h.set (a := { a with operands := a.operands.push t }) rfl
  · have hroom' : ¬a.operands.size < s'.engine.config.maxOperands := h.stands.config ▸ hroom
    refine .of_error (if_neg hroom) (if_neg hroom') fun _ => ⟨l, ?_⟩
    exact ⟨h.stands.note _ _, rfl, h.entry⟩

theorem pop : Surely F.LimitedIn Activation.pop Activation.pop m m' (F.AgreesIn l) F.Interrupted := by
  obtain ⟨s, a⟩ := m
  obtain ⟨s', a'⟩ := m'
  obtain rfl : a' = _ := h.activation
  cases hback : a.operands.back? with
  | some t =>
    have hback' : (a.raise F.shift).operands.back? = some t := hback
    have hs : Activation.pop ⟨s, a⟩ = .ok t ⟨s, { a with operands := a.operands.pop }⟩ := by
      simp only [Activation.pop, hback]
    have hs' : Activation.pop ⟨s', a.raise F.shift⟩ =
        .ok t ⟨s', { a.raise F.shift with operands := a.operands.pop }⟩ := by
      simp only [Activation.pop, hback']
      rfl
    exact .of_ok hs hs' ⟨rfl, h.set (a := { a with operands := a.operands.pop }) rfl⟩
  | none =>
    have hback' : (a.raise F.shift).operands.back? = none := hback
    have hs : Activation.pop ⟨s, a⟩ = .error (.fault .stackUnderflow) ⟨s, a⟩ := by
      simp only [Activation.pop, hback]
    have hs' : Activation.pop ⟨s', a.raise F.shift⟩ =
        .error (.fault .stackUnderflow) ⟨s', a.raise F.shift⟩ := by
      simp only [Activation.pop, hback']
    exact .of_error hs hs' (h.interrupted _)

theorem popMany (n : Nat) : Surely F.LimitedIn (Activation.popMany n) (Activation.popMany n) m m'
    (F.AgreesIn l) F.Interrupted := by
  obtain ⟨s, a⟩ := m
  obtain ⟨s', a'⟩ := m'
  obtain rfl : a' = _ := h.activation
  by_cases hn : n ≤ a.operands.size
  · refine .of_ok (if_pos hn) (if_pos hn) ⟨rfl, ?_⟩
    exact h.set (a := { a with operands := a.operands.shrink (a.operands.size - n) }) rfl
  · exact .of_error (if_neg hn) (if_neg hn) (h.interrupted _)

theorem store (n : UInt16) (v : Slot) : Surely F.LimitedIn (Activation.store n v)
    (Activation.store n (v.raise F.shift)) m m' (F.AgreesIn l) F.Interrupted := by
  obtain ⟨s, a⟩ := m
  obtain ⟨s', a'⟩ := m'
  obtain rfl : a' = _ := h.activation
  have hsize : (a.raise F.shift).slots.size = a.slots.size := Array.size_map
  by_cases hn : n.toNat < a.slots.size
  · refine .of_ok (if_pos hn) (if_pos (hsize.symm ▸ hn)) ⟨rfl, h.stands, ?_, h.entry⟩
    simp only [Activation.raise, Array.map_setIfInBounds]
  · exact .of_error (if_neg hn) (if_neg (hsize.symm ▸ hn)) (h.interrupted _)

/-- What a slot holds. -/
theorem slot (n : Nat) : m'.activation.slots[n]? = (m.activation.slots[n]?).map (Slot.raise F.shift) := by
  rw [h.activation]
  exact Array.getElem?_map

theorem barrier (n : UInt16) : Surely F.LimitedIn (Activation.barrier n) (Activation.barrier n) m m'
    (fun a b n n' => b = ⟨a.height + F.shift, a.mark⟩ ∧ F.Moves l n n') F.Interrupted := by
  unfold Activation.barrier
  refine .get_bind ?_
  rw [h.slot n.toNat]
  cases m.activation.slots[n.toNat]? with
  | none => exact .of_error rfl rfl (h.interrupted _)
  | some v =>
    cases v with
    | barrier b => exact .of_ok rfl rfl ⟨rfl, h⟩
    | _ => exact .of_error rfl rfl (h.interrupted _)

theorem slotTerm (n : UInt16) : Surely F.LimitedIn (Activation.slotTerm n) (Activation.slotTerm n) m m'
    (F.AgreesIn l) F.Interrupted := by
  unfold Activation.slotTerm
  refine .get_bind ?_
  rw [h.slot n.toNat]
  cases m.activation.slots[n.toNat]? with
  | none => exact .of_error rfl rfl (h.interrupted _)
  | some v =>
    cases v with
    | term t => exact .of_ok rfl rfl ⟨rfl, h⟩
    | _ => exact .of_error rfl rfl (h.interrupted _)

theorem code : m'.activation.code = m.activation.code := by
  rw [h.activation]
  rfl

theorem place (target : UInt32) : Surely F.LimitedIn (Activation.place target) (Activation.place target)
    m m' (F.AgreesIn l) F.Interrupted := by
  refine .get_bind ?_
  rw [h.code]
  split
  · exact .pure ⟨rfl, h⟩
  · exact h.fault _

theorem tag (n : UInt16) : Surely F.LimitedIn (Activation.tag n) (Activation.tag n) m m' (F.AgreesIn l)
    F.Interrupted := by
  refine .get_bind ?_
  rw [h.code]
  exact h.orFault _ _

end Moves

/-! ### Calls -/

theorem Stands.findCallee {s t : Workspace} (h : F.Stands l s t) (site : Nat) (tag : Tag)
    (args : Array Term) : Surely F.Limited (Activation.findCallee site tag args)
      (Activation.findCallee site tag args) s t (F.Agrees l) F.Ended := by
  refine .get_bind (.get_bind ?_)
  rw [h.database]
  split
  · exact .pure ⟨rfl, h⟩
  refine (h.onDatabase _).bind fun r _ s' t' h' => ?_
  obtain ⟨rfl, h'⟩ := h'
  cases r with
  | callee callee =>
    refine Surely.bind (Q := F.Agrees l) (.of_ok rfl rfl ⟨rfl, ?_⟩) fun _ _ _ _ h'' =>
      .pure ⟨rfl, h''.2⟩
    exact h'.change fun d =>
      { d with sites := d.sites.setIfInBounds site (tag, .ofCallee s.database.generation callee) }
  | control =>
    refine (h'.onDatabase _).bind fun r _ _ _ h'' => ?_
    obtain ⟨rfl, h''⟩ := h''
    exact .pure ⟨rfl, h''⟩
  | undefined =>
    refine .get_bind ?_
    rw [h'.unknownPolicy]
    split
    · exact .pure ⟨rfl, h'⟩
    · refine (h'.onTerms _).bind fun x _ _ _ h'' => ?_
      obtain ⟨rfl, h''⟩ := h''
      exact .throw (h''.ended _)

theorem Stands.look {s t : Workspace} (h : F.Stands l s t) (site : Nat) (tag : Tag)
    (args : Array Term) : Surely F.Limited (Activation.look site tag args)
      (Activation.look site tag args) s t (F.Agrees l) F.Ended := by
  refine Activation.yields_look.mpr (Yields.imp (h.findCallee site tag args) ?_ ?_)
  · rintro r t' (hl | ⟨_, s', hx, rfl, h'⟩)
    · exact hl.elim
    · exact .inr ⟨_, _, by rw [Activation.look, hx], rfl, h'.note _ _⟩
  · rintro e t' (hl | ⟨s', hx, hended⟩)
    · exact .inl (hl.later (Effect.telling_note t' _))
    · refine .inr ⟨_, by rw [Activation.look, hx], fun hne => ?_⟩
      obtain ⟨k, hk⟩ := hended hne
      exact ⟨k, hk.note _ _⟩

/-- What a call on top of the choice points has answered. -/
theorem Answered.below {s t : Workspace} {a b : Answer} (h : (F.above l).Answered a b s t)
    (hl : Stacked F.lower.length l) : F.Answered a b s t := by
  obtain ⟨hab, k, hk, hmore⟩ := h
  exact ⟨hab, l ++ k, hk.below hl, fun ha => List.append_ne_nil_of_right_ne_nil _ (hmore ha)⟩

theorem Ended.below {s t : Workspace} {e : Stop} (h : (F.above l).Ended e s t)
    (hl : Stacked F.lower.length l) : F.Ended e s t := fun hne =>
  have ⟨_, hk⟩ := h hne
  ⟨_, hk.below hl⟩

variable {ctx : Context} (hctx : ctx.Level)

include hctx

/-- A callee is called. -/
theorem Stands.call {s t : Workspace} (h : F.Stands l s t) (callee : Callee) (args : Array Term) :
    Parallel F.Limited (Activation.invoke ctx callee args false)
      (Activation.invoke ctx callee args false) s t F.Answered F.Ended := by
  refine (h.tell _).bind fun _ _ s' t' h' => ?_
  exact (hctx.call callee args h'.2.onTop).imp (fun _ _ _ _ ha => ha.below h'.2.stacked)
    fun _ _ _ he => he.below h'.2.stacked

/-- A callee is asked for another solution. -/
theorem Stands.redo {s t : Workspace} (h : F.Stands l s t) (hl : l ≠ []) (callee : Callee)
    (args : Array Term) : Parallel F.Limited (Activation.invoke ctx callee args true)
      (Activation.invoke ctx callee args true) s t F.Answered F.Ended :=
  (h.tell _).bind fun _ _ _ _ h' => hctx.redo callee args hl h'.2

omit hctx

variable {e : ChoicePoint} {k : List ChoicePoint}

/-- An activation makes a choice point and goes on. -/
theorem Moves.pushChoice (h : (F.above [e]).Moves k m m') {kind : ChoiceKind}
    (hkind : ∀ n, Stacked (F.above [e]).lower.length (k ++ [⟨n, kind⟩])) :
    Surely (F.above [e]).LimitedIn
      (Activation.onWorkspace (Engine.pushChoice kind) >>= fun _ => pure Course.forward)
      (Activation.onWorkspace (Engine.pushChoice (kind.raise F.shift)) >>= fun _ => pure Course.forward)
      m m' (F.Goes e) (F.above [e]).Interrupted := by
  refine Surely.bind (surely_onWorkspace (h.stands.pushChoice hkind)) ?_
  rintro _ _ _ _ ⟨s, t, ⟨n, hn⟩, rfl, rfl⟩
  exact .pure ⟨rfl, _, h.work hn⟩

/-- A last step, after which the activations go on with the next instruction. -/
theorem forward {x y : MachineM α} {k : List ChoicePoint}
    (hx : Surely (F.above [e]).LimitedIn x y m m' ((F.above [e]).AgreesIn k) (F.above [e]).Interrupted) :
    Surely (F.above [e]).LimitedIn (x >>= fun _ => pure Course.forward)
      (y >>= fun _ => pure Course.forward) m m' (F.Goes e) (F.above [e]).Interrupted :=
  hx.bind fun _ _ _ _ h => .pure ⟨rfl, k, h.2⟩

theorem Moves.proceed (h : (F.above [e]).Moves k m m') (callee : Callee) (args : Array Term)
    (resume callAt : Nat) {a : Answer} (ha : a = .more → k ≠ []) :
    Surely (F.above [e]).LimitedIn (Activation.proceed callee args resume callAt a)
      (Activation.proceed callee args resume callAt a) m m' (F.Goes e) (F.above [e]).Interrupted := by
  cases a with
  | more => exact h.pushChoice fun n => h.stands.stacked.retry (p := ⟨n, _⟩) (ha rfl) rfl
  | last => exact .pure ⟨rfl, k, h⟩
  | fail => exact .pure ⟨rfl, k, h⟩

theorem Moves.find (h : F.Moves l m m') (n : UInt16) : Surely F.LimitedIn (Activation.find n)
    (Activation.find n) m m' (F.AgreesIn l) F.Interrupted := by
  refine (h.tag n).bind fun tag _ m₁ m₁' h₁ => ?_
  obtain ⟨rfl, h₁⟩ := h₁
  refine .get_bind ?_
  rw [h₁.stands.database]
  refine (h₁.popMany _).bind fun args _ m₂ m₂' h₂ => ?_
  obtain ⟨rfl, h₂⟩ := h₂
  refine .get_bind ?_
  rw [h₂.code]
  exact h₂.onWorkspace (h₂.stands.look _ _ _)

/-- That nothing is forgotten where a callee has answered. -/
theorem telling_proceed (callee : Callee) (args : Array Term) (resume callAt : Nat) (a : Answer) :
    Effect.telling.AllowsIn (Activation.proceed callee args resume callAt a) :=
  Effect.lawful_telling.proceed Effect.telling_pushChoice callee args resume callAt a

/-- A callee has been called, or asked for another solution. -/
theorem Moves.answered (h : F.Moves l m m') {s t : Workspace} {a b : Answer} (ha : F.Answered a b s t) :
    a = b ∧ ∃ k, F.Moves k ⟨s, m.activation⟩ ⟨t, m'.activation⟩ ∧ (a = .more → k ≠ []) := by
  obtain ⟨hab, k, hk, hmore⟩ := ha
  exact ⟨hab, k, h.work hk, hmore⟩

theorem Moves.parallel_onWorkspace (h : F.Moves l m m') {x y : EngineM α}
    {Q : α → α → Workspace → Workspace → Prop}
    (hx : Parallel F.Limited x y m.workspace m'.workspace Q F.Ended) :
    Parallel F.LimitedIn (Activation.onWorkspace x) (Activation.onWorkspace y) m m'
      (fun a b n n' => ∃ s t, Q a b s t ∧ n = ⟨s, m.activation⟩ ∧ n' = ⟨t, m'.activation⟩)
      F.Interrupted := by
  refine Beside.imp (beside_onWorkspace hx) (fun _ _ _ _ h => h) fun i n n' hi => ?_
  obtain ⟨e, s, t, rfl, he, rfl, rfl⟩ := hi
  exact h.interrupted_of_ended he

include hctx

omit hctx in
/-- The newest choice point is looked at: the entry, or one above it. -/
theorem Moves.top? (h : (F.above [e]).Moves k m m') (he : e.kind.Lone)
    {E : Interrupt → Machine → Machine → Prop} :
    Surely (F.above [e]).LimitedIn (Activation.onWorkspace Engine.top?)
      (Activation.onWorkspace Engine.top?) m m'
      (fun a b n n' => (∃ p, a = some p ∧ b = some (p.raise F.shift) ∧
        (k = [] ∧ p = e ∨ ∃ k', k = k' ++ [p])) ∧ n = m ∧ n' = m') E := by
  have hlone : Stacked F.lower.length [e] := Stacked.nil.lone (p := e) he
  obtain rfl | ⟨k', p, rfl⟩ := List.eq_nil_or_concat' k
  · refine (surely_onWorkspace ((h.stands.below hlone).top? (k := []) rfl)).imp ?_ fun _ _ _ h => h
    rintro a b _ _ ⟨_, _, ⟨ha, hb, rfl, rfl⟩, rfl, rfl⟩
    exact ⟨⟨e, ha, hb, .inl ⟨rfl, rfl⟩⟩, rfl, rfl⟩
  · refine (surely_onWorkspace (h.stands.top? rfl)).imp ?_ fun _ _ _ h => h
    rintro a b _ _ ⟨_, _, ⟨ha, hb, rfl, rfl⟩, rfl, rfl⟩
    exact ⟨⟨p, ha, hb, .inr ⟨k', rfl⟩⟩, rfl, rfl⟩

/-- Cleanup goals are run. -/
theorem Moves.cleanups (h : F.Moves l m m') (goals : List Term) :
    Parallel F.LimitedIn (Activation.onWorkspace (ctx.runCleanups goals))
      (Activation.onWorkspace (ctx.runCleanups goals)) m m' (F.AgreesIn l) F.Interrupted := by
  refine (h.parallel_onWorkspace ((hctx.cleanups goals h.stands).imp (fun _ _ _ _ h => h)
    fun _ _ _ hended hne => ⟨_, hended hne⟩)).imp ?_ fun _ _ _ h => h
  rintro a b _ _ ⟨s, t, ⟨hab, hs⟩, rfl, rfl⟩
  exact ⟨hab, h.work hs⟩

theorem Moves.call (h : (F.above [e]).Moves k m m') (n : UInt16) :
    Parallel (F.above [e]).LimitedIn (Activation.call ctx n) (Activation.call ctx n) m m' (F.Goes e)
      (F.above [e]).Interrupted := by
  refine (h.find n).bind fun r _ m₁ m₁' h₁ => ?_
  obtain ⟨rfl, h₁⟩ := h₁
  cases r with
  | none => exact .pure ⟨rfl, k, h₁⟩
  | some r =>
    obtain ⟨callee, args⟩ := r
    refine (h₁.parallel_onWorkspace (h₁.stands.call hctx callee args)).bind ?_ fun a => excusedIn ?_
    · rintro a b _ _ ⟨s, t, ha, rfl, rfl⟩
      obtain ⟨rfl, k', hk', hmore⟩ := h₁.answered ha
      have hnext : m₁'.activation.next = m₁.activation.next := by rw [h₁.activation]; rfl
      have hcurrent : m₁'.activation.current = m₁.activation.current := by rw [h₁.activation]; rfl
      refine .get_bind ?_
      dsimp only
      rw [hnext, hcurrent]
      exact (hk'.proceed callee args _ _ hmore).beside
    · exact (Effect.AllowsIn.get Effect.lawful_telling).bind Effect.lawful_telling fun m =>
        telling_proceed _ _ _ _ _

theorem Moves.backtrack (h : (F.above [e]).Moves k m m') {code : Code} (he : e.kind = .entry code) :
    Parallel (F.above [e]).LimitedIn (Activation.backtrack ctx) (Activation.backtrack ctx) m m' (F.Goes e)
      (F.above [e]).Interrupted := by
  have hF := Effect.lawful_telling
  have hentry : m'.activation.entry = m.activation.entry + F.shift := by rw [h.activation]; rfl
  rw [Activation.backtrack]
  refine Surely.bind (surely_onWorkspace h.stands.height) ?_
  rintro a b _ _ ⟨s, t, ⟨hb, ha, hs⟩, rfl, rfl⟩
  change b = a + F.shift at hb
  refine .get_bind ?_
  have hlow : ¬a < m.activation.entry := by rw [ha, h.entry]; omega
  have hlow' : ¬b < m'.activation.entry := by rw [hb, hentry]; omega
  dsimp only
  rw [if_neg hlow, if_neg hlow']
  obtain rfl | ⟨k, ⟨n, kind⟩, rfl⟩ := List.eq_nil_or_concat' k
  · -- the entry is the newest choice point
    have hs := hs.below (Stacked.nil.lone (p := e) (by rw [he]; trivial))
    refine Surely.bind (surely_onWorkspace (hs.top? (k := []) rfl)) ?_
    rintro _ _ _ _ ⟨s, t, ⟨rfl, rfl, rfl, rfl⟩, rfl, rfl⟩
    obtain ⟨n, kind⟩ := e
    cases he
    refine Surely.bind (surely_onWorkspace (hs.pop (by simp))) ?_
    rintro _ _ _ _ ⟨s, t, ⟨-, hs⟩, rfl, rfl⟩
    refine Surely.bind (surely_onWorkspace (hs.undoTo n)) ?_
    rintro _ _ _ _ ⟨s, t, ⟨-, hs⟩, rfl, rfl⟩
    exact .pure ⟨rfl, _, hs, by simp⟩
  · have hne : k ++ [⟨n, kind⟩] ≠ [] := by simp
    refine Surely.bind (surely_onWorkspace (hs.top? rfl)) ?_
    rintro _ _ _ _ ⟨s, t, ⟨rfl, rfl, rfl, rfl⟩, rfl, rfl⟩
    by_cases halternative : ∃ resume, kind = .alternative resume
    · obtain ⟨resume, rfl⟩ := halternative
      refine Surely.bind (surely_onWorkspace (hs.undoTo n)) ?_
      rintro _ _ _ _ ⟨s, t, ⟨-, hs⟩, rfl, rfl⟩
      refine Surely.bind ((h.work hs).update fun _ _ => by exact ⟨rfl, rfl⟩) fun _ _ _ _ h' => ?_
      exact .pure ⟨rfl, _, h'.2⟩
    -- the choice point is taken away
    have htake {f g : Unit → MachineM Course}
        (hf : ∀ s t, (F.above [e]).Stands k s t → Parallel (F.above [e]).LimitedIn (f ()) (g ())
          ⟨s, m.activation⟩ ⟨t, m'.activation⟩ (F.Goes e) (F.above [e]).Interrupted) :
        Parallel (F.above [e]).LimitedIn
          (do
            Activation.onWorkspace Engine.pop
            f (← Activation.onWorkspace (Engine.undoTo n)))
          (do
            Activation.onWorkspace Engine.pop
            g (← Activation.onWorkspace (Engine.undoTo n)))
          ⟨s, m.activation⟩ ⟨t, m'.activation⟩ (F.Goes e) (F.above [e]).Interrupted := by
      refine Surely.bind (surely_onWorkspace (hs.pop hne)) ?_
      rintro _ _ _ _ ⟨s, t, ⟨-, hs⟩, rfl, rfl⟩
      refine Surely.bind (surely_onWorkspace (hs.undoTo n)) ?_
      rintro _ _ _ _ ⟨s, t, ⟨-, hs⟩, rfl, rfl⟩
      rw [List.dropLast_concat] at hs
      exact hf s t hs
    cases kind with
    | alternative resume => exact absurd ⟨resume, rfl⟩ halternative
    | entry code' =>
      refine htake fun s t hs => .pure ⟨rfl, _, hs.below ?_, by simp⟩
      exact Stacked.nil.lone (p := e) (by rw [he]; trivial)
    | retry callee args resume callAt =>
      have hne : k ≠ [] := h.stands.stacked.supports
      refine htake fun s t hs => ?_
      refine Surely.bind ((h.work hs).update fun _ _ => by exact ⟨rfl, rfl⟩) ?_
      rintro _ _ m₁ m₁' ⟨-, h₁⟩
      refine (h₁.parallel_onWorkspace (h₁.stands.redo hctx hne callee args)).bind ?_
        fun a => excusedIn (telling_proceed _ _ _ _ _)
      rintro a b _ _ ⟨s, t, ha, rfl, rfl⟩
      obtain ⟨rfl, k', hk', hmore⟩ := h₁.answered ha
      exact (hk'.proceed callee args _ _ hmore).beside
    | cleanup goal =>
      refine htake fun s t hs => ?_
      refine ((h.work hs).cleanups hctx [goal]).bind (fun _ _ _ _ h' => .pure ⟨rfl, _, h'.2⟩)
        fun _ => excusedIn (.pure hF _)
    | native state => exact htake fun s t hs => .pure ⟨rfl, _, h.work hs⟩
    | exit slots height => exact htake fun s t hs => .pure ⟨rfl, _, h.work hs⟩

/-! ### Instructions -/

omit hctx in
theorem Moves.leave (h : (F.above [e]).Moves k m m') {code : Code} (he : e.kind = .entry code) :
    Surely (F.above [e]).LimitedIn Activation.leave Activation.leave m m' (F.Goes e)
      (F.above [e]).Interrupted := by
  have hentry : m'.activation.entry = m.activation.entry + F.shift := by rw [h.activation]; rfl
  have hlone : Stacked F.lower.length [e] := Stacked.nil.lone (p := e) (by rw [he]; trivial)
  refine Surely.bind (surely_onWorkspace h.stands.height) ?_
  rintro a b _ _ ⟨s, t, ⟨hb, ha, hs⟩, rfl, rfl⟩
  change b = a + F.shift at hb
  rw [← h.entry] at ha
  refine .get_bind ?_
  dsimp only
  have hlow : ¬a < m.activation.entry := by omega
  have hlow' : ¬b < m'.activation.entry := by omega
  rw [if_neg hlow, if_neg hlow']
  have hs := hs.below hlone
  obtain rfl | hne := List.eq_nil_or_concat' k
  · have heq : a = m.activation.entry := ha
    have heq' : b = m'.activation.entry := by rw [hb, heq, hentry]
    rw [if_pos heq, if_pos heq']
    refine Surely.bind (surely_onWorkspace (hs.pop (by simp))) ?_
    rintro _ _ _ _ ⟨s, t, ⟨-, hs⟩, rfl, rfl⟩
    exact .pure ⟨rfl, _, hs, by simp⟩
  · have hpos : 0 < k.length := by
      obtain ⟨k, p, rfl⟩ := hne
      simp
    have heq : a ≠ m.activation.entry := by omega
    have heq' : b ≠ m'.activation.entry := by omega
    rw [if_neg heq, if_neg heq']
    -- the slots are put above the entry
    have hstacked (n : Nat) : Stacked F.lower.length
        (([e] ++ k) ++ [⟨n, .exit m.activation.slots m.activation.entry⟩]) := by
      have hk := h.stands.stacked
      have hheight := h.entry
      simp only [above, List.length_append, List.length_singleton] at hk hheight
      exact Stacked.exit .nil hk he (by rw [hheight]; rfl)
    refine Surely.bind (Q := fun a b n n' => a = m.activation.slots ∧
      b = m.activation.slots.map (Slot.raise F.shift) ∧ n.workspace = s ∧ n'.workspace = t)
      (.of_ok rfl rfl ⟨rfl, by rw [h.activation]; rfl, rfl, rfl⟩) ?_
    rintro _ _ ⟨s, _⟩ ⟨t, _⟩ ⟨rfl, rfl, rfl, rfl⟩
    rw [hentry]
    refine Surely.bind (surely_onWorkspace (hs.pushChoice hstacked)) ?_
    rintro _ _ _ _ ⟨s, t, ⟨n, hs⟩, rfl, rfl⟩
    exact .pure ⟨rfl, _, hs, by simp⟩

theorem Moves.perform (h : (F.above [e]).Moves k m m') {code : Code} (he : e.kind = .entry code)
    (i : Instruction UInt16 UInt16 UInt32) : Parallel (F.above [e]).LimitedIn (Activation.perform ctx i)
      (Activation.perform ctx i) m m' (F.Goes e) (F.above [e]).Interrupted := by
  have hgo (c : Course) (hc : ∀ a, c ≠ .answer a) {k : List ChoicePoint} {m m' : Machine}
      (h : (F.above [e]).Moves k m m') : Parallel (F.above [e]).LimitedIn (pure c : MachineM Course)
        (pure c : MachineM Course) m m' (F.Goes e) (F.above [e]).Interrupted := by
    cases c with
    | answer a => exact absurd rfl (hc a)
    | forward => exact .pure ⟨rfl, k, h⟩
    | backward => exact .pure ⟨rfl, k, h⟩
  have hlone : e.kind.Lone := by rw [he]; trivial
  have hoperands : m'.activation.operands = m.activation.operands := by rw [h.activation]; rfl
  have hargs : m'.activation.args = m.activation.args := by rw [h.activation]; rfl
  have hdatabase := h.stands.database
  -- an operand that is pushed if there is one
  have hpush (f : Fault) (o : Option Term) : Surely (F.above [e]).LimitedIn
      (do Activation.push (← Activation.orFault f o); return .forward)
      (do Activation.push (← Activation.orFault f o); return .forward) m m' (F.Goes e)
      (F.above [e]).Interrupted := by
    refine Surely.bind (h.orFault f o) fun t _ _ _ h₁ => ?_
    obtain ⟨rfl, h₁⟩ := h₁
    exact forward (h₁.push t)
  cases i with
  | pop =>
    have hpop : Surely (F.above [e]).LimitedIn (discard Activation.pop) (discard Activation.pop) m m'
        ((F.above [e]).AgreesIn k) (F.above [e]).Interrupted :=
      Beside.map (h.pop.imp (fun _ _ _ _ h => ⟨rfl, h.2⟩) fun _ _ _ h => h)
    exact (forward hpop).beside
  | dup =>
    refine .get_bind ?_
    rw [hoperands]
    exact (hpush _ _).beside
  | pushConstant n =>
    refine .get_bind ?_
    rw [h.code]
    exact (hpush _ _).beside
  | pushArgument n =>
    refine .get_bind ?_
    rw [hargs]
    exact (hpush _ _).beside
  | pushEnvironment n =>
    refine Surely.bind (h.slotTerm n) fun t _ _ _ h₁ => ?_
    obtain ⟨rfl, h₁⟩ := h₁
    exact (forward (h₁.push t)).beside
  | createVariable =>
    refine Surely.bind (h.onWorkspace (h.stands.onTerms _)) fun v _ _ _ h₁ => ?_
    obtain ⟨rfl, h₁⟩ := h₁
    exact (forward (h₁.push _)).beside
  | createCompound n =>
    refine Surely.bind (h.tag n) fun tag _ m₁ m₁' h₁ => ?_
    obtain ⟨rfl, h₁⟩ := h₁
    refine .get_bind ?_
    rw [h₁.stands.database]
    refine Surely.bind (h₁.popMany _) fun args _ m₂ m₂' h₂ => ?_
    obtain ⟨rfl, h₂⟩ := h₂
    refine Surely.bind (h₂.onWorkspace (h₂.stands.onTerms _)) fun t _ _ _ h₃ => ?_
    obtain ⟨rfl, h₃⟩ := h₃
    exact (forward (h₃.push t)).beside
  | allocate n =>
    have hslots (a : Activation) (i : Nat) :
        { a.raise i with slots := Array.replicate n.toNat .empty } =
          ({ a with slots := Array.replicate n.toNat .empty } : Activation).raise i := by
      simp [Activation.raise, Slot.raise]
    exact (forward (h.update (f := fun a => { a with slots := Array.replicate n.toNat .empty })
      fun a i => ⟨hslots a i, rfl⟩)).beside
  | storeEnvironment n =>
    refine Surely.bind h.pop fun t _ _ _ h₁ => ?_
    obtain ⟨rfl, h₁⟩ := h₁
    exact (forward (h₁.store n (.term t))).beside
  | jump l =>
    refine Surely.bind (h.place l) fun target _ _ _ h₁ => ?_
    obtain ⟨rfl, h₁⟩ := h₁
    exact (forward (h₁.update fun _ _ => by exact ⟨rfl, rfl⟩)).beside
  | call n => exact h.call hctx n
  | leave => exact (h.leave he).beside
  | succeed => exact .pure ⟨rfl, k, h⟩
  | unify =>
    refine Surely.bind h.pop fun t _ _ _ h₁ => ?_
    obtain ⟨rfl, h₁⟩ := h₁
    refine Surely.bind h₁.pop fun s _ _ _ h₂ => ?_
    obtain ⟨rfl, h₂⟩ := h₂
    refine Surely.bind (h₂.onWorkspace (h₂.stands.unifyInPlace _ _ _)) fun b _ _ _ h₃ => ?_
    obtain ⟨rfl, h₃⟩ := h₃
    cases b with
    | true => exact .pure ⟨rfl, k, h₃⟩
    | false => exact .pure ⟨rfl, k, h₃⟩
  | tryMeElse l =>
    refine Surely.bind (h.place l) fun target _ _ _ h₁ => ?_
    obtain ⟨rfl, h₁⟩ := h₁
    exact (h₁.pushChoice fun n => h₁.stands.stacked.lone (p := ⟨n, .alternative target⟩) trivial).beside
  | retryMeElse l =>
    refine Surely.bind (h.place l) fun target _ _ _ h₁ => ?_
    obtain ⟨rfl, h₁⟩ := h₁
    refine Surely.bind (h₁.top? hlone) ?_
    rintro _ _ _ _ ⟨⟨⟨n, kind⟩, rfl, rfl, hp⟩, rfl, rfl⟩
    cases kind with
    | alternative l' =>
      obtain ⟨-, rfl⟩ | ⟨k', rfl⟩ := hp
      · cases he
      · exact (forward (h₁.onWorkspace ((h₁.stands.setTop rfl n target).imp (fun _ _ _ _ h => h)
          fun _ _ _ h => h))).beside
    | _ => exact (h₁.fault _).beside
  | trustMe =>
    refine Surely.bind (h.top? hlone) ?_
    rintro _ _ _ _ ⟨⟨⟨n, kind⟩, rfl, rfl, hp⟩, rfl, rfl⟩
    cases kind with
    | alternative l' =>
      obtain ⟨-, rfl⟩ | ⟨k', rfl⟩ := hp
      · cases he
      · exact (forward (h.onWorkspace (h.stands.pop (by simp)))).beside
    | _ => exact (h.fault _).beside
  | fail => exact .pure ⟨rfl, k, h⟩
  | cut n =>
    refine Surely.bind (h.barrier n) fun b _ m₁ m₁' h₁ => ?_
    obtain ⟨rfl, h₁⟩ := h₁
    have hentry : m₁'.activation.entry = m₁.activation.entry + F.shift := by rw [h₁.activation]; rfl
    have hheight : max (b.height + (F.above [e]).shift) m₁'.activation.entry =
        max b.height m₁.activation.entry + (F.above [e]).shift := by
      rw [hentry]
      exact Nat.add_max_add_right ..
    refine .get_bind ?_
    dsimp only
    rw [hheight]
    refine Surely.bind (h₁.onWorkspace (h₁.stands.cutTo (h₁.entry ▸ Nat.le_max_right ..)))
      fun goals _ m₂ m₂' h₂ => ?_
    obtain ⟨rfl, h₂⟩ := h₂
    split
    · exact .pure ⟨rfl, _, h₂⟩
    · exact (h₂.cleanups hctx goals).bind (fun _ _ _ _ h₃ => .pure ⟨rfl, _, h₃.2⟩)
        fun _ => excusedIn (.pure Effect.lawful_telling _)
  | saveCut n =>
    refine Surely.bind (surely_onWorkspace h.stands.height) ?_
    rintro a b _ _ ⟨s, t, ⟨rfl, -, hs⟩, rfl, rfl⟩
    refine Surely.bind ((h.work hs).onWorkspace hs.mark) fun n _ _ _ h₁ => ?_
    obtain ⟨rfl, h₁⟩ := h₁
    exact (forward (h₁.store _ (.barrier ⟨a, n⟩))).beside
  | raise =>
    refine Surely.bind h.pop fun t _ _ _ h₁ => ?_
    obtain ⟨rfl, h₁⟩ := h₁
    refine Surely.bind (h₁.onWorkspace (h₁.stands.deref t)) fun u _ _ _ h₂ => ?_
    obtain ⟨rfl, h₂⟩ := h₂
    -- in either case a ball is thrown
    have hthrow {x : EngineM Course} {m m' : Machine} (h : (F.above [e]).Moves k m m')
        (hx : Surely (F.above [e]).Limited x x m.workspace m'.workspace (fun _ _ _ _ => False)
          (F.above [e]).Ended) : Parallel (F.above [e]).LimitedIn (Activation.onWorkspace x)
            (Activation.onWorkspace x) m m' (F.Goes e) (F.above [e]).Interrupted :=
      (h.parallel_onWorkspace hx.beside).imp (fun _ _ _ _ ⟨_, _, h, _⟩ => h.elim) fun _ _ _ h => h
    split
    · exact hthrow h₂ (h₂.stands.raise _)
    · exact hthrow h₂ (h₂.stands.throwTerm _)

theorem Moves.step (h : (F.above [e]).Moves k m m') {code : Code} (he : e.kind = .entry code)
    {c : Course} (hc : ∀ a, c ≠ .answer a) : Parallel (F.above [e]).LimitedIn (Activation.step ctx c)
      (Activation.step ctx c) m m' (F.Goes e) (F.above [e]).Interrupted := by
  cases c with
  | answer a => exact absurd rfl (hc a)
  | backward => exact h.backtrack hctx he
  | forward =>
    have hnext : m'.activation.next = m.activation.next := by rw [h.activation]; rfl
    refine .get_bind ?_
    dsimp only
    rw [h.code, hnext]
    split
    · refine Surely.bind (h.update fun _ _ => by exact ⟨rfl, rfl⟩) fun _ _ _ _ h₁ => ?_
      exact (h₁.2.fault _).beside
    · refine Surely.bind (h.update fun _ _ => by exact ⟨rfl, rfl⟩) fun _ _ _ _ h₁ => ?_
      exact h₁.2.perform hctx he _

/-! ### Runs -/

/-- The ball has been brought to a handler. -/
def Caught (F : Footing) (e : ChoicePoint) (a b : Activation) (s t : Workspace) : Prop :=
  ∃ k, (F.above [e]).Moves k ⟨s, a⟩ ⟨t, b⟩

omit hctx in
theorem handler?_raise (a : Activation) (n : Nat) : (a.raise n).handler? =
    a.handler?.map fun hb => (hb.1, ⟨hb.2.height + n, hb.2.mark⟩) := by
  have hslot (i : Nat) : (a.raise n).slots[i]? = (a.slots[i]?).map (Slot.raise n) := Array.getElem?_map
  have hfor : (a.raise n).code.chunk.handlerFor? (a.raise n).current =
      a.code.chunk.handlerFor? a.current := rfl
  simp only [Activation.handler?, hslot, hfor]
  cases a.code.chunk.handlerFor? a.current with
  | none => rfl
  | some h =>
    dsimp only
    cases a.slots[h.slot.toNat]? with
    | none => rfl
    | some v => cases v <;> rfl

theorem Moves.handle (h : (F.above [e]).Moves k m m') {code : Code} (he : e.kind = .entry code)
    (x : Exception) : Parallel F.Limited (Activation.handle ctx x m.activation)
      (Activation.handle ctx x m'.activation) m.workspace m'.workspace (F.Caught e) F.Ended := by
  have hF := Effect.lawful_telling
  have hlone : Stacked F.lower.length [e] := Stacked.nil.lone (p := e) (by rw [he]; trivial)
  obtain ⟨s, a⟩ := m
  obtain ⟨t, b⟩ := m'
  obtain rfl : b = a.raise F.shift := h.activation
  rw [Activation.handle, Activation.handle, handler?_raise]
  have hentry : a.entry = F.lower.length + 1 := by
    rw [show a.entry = _ from h.entry, above, List.length_append, List.length_singleton]
  -- cleanup goals are run below the entry, or above it
  have hcleanups {F' : Footing} {l : List ChoicePoint} {s t : Workspace} (hs : F'.Stands l s t)
      (hended : ∀ e s t, F'.Ended e s t → F.Ended e s t) (goals : List Term) :
      Parallel F'.Limited (ctx.runCleanups goals) (ctx.runCleanups goals) s t (F'.Agrees l) F.Ended :=
    (hctx.cleanups goals hs).imp (fun _ _ _ _ h => h) fun e s t hs => hended e s t fun hne => ⟨_, hs hne⟩
  cases hhandler : a.handler? with
  | some hb =>
    obtain ⟨handler, b⟩ := hb
    have hheight : max (b.height + F.shift) (a.raise F.shift).entry = max b.height a.entry + F.shift :=
      Nat.add_max_add_right ..
    simp only [Option.map_some]
    rw [hheight]
    refine Surely.bind (h.stands.cutTo (h.entry ▸ Nat.le_max_right ..)) fun goals _ s₁ t₁ h₁ => ?_
    obtain ⟨rfl, h₁⟩ := h₁
    refine Parallel.bind (hcleanups h₁ (fun _ _ _ he => he.below hlone) goals) (fun _ _ s₂ t₂ h₂ => ?_)
      fun _ => excused ((hF.undoTo _).bind hF fun _ => .pure hF _)
    refine Surely.bind (h₂.2.undoTo b.mark) fun _ _ s₃ t₃ h₃ => .pure ⟨_, h₃.2, rfl, h.entry⟩
  | none =>
    have hpoints : s.engine.choices.get? (a.entry - 1) = some e := by
      have hs := h.stands.points
      rw [hentry, Nat.add_sub_cancel, ChoiceStack.get?, ← Array.getElem?_toList, ← Workspace.points,
        show s.points = _ from hs]
      simp [above]
    have hpoints' : t.engine.choices.get? ((a.raise F.shift).entry - 1) = some (e.raise F.shift) := by
      have ht := h.stands.points'
      have hbottom : (a.raise F.shift).entry - 1 = F.lower'.length := by
        show a.entry + F.shift - 1 = _
        rw [hentry, F.length]
        omega
      rw [hbottom, ChoiceStack.get?, ← Array.getElem?_toList, ← Workspace.points,
        show t.points = _ from ht]
      simp [above]
    have hbottom : (a.raise F.shift).entry - 1 = a.entry - 1 + F.shift := by
      show a.entry + F.shift - 1 = _
      omega
    refine .get_bind ?_
    dsimp only
    rw [hpoints, hpoints', hbottom]
    refine Surely.bind ((h.stands.below hlone).cutTo (by omega)) fun goals _ s₁ t₁ h₁ => ?_
    obtain ⟨rfl, h₁⟩ := h₁
    refine Parallel.bind (hcleanups h₁ (fun _ _ _ he => he) goals) (fun _ _ s₂ t₂ h₂ => ?_)
      fun _ => excused ((hF.undoTo _).bind hF fun _ => .thrown hF _)
    exact Surely.bind (h₂.2.undoTo e.mark) fun _ _ s₃ t₃ h₃ => .throw (h₃.2.ended _)

theorem Moves.settle {i : Interrupt} (h : (F.above [e]).Interrupted i m m') {code : Code}
    (he : e.kind = .entry code) : Parallel F.Limited (Activation.settle ctx i m.activation)
      (Activation.settle ctx i m'.activation) m.workspace m'.workspace (F.Caught e) F.Ended := by
  have hF := Effect.lawful_telling
  have hlone : Stacked F.lower.length [e] := Stacked.nil.lone (p := e) (by rw [he]; trivial)
  have hstop (s : Stop) (hs : i = .stop s) : F.Ended s m.workspace m'.workspace := fun hne =>
    have ⟨_, hk⟩ := h fun heq => hne (by rw [hs] at heq; exact Interrupt.stop.inj heq)
    ⟨_, hk.stands.below hlone⟩
  rcases i with (x | n) | f
  · obtain ⟨k, hk⟩ := h (by simp)
    exact hk.handle hctx he x
  · exact .throw (hstop _ rfl)
  · exact .throw (hstop _ rfl)
  · obtain ⟨k, hk⟩ := h (by simp)
    refine Surely.bind ((hctx.report f hk.stands).imp (fun _ _ _ _ h => h)
      fun _ _ _ h => h.below hlone) fun x _ s₁ t₁ h₁ => ?_
    obtain ⟨rfl, h₁⟩ := h₁
    exact (hk.work h₁).handle hctx he x

omit hctx in
/-- A run that is interrupted goes on, if it does, with what the interrupt comes to. -/
theorem run_of_error {n : Nat} {c : Course} {a : Activation} {s : Workspace} {i : Interrupt}
    {m : Machine} (hc : ∀ b, c ≠ .answer b) (hx : Activation.step ctx c ⟨s.pass, a⟩ = .error i m) :
    Activation.run ctx (n + 1) c a s =
      (Activation.settle ctx i m.activation >>= fun a => Activation.run ctx n .forward a) m.workspace := by
  simp only [Activation.run_succ hc, hx, Bind.bind, EStateM.bind]
  cases Activation.settle ctx i m.activation m.workspace <;> rfl

/-- From a state in which the second run is excused, it goes on to such states. -/
theorem excused_run (n : Nat) (c : Course) (a : Activation) :
    Excused F.Limited (Activation.run ctx n c a) :=
  have hF := Effect.lawful_telling
  excused (hF.run hctx.telling
    (hF.retries (fun _ _ _ s => Effect.telling_note s _) Effect.telling_pushChoice hctx.telling) n c a)

theorem excused_settle (i : Interrupt) (a : Activation) :
    Excused F.Limited (Activation.settle ctx i a) := by
  intro t ht
  have hi : Effect.telling.interrupts i t t := by
    cases i <;> exact List.suffix_refl _
  exact (Effect.lawful_telling.settle hctx.telling a hi).imp (fun _ _ h => ht.later h)
    fun _ _ h => ht.later h

/-- Activations that have come equally far go on alike. -/
theorem Goes.run {code : Code} (he : e.kind = .entry code) (n : Nat) : ∀ {c c' : Course}
    {m m' : Machine}, F.Goes e c c' m m' → Parallel F.Limited (Activation.run ctx n c m.activation)
      (Activation.run ctx n c' m'.activation) m.workspace m'.workspace F.Answered F.Ended := by
  induction n with
  | zero => exact fun _ => .throw fun h => absurd rfl h
  | succ n ih =>
    intro c c' m m' hgoes
    obtain ⟨rfl, h⟩ := hgoes
    by_cases hc : ∃ a, c = .answer a
    · obtain ⟨a, rfl⟩ := hc
      exact .pure ⟨rfl, h⟩
    have hc (a : Answer) : c ≠ .answer a := fun heq => hc ⟨a, heq⟩
    obtain ⟨k, h⟩ : ∃ k, (F.above [e]).Moves k m m' := by
      cases c with
      | answer a => exact absurd rfl (hc a)
      | _ => exact h
    have hpass : (F.above [e]).Moves k ⟨m.workspace.pass, m.activation⟩
        ⟨m'.workspace.pass, m'.activation⟩ := ⟨h.stands.note _ _, h.activation, h.entry⟩
    have hstep := hpass.step hctx he hc
    cases hy : Activation.step ctx c ⟨m'.workspace.pass, m'.activation⟩ with
    | ok c' n' =>
      have hrun := Activation.run_of_ok (n := n) hc hy
      obtain hl | ⟨c'', n₁, hx, hgoes⟩ := yields_ok hstep hy
      · exact .of_excused (by rw [Yields, hrun]; exact excused_run hctx n _ _ _ hl)
      · exact .of_eq (Activation.run_of_ok hc hx) hrun (ih hgoes)
    | error i n' =>
      have hrun := run_of_error (n := n) hc hy
      obtain hl | ⟨n₁, hx, hinterrupted⟩ := yields_error hstep hy
      · refine .of_excused ?_
        rw [Yields, hrun]
        exact yields_bind.mpr ((excused_settle hctx i _ _ hl).imp
          (fun _ t ht => excused_run hctx n _ _ t ht) fun _ _ ht => ht)
      · refine .of_eq (run_of_error hc hx) hrun ?_
        refine Parallel.bind (Moves.settle hctx hinterrupted he) ?_ fun a => excused_run hctx n _ _
        rintro a b s t ⟨k, hk⟩
        exact @ih _ _ ⟨s, a⟩ ⟨t, b⟩ ⟨rfl, k, hk⟩

/-! ### Calls of code -/

/-- Code is called. -/
theorem Stands.start {s t : Workspace} (h : F.Stands [] s t) (code : Code) (args : Array Term) :
    Parallel F.Limited (Activation.start ctx code args) (Activation.start ctx code args) s t F.Answered
      F.Ended := by
  have hlone (n : Nat) : Stacked F.lower.length ([] ++ [⟨n, .entry code⟩]) := Stacked.nil.lone trivial
  refine Surely.bind (h.pushChoice hlone (E := F.Ended)) ?_
  rintro _ _ s₁ t₁ ⟨n, h₁⟩
  refine Surely.bind (h₁.height (E := F.Ended)) ?_
  rintro a _ s₂ t₂ ⟨rfl, ha, h₂⟩
  have hgoes : F.Goes ⟨n, .entry code⟩ .forward .forward
      ⟨s₂, ⟨code, args, 0, 0, #[], #[], a⟩⟩ ⟨t₂, ⟨code, args, 0, 0, #[], #[], a + F.shift⟩⟩ :=
    ⟨rfl, [], h₂.onTop, by simp [Activation.raise], ha.trans List.length_append.symm⟩
  exact hgoes.run hctx rfl _

/-- Code is asked for another solution. -/
theorem Stands.resume {s t : Workspace} (h : F.Stands l s t) (hl : l ≠ []) (code : Code)
    (args : Array Term) : Parallel F.Limited (Activation.resume ctx code args)
      (Activation.resume ctx code args) s t F.Answered F.Ended := by
  obtain ⟨k, ⟨n, kind⟩, rfl⟩ := List.eq_nil_or_concat' l |>.resolve_left hl
  refine Surely.bind (h.top? rfl (E := F.Ended)) ?_
  rintro _ _ _ _ ⟨rfl, rfl, rfl, rfl⟩
  cases kind with
  | exit slots entry =>
    obtain ⟨l, e, l', code', rfl, rfl, he, hl, hl'⟩ := h.stacked.supports
    refine Surely.bind (h.pop (by simp) (E := F.Ended)) fun _ _ s₁ t₁ h₁ => ?_
    rw [List.dropLast_concat] at h₁
    refine Surely.bind (h₁.2.undoTo n (E := F.Ended)) fun _ _ s₂ t₂ h₂ => ?_
    -- the activation stands on what is below its entry
    have hentered : Stacked (F.lower.length + l.length) (e :: l') :=
      .cons (by rw [he]; trivial) hl'
    have habove : (F.above l).Stands ([e] ++ l') s₂ t₂ := h₂.2.above hentered
    have hgoes : (F.above l).Goes e .backward .backward
        ⟨s₂, ⟨code, args, 0, 0, #[], slots, F.lower.length + l.length + 1⟩⟩
        ⟨t₂, ⟨code, args, 0, 0, #[], slots.map (Slot.raise F.shift),
          F.lower.length + l.length + 1 + F.shift⟩⟩ :=
      ⟨rfl, l', habove.above (by simpa using hl'), rfl, by simp; omega⟩
    exact (hgoes.run hctx he _).imp (fun _ _ _ _ h => h.below hl) fun _ _ _ h => h.below hl
  | _ =>
    refine Surely.beside (Surely.bind (hctx.report .noExit h) fun x _ _ _ h' => ?_)
    obtain ⟨rfl, h'⟩ := h'
    exact .throw (h'.ended _)

end Footing

end Resolvent
