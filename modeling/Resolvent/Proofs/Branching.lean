import Resolvent.Proofs.Operating

/-!
# Instructions on the choice stack

Alternatives, cuts, calls and the end of an activation. These instructions look at the choice stack;
what they find there is what the frame says.
-/

namespace Resolvent

namespace Activation

variable {ctx ctx' : Context} {B : Call} {d : Nat} {τ : Trace} {pc next : Nat} {Γ : Frame}
  {bs : List Block} {m : Machine} {α : Type}

/-! ### Unification -/

theorem goes_unify (ctx : Context) (h : Live B d τ pc next Γ bs m) {l : Nat} (hh : Γ.height = l + 2)
    (k : B.Typed { Γ with height := l } next) :
    Yields (perform ctx .unify) m (Goes B d τ) (Breaks B d τ) := by
  rw [perform, yields_bind]
  refine (yields_pop h hh).imp (fun t m₁ h₁ => ?_) fun _ _ h => h.elim
  obtain ⟨ht, h₁, heq₁⟩ := h₁
  rw [yields_bind]
  refine (yields_pop h₁ rfl).imp (fun t' m₂ h₂ => ?_) fun _ _ h => h.elim
  obtain ⟨ht', h₂, heq₂⟩ := h₂
  rw [yields_bind, yields_onWorkspace]
  rw [heq₁, ← heq₂.trans heq₁] at ht
  refine (Engine.yields_unifyInPlace h₂.ready ht' ht ctx.fuel).imp (fun b s hs => ?_) fun e _ he => ?_
  · have h₃ := h₂.later hs.1 hs.2.1 hs.2.2
    cases b with
    | true => exact h₃.goes k
    | false => exact h₃.backs
  · obtain ⟨rfl, htells⟩ := he
    exact h₂.origin.tells.trans htells

/-! ### Alternatives -/

theorem goes_tryMeElse (ctx : Context) (h : Live B d τ pc next Γ bs m)
    (hpc : B.code.chunk.Faces Γ.handlers pc) (hτ : τ.Covers m.workspace) {l : UInt32}
    (hk : ∀ i, Γ.terms i → Γ.keeps i)
    (k : B.Typed Γ.alternative next)
    (kl : B.Typed Γ.alternative l.toNat) :
    Yields (perform ctx (.tryMeElse l)) m (Goes B d τ) (Breaks B d τ) := by
  rw [perform, yields_bind, yields_place h.toRuns kl.lt_size, yields_bind, yields_onWorkspace]
  refine (Engine.yields_pushChoice h.ready (by simp [ChoicePoint.cleanup?])).imp (fun _ s hs => ?_)
    fun _ _ hr => h.breaks_raised hpc hr
  obtain ⟨hl, hp, -, hd⟩ := hs
  refine ⟨pc, next, Γ.alternative, ⟨m.workspace, .alternative l.toNat, Γ.keeps, τ.path⟩ :: bs,
    ⟨h.toRuns.move hd, h.current, h.next, fun t ht => (h.operands t ht).mono hl.symbols,
      Nat.zero_le _, ⟨⟨hl, hp⟩, ?_, fun i hi => (h.frame.terms i hi).later hl, h.frame.size⟩, ?_⟩, k⟩
  · exact .alternative (List.suffix_refl _) (fun _ => rfl) hl (hp ▸ List.prefix_append _ _)
      (fun _ hi => hi) (fun i hi => ⟨hk i hi, h.frame.terms i hi⟩)
      (h.frame.marks.loosen False.elim)
  · exact .alternative h.chain (fun _ hi => hi) hk h.frame (fun i hi _ => hτ i hi) kl

/-- The newest mark of a frame whose heights are known is an alternative on top. -/
theorem Live.alternative_top {keeps terms : Nat → Prop} {ms : List Mark}
    (h : Live B d τ pc next Γ bs m) (hm : Γ.marks = .alternative keeps terms :: ms) (he : Γ.exact) :
    ∃ bs' t r, bs = ⟨t, .alternative r, keeps, τ.path⟩ :: bs' ∧ t.Later m.workspace ∧
      m.workspace.points = t.points ++ [⟨t.mark, .alternative r⟩] ∧ B.Tops bs' t ∧
      (∀ i, keeps i → Γ.keeps i) ∧
      B.Matches m.activation.slots ⟨ms, False, keeps, terms, Γ.size, 0⟩ τ.path bs' t ∧
      (∀ i, terms i → keeps i) ∧ Chain B m.activation.slots τ.memory keeps bs' ∧
      Recalls τ.memory t t τ.path := by
  have hmarks := h.frame.marks
  rw [hm] at hmarks
  cases hmarks with
  | @alternative _ _ _ _ _ _ bs' _ t _ r _ hbs _ _ hk ht hms =>
    obtain rfl := hbs he
    obtain ⟨hl, hp⟩ := h.frame.tops
    have hchain := h.chain
    cases hchain with
    | alternative below _ _ hmatch hr _ =>
      refine ⟨bs', t, r, rfl, hl, hp, hmatch.tops, hk, ⟨hmatch.tops, hms, fun i hi => (ht i hi).2,
        h.frame.size⟩, fun i hi => (ht i hi).1, below, hr⟩

theorem goes_retryMeElse (ctx : Context) (h : Live B d τ pc next Γ bs m) {l : UInt32}
    {keeps terms : Nat → Prop} {ms : List Mark} (hm : Γ.marks = .alternative keeps terms :: ms)
    (he : Γ.exact) (k : B.Typed Γ next)
    (kl : B.Typed (.resumed keeps terms ms Γ.size) l.toNat) :
    Yields (perform ctx (.retryMeElse l)) m (Goes B d τ) (Breaks B d τ) := by
  obtain ⟨bs', t, r, rfl, hl, hp, htops, hk, hmatch, ht, hchain, hr⟩ := h.alternative_top hm he
  rw [perform, yields_bind, yields_place h.toRuns kl.lt_size, yields_bind, yields_onWorkspace,
    Engine.yields_top?, hp, List.getLast?_concat]
  simp only [yields_bind, yields_onWorkspace]
  refine (Engine.yields_setTop (q := ⟨t.mark, .alternative l.toNat⟩) h.ready hp rfl rfl rfl).imp
    (fun _ s hs => ?_) fun _ _ h => h.elim
  obtain ⟨hl', hp', hd⟩ := hs
  have hl := hl.trans hl'
  refine ⟨pc, next, Γ, ⟨t, .alternative l.toNat, keeps, τ.path⟩ :: bs', ⟨h.toRuns.move hd,
    h.current, h.next, fun t ht => (h.operands t ht).mono hl'.symbols, h.height, ⟨⟨hl, hp'⟩, ?_,
      fun i hi => (h.frame.terms i hi).later hl', h.frame.size⟩, ?_⟩, k⟩
  · rw [hm]
    exact .alternative (List.suffix_refl _) (fun _ => rfl) hl (hp' ▸ List.prefix_append _ _) hk
      (fun i hi => ⟨ht i hi, hmatch.terms i hi⟩) hmatch.marks
  · exact .alternative hchain hk ht hmatch hr kl

theorem goes_trustMe (ctx : Context) (h : Live B d τ pc next Γ bs m)
    {keeps terms : Nat → Prop} {ms : List Mark} (hm : Γ.marks = .alternative keeps terms :: ms)
    (he : Γ.exact)
    (k : B.Typed { Γ with marks := ms, exact := False } next) :
    Yields (perform ctx .trustMe) m (Goes B d τ) (Breaks B d τ) := by
  obtain ⟨bs', t, r, rfl, hl, hp, htops, hk, hmatch, -, hchain, -⟩ := h.alternative_top hm he
  rw [perform, yields_bind, yields_onWorkspace, Engine.yields_top?, hp, List.getLast?_concat]
  simp only [yields_bind, yields_onWorkspace]
  refine (Engine.yields_pop_later h.ready hp rfl).imp (fun _ s hs => ?_) fun _ _ h => h.elim
  obtain ⟨hl', hp', -, hd⟩ := hs
  refine ⟨pc, next, { Γ with marks := ms, exact := False }, bs', ⟨h.toRuns.move hd, h.current,
    h.next, fun t ht => (h.operands t ht).mono hl'.symbols, h.height,
    ⟨htops.later (hl.trans hl') hp', ?_, fun i hi => (h.frame.terms i hi).later hl', h.frame.size⟩,
    hchain.widen hk⟩,
    k⟩
  exact (hmatch.marks.same (hl.trans hl') hp').widen hk

/-! ### Barriers -/

/-- A barrier is saved. -/
theorem goes_saveCut (ctx : Context) (h : Live B d τ pc next Γ bs m) {n : UInt16}
    {hd : Option Chunk.Handler} (hn : n.toNat < Γ.size) (hk : ¬Γ.keeps n.toNat)
    (ht : ∀ i, Γ.terms i → Γ.keeps i)
    (hh : ∀ k ∈ hd, k.slot = n ∧ k ∈ B.code.chunk.handlers ∧
      B.Typed { Γ.barrier n none with height := 1 } k.target.toNat)
    (k : B.Typed (Γ.barrier n hd) next) :
    Yields (perform ctx (.saveCut n)) m
      (Goes B d { τ with path := hd.toList.map (⟨·, m.workspace⟩) ++ τ.path }) fun _ _ => False := by
  rw [perform, yields_bind, yields_onWorkspace, Engine.yields_height, yields_bind,
    yields_onWorkspace]
  refine (Engine.yields_mark h.ready).imp (fun b s hs => ?_) fun _ _ h => h.elim
  obtain ⟨rfl, hs⟩ := hs
  have h' := h.stays hs
  rw [yields_bind, yields_store h' hn]
  have hw := h'.write (v := .barrier ⟨m.workspace.points.length, m.workspace.mark⟩) (T := Γ.terms) hk
    fun i hi => .inl ⟨fun heq => hk (heq ▸ ht i hi), hi⟩
  have hslot : (m.activation.slots.setIfInBounds n.toNat
      (.barrier ⟨m.workspace.points.length, m.workspace.mark⟩))[n.toNat]? =
      some (.barrier ⟨m.workspace.points.length, m.workspace.mark⟩) := by
    rw [Array.getElem?_setIfInBounds_self, if_pos (h.frame.size ▸ hn)]
  have hother (i : Nat) (hi : Γ.keeps i) : (m.activation.slots.setIfInBounds n.toNat
      (.barrier ⟨m.workspace.points.length, m.workspace.mark⟩))[i]? = m.activation.slots[i]? :=
    Array.getElem?_setIfInBounds_ne fun heq : n.toNat = i => hk (heq ▸ hi)
  refine ⟨pc, next, Γ.barrier n hd, bs, ⟨hw.toRuns, hw.current, hw.next, hw.operands, Nat.zero_le _,
    ⟨hw.frame.tops, ?_, hw.frame.terms, hw.frame.size⟩, hw.chain.widen fun _ hi => .inl hi⟩, k⟩
  have hsize : (m.activation.slots.setIfInBounds n.toNat
      (.barrier ⟨m.workspace.points.length, m.workspace.mark⟩)).size = Γ.size :=
    Array.size_setIfInBounds.trans h.frame.size
  refine .barrier (List.suffix_refl _) (fun _ => rfl) h.frame.tops hs.1.toOwes
    (hs.1.points ▸ List.prefix_refl _) ⟨.inr rfl, hk⟩ hslot (fun _ hi => .inl hi)
    (fun i hi => ⟨ht i hi, (h.frame.terms i hi).of_slots (hother i (ht i hi))⟩)
    h.chain.keeps_head (fun k hk => ⟨(hh k hk).1, (hh k hk).2.1, ?_⟩) ?_
  · rw [hsize]
    exact (hh k hk).2.2
  · exact h.frame.marks.of_slots Array.size_setIfInBounds hother

/-- What lies above a barrier is cut off; the guards stay open. -/
theorem goes_cut (hctx : ctx.Disciplined ctx') (h : Live B d τ pc next Γ bs m) {n : UInt16}
    {above ms : List Mark} {hd : Option Chunk.Handler} {exact : Prop} {keeps terms : Nat → Prop}
    (hm : Γ.marks = above ++ .barrier n hd exact keeps terms :: ms)
    (ha : ∀ m ∈ above, m.handler? = none)
    (k : B.Typed { Γ with marks := .barrier n hd exact keeps terms :: ms, exact := True } next) :
    Agree (perform ctx (.cut n)) (perform ctx' (.cut n)) m (Goes B d τ) (Breaks B d τ) := by
  have hmarks := h.frame.marks
  rw [hm] at hmarks
  have hmarks := hmarks.drop ha
  generalize hpath : τ.path = path at hmarks
  cases hmarks with
  | @barrier _ _ _ _ _ _ path bs' _ t _ _ _ hbs _ htops hl hp hn hslot hk ht hb hh hms =>
  have hchain := h.chain.suffix hbs
  obtain ⟨-, hbottom⟩ := hchain.reaches htops
  have hmax : max t.points.length m.activation.entry = t.points.length := by
    have hle := hbottom.length_le
    rw [List.length_append, List.length_singleton] at hle
    rw [h.entry]
    exact Nat.max_eq_left hle
  -- the workspace once the blocks above are cut off
  have hgo {s : Workspace} (hls : m.workspace.Later s) (hps : s.points = t.points)
      (hds : s.engine.depth = m.workspace.engine.depth) :
      Live B d τ pc next { Γ with marks := .barrier n hd exact keeps terms :: ms, exact := True } bs'
        { m with workspace := s } := by
    have hts := hl.trans hls
    refine ⟨h.toRuns.move hds, h.current, h.next, fun t ht => (h.operands t ht).mono hls.symbols,
      h.height, ⟨htops.later hts hps, ?_, fun i hi => (h.frame.terms i hi).later hls, h.frame.size⟩,
      hchain⟩
    rw [hpath]
    exact .barrier (List.suffix_refl _) (fun _ => rfl) htops hts (hps ▸ List.prefix_refl _) hn hslot
      hk ht hb hh hms
  rw [perform, perform]
  refine .bind_same ((yields_barrier hslot).mpr (.bind_same (yields_get.mpr (.bind_same ?_))))
  rw [yields_onWorkspace, hmax]
  refine (Engine.yields_cutTo h.ready t.points.length).imp (fun goals s hs => ?_) fun _ _ h => h.elim
  obtain ⟨hgoals, howes, hps, -, hds⟩ := hs
  obtain ⟨rest, hrest⟩ := hp
  rw [← hrest, List.take_left] at hps
  split
  · rename_i hnone
    rw [List.isEmpty_iff.mp hnone] at howes
    exact .of_yields ((hgo howes hps hds).goes k)
  · -- the goals cut off are run before the activation goes on
    have hcleared {s' : Workspace} (hs' : s.Clears goals s') := hgo (howes.clear hs')
      (hs'.points.trans hps) (hs'.depth.trans hds)
    refine .bind (agree_onWorkspace (m := ⟨s, m.activation⟩)
      ((hctx.cleanups goals s howes.ready hgoals).imp (fun _ s' hs' => ?_) fun e s' he => ?_))
      (fun _ _ h => h) fun _ _ h => h
    · exact .of_yields ((hcleared hs').goes k)
    · obtain ⟨rfl, htells⟩ | ⟨i, rfl, hs'⟩ := he
      · exact (h.origin.tells.trans howes.tells).trans htells
      · exact (hcleared hs'.1).breaks_halted i

/-! ### Calls -/

/-- A callee that has answered leaves the activation with a retry point more, as it was, or about to
go back. -/
theorem goes_proceed {s : Workspace} {callee : Callee} {args : Array Term} {a : Answer}
    (hr : Runs B d m) (hnext : m.activation.next = next) (hcur : m.activation.current = pc)
    (hops : ∀ t ∈ m.activation.operands, t.Fits m.workspace.symbols)
    (hchain : Chain B m.activation.slots τ.memory Γ.keeps bs)
    (hm : B.Matches m.activation.slots Γ τ.path bs s) (hk : ∀ i, Γ.terms i → Γ.keeps i)
    (hτ : τ.Covers s) (k : B.Typed { Γ with exact := False, height := 0 } next)
    (hpc : B.code.chunk.Faces Γ.handlers pc)
    (hfits : callee.Fits s.database args) (ha : callee.Answered args s d a m.workspace) :
    Yields (proceed callee args next pc a) m (Goes B d τ) (Breaks B d τ) := by
  obtain ⟨hd, ha⟩ := ha
  cases a with
  | more =>
    obtain ⟨hl, hp⟩ := ha.reaches
    rw [proceed, yields_bind, yields_onWorkspace]
    refine (Engine.yields_pushChoice hl.ready (by simp [ChoicePoint.cleanup?])).imp
      (fun _ t ht => ?_) fun e t ht => ?_
    · obtain ⟨hlt, hpt, -, hdt⟩ := ht
      have hst := hl.trans hlt
      have hps := hp.trans (hpt ▸ List.prefix_append _ _)
      refine ⟨pc, next, { Γ with exact := False, height := 0 },
        ⟨m.workspace, .retry callee args next pc, Γ.keeps, τ.path⟩ :: bs, ⟨hr.move hdt, hcur,
          hnext, fun t ht => (hops t ht).mono hlt.symbols, Nat.zero_le _,
          ⟨⟨hlt, hpt⟩, hm.marks.above hst hps (List.suffix_cons _ _) False.elim,
            fun i hi => (hm.terms i hi).later hst, hm.size⟩, ?_⟩, k⟩
      exact .retry hchain (fun _ hi => hi) hk hm (fun i hi _ => hτ i hi) k hpc.handler hpc.covers
        hfits hl hp ha
    · obtain ⟨x, rfl, hx, hs⟩ := ht
      refine ⟨hx, .of_matches (hr.move hs.2) hchain hm (hl.trans hs.1.toOwes) ?_ ?_⟩
      · exact hp.trans (hs.1.points ▸ List.prefix_refl _)
      · exact hcur ▸ hpc
  | last =>
    obtain ⟨hl, hp⟩ := ha
    exact ⟨pc, next, { Γ with exact := False, height := 0 }, bs, ⟨hr, hcur, hnext, hops, Nat.zero_le _,
      ⟨hm.tops.later hl hp, (hm.marks.same hl hp).loosen False.elim,
        fun i hi => (hm.terms i hi).later hl, hm.size⟩, hchain⟩, k⟩
  | fail => exact ⟨hr, Γ.keeps, bs, hchain, hm.tops.same ha⟩

theorem goes_call (hctx : ctx.Disciplined ctx') (h : Live B d τ pc next Γ bs m)
    (hpc : B.code.chunk.Faces Γ.handlers pc)
    (hτ : τ.Covers m.workspace) {n : UInt16} {t : Tag} {a : Nat}
    (hn : B.code.chunk.tags[n.toNat]? = some t) (ha : B.origin.symbols.HasArity t a)
    (hh : a ≤ Γ.height) (hk : ∀ i, Γ.terms i → Γ.keeps i)
    (k : B.Typed { Γ with exact := False, height := 0 } next) :
    Agree (perform ctx (.call n)) (perform ctx' (.call n)) m (Goes B d τ) (Breaks B d τ) := by
  have ha : m.workspace.symbols.HasArity t a := ha.mono h.origin.symbols
  have hle : m.workspace.database.terms.symbols.arity t ≤ a := ha.arity_le
  rw [perform, perform, call, call]
  refine .bind_same ?_
  rw [find, yields_bind, yields_tag h.toRuns hn, yields_bind, yields_get, yields_bind]
  refine (yields_popMany h (n := 0) (by omega)).imp (fun args m₁ h₁ => ?_) fun _ _ h => h.elim
  obtain ⟨hargs, hsize, h₁, heq⟩ := h₁
  rw [yields_bind, yields_get, yields_onWorkspace]
  have hsites := (h₁.callee.sound.mono h₁.origin.grows.retains).sites n.toNat t hn
  rw [← heq] at ha hsize
  rw [h₁.code]
  refine (Engine.yields_look h₁.ready hsites ha hargs hsize).imp (fun r s hs => ?_)
    fun _ _ hr => h₁.breaks_raised hpc hr
  cases r with
  | none => exact .of_yields (h₁.stays hs.1).backs
  | some found =>
    obtain ⟨callee, args'⟩ := found
    have hfits := hs.2 callee args' rfl
    -- the call is told of before it is made
    have ht := hs.1.trans (hs.1.1.ready.stays_told (e := .invoked callee args' false) trivial rfl rfl)
    have h₂ := h₁.stays ht
    have hcovers : τ.Covers (s.note (.of (.invoked callee args' false))) := fun i hi => hτ i (by
      rw [ht.1.points, heq] at hi
      exact hi)
    refine .bind (agree_onWorkspace (m := ⟨s, m₁.activation⟩) (agree_invoke
      ((hctx.call callee args' _ ht.1.ready hfits).imp (fun a s' ha => ?_) fun e s' he => ?_)))
      (fun _ _ h => h) fun _ _ h => h
    · refine .of_yields (yields_bind.mpr (yields_get.mpr ?_))
      have hr : Runs B d ⟨s', m₁.activation⟩ := h₂.toRuns.move ha.1
      dsimp only
      rw [h₁.next, h₁.current]
      exact goes_proceed hr h₂.next h₂.current (fun t ht => (h₂.operands t ht).mono ha.later.symbols)
        h₂.chain h₂.frame hk hcovers k hpc hfits (h₂.depth ▸ ha)
    · exact h₂.breaks_stopped hpc he

/-! ### The end -/

theorem goes_leave (ctx : Context) (h : Live B d τ pc next Γ bs m)
    (hpc : B.code.chunk.Faces Γ.handlers pc) (hh : Γ.handlers = []) :
    Yields (perform ctx .leave) m (Goes B d τ) (Breaks B d τ) := by
  obtain ⟨horigin, hbottom⟩ := h.chain.reaches h.frame.tops
  have hready := h.ready
  have hlen := hbottom.length_le
  rw [List.length_append, List.length_singleton] at hlen
  have hpath : τ.path = [] := by
    have hmap := h.frame.marks.handlers
    rw [← Frame.handlers, hh] at hmap
    exact List.map_eq_nil_iff.mp hmap
  rw [perform, leave, yields_bind, yields_onWorkspace, Engine.yields_height, yields_bind, yields_get,
    h.entry, Call.bottom, if_neg (by omega)]
  split
  · -- nothing is left above the entry
    rename_i heq
    have hpoints := hbottom.eq_of_length (by simpa using heq.symm)
    rw [yields_bind, yields_onWorkspace]
    refine (Engine.yields_pop_later hready hpoints.symm rfl).imp (fun _ s hs => ?_)
      fun _ _ h => h.elim
    obtain ⟨hl, hp, -, hd⟩ := hs
    exact ⟨⟨hd.trans h.depth, horigin.trans hl, hp⟩, by simp⟩
  · rename_i hne
    have hsome : bs ≠ [] := by
      rintro rfl
      refine hne ?_
      rw [h.frame.tops.2, List.length_append, List.length_singleton]
    rw [yields_bind, yields_modifyGet, yields_bind, yields_onWorkspace]
    refine (Engine.yields_pushChoice hready (by simp [ChoicePoint.cleanup?])).imp (fun _ s hs => ?_)
      fun e s hr => ?_
    · obtain ⟨hl, hp, -, hd⟩ := hs
      have hexited : B.Exited τ.memory s := ⟨_, _, _, _, h.chain, h.frame.tops, hsome, hl, hp⟩
      exact ⟨⟨hd.trans h.depth, hexited.suspended⟩, fun _ => hexited⟩
    · obtain ⟨x, rfl, hx, hs⟩ := hr
      refine ⟨hx, ⟨⟨h.code, h.args, h.entry, hs.2.trans h.depth, h.callee⟩, horigin.trans
        hs.1.toOwes, hs.1.points ▸ hbottom, fun g hg => ?_, ?_⟩⟩
      · rw [hpath] at hg
        exact absurd hg List.not_mem_nil
      · have hnone : B.code.chunk.handlerFor? m.activation.current = none := by
          rw [h.current, hpc.handler, hh]
          rfl
        dsimp only
        rw [hnone]
        exact hpath

end Activation

end Resolvent
