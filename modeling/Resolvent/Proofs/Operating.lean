import Resolvent.Proofs.Discipline

/-!
# Instructions on operands and slots

An instruction that works on operands and slots leads a `Live` activation to one in the frame that
the typing of the code has behind it, unless there are too many operands. It neither looks at the
choice stack nor at how calls are made.
-/

namespace Resolvent

namespace Activation

variable {B : Call} {d : Nat} {τ : Trace} {pc next : Nat} {Γ : Frame} {bs : List Block} {m : Machine}
  {α : Type} {Q : α → Machine → Prop} {E : Interrupt → Machine → Prop}

/-! ### Parts of instructions -/

theorem mem_of_mem_extract {a : α} {xs : Array α} {i j : Nat} (h : a ∈ xs.extract i j) : a ∈ xs := by
  rw [← Array.mem_toList_iff, Array.toList_extract, List.extract_eq_take_drop] at h
  exact Array.mem_toList_iff.mp (List.mem_of_mem_drop (List.mem_of_mem_take h))

theorem mem_of_mem_pop {a : α} {xs : Array α} (h : a ∈ xs.pop) : a ∈ xs := by
  rw [← Array.mem_toList_iff, Array.toList_pop, List.dropLast_eq_take] at h
  exact Array.mem_toList_iff.mp (List.mem_of_mem_take h)

theorem yields_orFault {f : Fault} {o : Option α} {a : α} (h : o = some a) :
    Yields (orFault f o) m Q E ↔ Q a m := by
  subst h
  exact Iff.rfl

theorem yields_update {f : Activation → Activation} {Q : Unit → Machine → Prop} :
    Yields (update f) m Q E ↔ Q () { m with activation := f m.activation } :=
  Iff.rfl

theorem yields_push (h : Live B d τ pc next Γ bs m)
    (hpc : B.code.chunk.Faces Γ.handlers pc) {t : Term}
    (ht : t.Fits m.workspace.symbols) : Yields (push t) m
      (fun _ m' => Live B d τ pc next { Γ with height := Γ.height + 1 } bs m' ∧
        m'.workspace = m.workspace) (Breaks B d τ) := by
  unfold push Yields
  dsimp only
  split
  · rename_i heq
    split at heq
    · cases heq
      refine ⟨h.operate (fun t' ht' => ?_) ?_, rfl⟩
      · obtain ht' | rfl := Array.mem_push.mp ht'
        · exact h.operands t' ht'
        · exact ht
      · rw [Array.size_push]
        exact Nat.succ_le_succ h.height
    · cases heq
  · rename_i heq
    split at heq
    · cases heq
    · cases heq
      exact h.breaks_fault hpc

theorem yields_pop (h : Live B d τ pc next Γ bs m) {n : Nat} (hh : Γ.height = n + 1) :
    Yields pop m (fun t m' => t.Fits m'.workspace.symbols ∧
      Live B d τ pc next { Γ with height := n } bs m' ∧ m'.workspace = m.workspace)
      fun _ _ => False := by
  have hsize := h.height
  have hpos : m.activation.operands.size - 1 < m.activation.operands.size := by omega
  unfold pop Yields
  dsimp only
  rw [Array.back?_eq_getElem?, Array.getElem?_eq_getElem hpos]
  refine ⟨h.operands _ (Array.getElem_mem hpos), h.operate (fun t ht => ?_) ?_, rfl⟩
  · exact h.operands t (mem_of_mem_pop ht)
  · rw [Array.size_pop]
    omega

theorem yields_popMany (h : Live B d τ pc next Γ bs m) {n k : Nat} (hh : n + k ≤ Γ.height) :
    Yields (popMany k) m (fun ts m' => (∀ t ∈ ts, t.Fits m'.workspace.symbols) ∧ ts.size = k ∧
      Live B d τ pc next { Γ with height := n } bs m' ∧ m'.workspace = m.workspace)
      fun _ _ => False := by
  have hsize := h.height
  unfold popMany Yields
  dsimp only
  rw [if_pos (show k ≤ m.activation.operands.size by omega)]
  refine ⟨fun t ht => ?_, ?_, h.operate (fun t ht => ?_) ?_, rfl⟩
  · exact h.operands t (mem_of_mem_extract ht)
  · rw [Array.size_extract]
    omega
  · rw [Array.shrink_eq_take] at ht
    exact h.operands t (mem_of_mem_extract ht)
  · rw [Array.size_shrink]
    omega

theorem yields_tag (h : Runs B d m) {n : UInt16} {t : Tag}
    (hn : B.code.chunk.tags[n.toNat]? = some t) {Q : Tag → Machine → Prop} :
    Yields (tag n) m Q E ↔ Q t m := by
  rw [tag, yields_bind, yields_get, yields_orFault (by rw [h.code, hn])]

theorem yields_place (h : Runs B d m) {l : UInt32} (hl : l.toNat < B.code.chunk.code.size)
    {Q : Nat → Machine → Prop} : Yields (place l) m Q E ↔ Q l.toNat m := by
  rw [place, yields_bind, yields_get, if_pos (h.code ▸ hl), yields_pure]

theorem yields_slotTerm (h : Live B d τ pc next Γ bs m) {n : UInt16} (hn : Γ.terms n.toNat) :
    Yields (slotTerm n) m (fun t m' => t.Fits m.workspace.symbols ∧ m' = m) fun _ _ => False := by
  obtain ⟨t, ht, hfits⟩ := h.frame.terms _ hn
  rw [slotTerm, yields_bind, yields_get]
  simp only [ht]
  exact ⟨hfits, rfl⟩

theorem yields_barrier {n : UInt16} {b : Barrier}
    (hn : m.activation.slots[n.toNat]? = some (.barrier b)) {Q : Barrier → Machine → Prop} :
    Yields (barrier n) m Q E ↔ Q b m := by
  rw [barrier, yields_bind, yields_get]
  simp only [hn]
  exact Iff.rfl

/-- A slot that is not kept may be written. -/
theorem Live.write (h : Live B d τ pc next Γ bs m) {n : Nat} {v : Slot} {T : Nat → Prop}
    (hk : ¬Γ.keeps n) (hT : ∀ i, T i → i ≠ n ∧ Γ.terms i ∨
      i = n ∧ n < Γ.size ∧ ∃ t, v = .term t ∧ t.Fits m.workspace.symbols) :
    Live B d τ pc next { Γ with terms := T } bs
      { m with activation := { m.activation with
        slots := m.activation.slots.setIfInBounds n v } } := by
  have hsize : (m.activation.slots.setIfInBounds n v).size = m.activation.slots.size :=
    Array.size_setIfInBounds
  have hsame (i : Nat) (hi : i ≠ n) :
      (m.activation.slots.setIfInBounds n v)[i]? = m.activation.slots[i]? :=
    Array.getElem?_setIfInBounds_ne (Ne.symm hi)
  have hkeeps (i : Nat) (hi : Γ.keeps i) :
      (m.activation.slots.setIfInBounds n v)[i]? = m.activation.slots[i]? :=
    hsame i fun heq => hk (heq ▸ hi)
  refine ⟨⟨h.code, h.args, h.entry, h.depth, h.callee⟩, h.current, h.next, h.operands,
    h.height, ⟨h.frame.tops, h.frame.marks.of_slots hsize hkeeps, fun i hi => ?_,
      hsize.trans h.frame.size⟩, h.chain.of_slots hsize hkeeps⟩
  obtain ⟨hne, hi⟩ | ⟨rfl, hlt, t, rfl, ht⟩ := hT i hi
  · exact (h.frame.terms i hi).of_slots (hsame i hne)
  · refine ⟨t, ?_, ht⟩
    rw [Array.getElem?_setIfInBounds_self, if_pos (h.frame.size ▸ hlt)]

theorem yields_store (h : Live B d τ pc next Γ bs m) {n : UInt16} {v : Slot}
    (hn : n.toNat < Γ.size) {Q : Unit → Machine → Prop} : Yields (store n v) m Q E ↔
      Q () { m with activation := { m.activation with
        slots := m.activation.slots.setIfInBounds n.toNat v } } := by
  unfold store Yields
  dsimp only
  rw [if_pos (h.frame.size ▸ hn)]

/-! ### Instructions -/

/-- The activation goes on with the next instruction. -/
theorem Live.goes (h : Live B d τ pc next Γ bs m)
    (k : B.Typed Γ next) : Goes B d τ .forward m :=
  ⟨pc, next, Γ, bs, h, k⟩

section Instructions

variable (ctx : Context) (h : Live B d τ pc next Γ bs m)
  (hpc : B.code.chunk.Faces Γ.handlers pc)

include h hpc

/-- A pushed term has the activation go on. -/
theorem goes_push {t : Term} (ht : t.Fits m.workspace.symbols)
    (k : B.Typed { Γ with height := Γ.height + 1 } next) :
    Yields (push t >>= fun _ => pure Course.forward) m (Goes B d τ) (Breaks B d τ) := by
  rw [yields_bind]
  refine (yields_push h hpc ht).imp (fun _ m' hm' => ?_) fun _ _ h => h
  exact hm'.1.goes k

theorem goes_pushConstant {n : UInt16} {t : Term}
    (hn : B.code.chunk.constants[n.toNat]? = some t) (ht : t.Fits B.origin.symbols)
    (k : B.Typed { Γ with height := Γ.height + 1 } next) :
    Yields (perform ctx (.pushConstant n)) m (Goes B d τ) (Breaks B d τ) := by
  rw [perform, yields_bind, yields_get, yields_bind, yields_orFault (by rw [h.code, hn])]
  exact goes_push h hpc (ht.mono h.origin.symbols) k

theorem goes_pushArgument {n : UInt16} (hn : n < B.code.chunk.arity)
    (k : B.Typed { Γ with height := Γ.height + 1 } next) :
    Yields (perform ctx (.pushArgument n)) m (Goes B d τ) (Breaks B d τ) := by
  have hlt : n.toNat < B.args.size :=
    Nat.lt_of_lt_of_le (UInt16.lt_iff_toNat_lt.mp hn) (h.callee.size _ rfl)
  rw [perform, yields_bind, yields_get, yields_bind,
    yields_orFault (by rw [h.args]; exact Array.getElem?_eq_getElem hlt)]
  exact goes_push h hpc ((h.callee.fits _ (Array.getElem_mem hlt)).mono h.origin.symbols) k

theorem goes_pushEnvironment {n : UInt16} (hn : Γ.terms n.toNat)
    (k : B.Typed { Γ with height := Γ.height + 1 } next) :
    Yields (perform ctx (.pushEnvironment n)) m (Goes B d τ) (Breaks B d τ) := by
  rw [perform, yields_bind]
  refine (yields_slotTerm h hn).imp (fun t m' ht => ?_) fun _ _ h => h.elim
  obtain ⟨ht, rfl⟩ := ht
  exact goes_push h hpc ht k

theorem goes_createVariable
    (k : B.Typed { Γ with height := Γ.height + 1 } next) :
    Yields (perform ctx .createVariable) m (Goes B d τ) (Breaks B d τ) := by
  rw [perform, yields_bind, yields_onWorkspace]
  refine (Engine.yields_onTerms_of_extending h.ready Universe.extending_fresh).imp
    (fun v s hs => ?_) fun _ _ h => h.elim
  exact goes_push (h.stays hs.1) hpc (.var v) k

theorem goes_createCompound {n : UInt16} {t : Tag} {a l : Nat}
    (hn : B.code.chunk.tags[n.toNat]? = some t) (ha : B.origin.symbols.HasArity t a)
    (hh : Γ.height = l + a)
    (k : B.Typed { Γ with height := l + 1 } next) :
    Yields (perform ctx (.createCompound n)) m (Goes B d τ) (Breaks B d τ) := by
  rw [perform, yields_bind, yields_tag h.toRuns hn, yields_bind, yields_get, yields_bind]
  have ha : m.workspace.symbols.HasArity t a := ha.mono h.origin.symbols
  have hle : m.workspace.database.terms.symbols.arity t ≤ a := ha.arity_le
  refine (yields_popMany h (n := l) (by omega)).imp (fun ts m' hm' => ?_) fun _ _ h => h.elim
  obtain ⟨hts, hsize, h', heq⟩ := hm'
  have hready := h'.ready
  rw [yields_bind, yields_onWorkspace]
  refine (Engine.yields_onTerms_of_extending hready (Universe.extending_compound t ts.toList)).imp
    (fun u s hs => ?_) fun _ _ h => h.elim
  refine goes_push (h'.stays hs.1) hpc ?_ k
  rw [hs.2.1, Workspace.symbols, hs.2.2]
  refine Universe.fits_compound ?_ fun a ha => hts a (Array.mem_toList_iff.mp ha)
  rw [Array.length_toList, hsize]
  rw [← heq] at ha
  exact heq ▸ ha.hasArity_arity

omit hpc in
theorem goes_allocate {n : UInt16} (hm : Γ.marks = []) (he : Γ.exact)
    (ht : ∀ i, ¬Γ.terms i)
    (k : B.Typed { Γ with size := n.toNat } next) :
    Yields (perform ctx (.allocate n)) m (Goes B d τ) (Breaks B d τ) := by
  rw [perform, yields_bind, yields_update]
  have hmarks := h.frame.marks
  rw [hm] at hmarks
  generalize hpath : τ.path = path at hmarks
  cases hmarks with | nil hbs =>
  obtain rfl := hbs he
  refine ⟨pc, next, { Γ with size := n.toNat }, [], ⟨⟨h.code, h.args, h.entry, h.depth, h.callee⟩,
    h.current, h.next, h.operands, h.height, ⟨h.frame.tops, ?_, fun i hi => (ht i hi).elim,
      Array.size_replicate⟩, .nil⟩, k⟩
  rw [hm, hpath]
  exact .nil fun _ => rfl

omit hpc in
theorem goes_storeEnvironment {n : UInt16} {l : Nat} (hh : Γ.height = l + 1) (hn : n.toNat < Γ.size)
    (hk : ¬Γ.keeps n.toNat)
    (k : B.Typed
      { Γ with terms := fun i => Γ.terms i ∨ i = n.toNat, height := l } next) :
    Yields (perform ctx (.storeEnvironment n)) m (Goes B d τ) (Breaks B d τ) := by
  rw [perform, yields_bind]
  refine (yields_pop h hh).imp (fun t m' hm' => ?_) fun _ _ h => h.elim
  obtain ⟨ht, h', heq⟩ := hm'
  rw [yields_bind, yields_store h' hn]
  refine (h'.write (T := fun i => Γ.terms i ∨ i = n.toNat) hk fun i hi => ?_).goes k
  by_cases hin : i = n.toNat
  · exact .inr ⟨hin, hn, t, rfl, ht⟩
  · exact .inl ⟨hin, hi.resolve_right hin⟩

omit hpc in
theorem goes_jump {l : UInt32} (k : B.Typed Γ l.toNat) :
    Yields (perform ctx (.jump l)) m (Goes B d τ) (Breaks B d τ) := by
  rw [perform, yields_bind, yields_place h.toRuns k.lt_size, yields_bind, yields_update]
  exact ⟨pc, l.toNat, Γ, bs, ⟨⟨h.code, h.args, h.entry, h.depth, h.callee⟩, h.current, rfl,
    h.operands, h.height, h.frame, h.chain⟩, k⟩

omit hpc in
theorem goes_succeed (k : B.Typed Γ next) :
    Yields (perform ctx .succeed) m (Goes B d τ) (Breaks B d τ) :=
  h.goes k

omit hpc in
theorem goes_fail : Yields (perform ctx .fail) m (Goes B d τ) (Breaks B d τ) :=
  h.backs

theorem goes_raise {l : Nat} (hh : Γ.height = l + 1) :
    Yields (perform ctx .raise) m (Goes B d τ) (Breaks B d τ) := by
  rw [perform, yields_bind]
  refine (yields_pop h hh).imp (fun t m' hm' => ?_) fun _ _ h => h.elim
  obtain ⟨ht, h', heq⟩ := hm'
  rw [yields_bind, yields_onWorkspace]
  show Yields _ m' _ _
  split
  · rw [yields_onWorkspace]
    exact (Engine.yields_raise h'.ready (e := .instantiation) trivial _).imp (fun _ _ h => h)
      fun _ _ hr => h'.breaks_raised hpc hr
  · rename_i hvar
    rw [yields_onWorkspace]
    exact (Engine.yields_throwTerm h'.ready ht hvar _).imp (fun _ _ h => h)
      fun _ _ hr => h'.breaks_raised hpc hr

end Instructions

end Activation

end Resolvent
