import Resolvent.Proofs.Copying
import Resolvent.Proofs.Surroundings

/-!
# Changes of the database

A database is sound at the start (`Database.sound_initial`), and it stays sound when clauses are added,
removed or replaced, when a predicate is not given any more, and when it is given by one of the native
predicates that every database has. So all programs that can be loaded without predicates of the host
lead to sound databases. `Database.Updated` is what such a change keeps besides: the bindings, the symbols
and the call sites, on which the searches that are going on rely.

Added clauses are copies, so what their heads are called does not depend on bindings. Clauses that
replace others are not copied; that their heads are no bound variables is a premise there.
-/

namespace Resolvent

theorem Term.Over.deref_eq {σ : Store} {t : Term} (h : t.Over (σ.value? · = none)) :
    σ.deref t = t := by
  cases h with
  | @var v h =>
    rw [Store.deref]
    cases σ.size with
    | zero => rw [Store.derefWithin]; simp
    | succ n => rw [Store.derefWithin, h]
  | const c => exact σ.deref_of_nonvar (by simp)
  | compound _ => exact σ.deref_of_nonvar (by simp)

namespace Clause

/-- The clause can be one of the predicate. -/
def Suits (s : Symbols) (tag : Tag) (c : Clause) : Prop :=
  c.Named s tag ∧ c.head.Fits s ∧ c.body.Fits s

theorem Suits.mono {s s' : Symbols} {tag : Tag} {c : Clause} (h : c.Suits s tag)
    (hs : s.Extends s') : c.Suits s' tag :=
  ⟨h.1.mono hs, h.2.1.mono hs, h.2.2.mono hs⟩

variable {u : Universe}

theorem extending_ofTerm (t : Term) : Universe.Extending (ofTerm t) := by
  refine (Universe.extending_tagNamed ":-" 2).bind fun neck => .bind (fun u => .refl u) fun t' => ?_
  split
  · exact .pure _
  · exact .pure _

/-- The parts of a clause are parts of the term that stands for it. -/
theorem fits_ofTerm {t : Term} (ht : t.Fits u.symbols) (hover : t.Over (u.store.value? · = none)) :
    (ofTerm t u).1.head.Fits u.symbols ∧ (ofTerm t u).1.body.Fits u.symbols ∧
      (ofTerm t u).1.head.Over (u.store.value? · = none) := by
  obtain ⟨tag, u', hneck, hstore⟩ : ∃ tag u', neck u = (tag, u') ∧ u'.store = u.store :=
    ⟨_, _, rfl, rfl⟩
  have hfact : (Clause.mk t (.atom .trueGoal)).head.Fits u.symbols ∧
      (Clause.mk t (.atom .trueGoal)).body.Fits u.symbols ∧
      (Clause.mk t (.atom .trueGoal)).head.Over (u.store.value? · = none) :=
    ⟨ht, .const _, hover⟩
  simp only [ofTerm, bind, StateT.bind, Universe.deref, hneck, hstore, hover.deref_eq]
  split
  · rename_i head body
    cases ht with | compound _ hargs =>
    cases hover with | compound hparts =>
    dsimp only [pure, StateT.pure]
    split
    · exact ⟨hargs head (by simp), hargs body (by simp), hparts head (by simp)⟩
    · exact hfact
  · exact hfact

/-- The predicate of a clause whose head is no bound variable. -/
theorem named_of_predicate? {c : Clause} {tag : Tag} (hc : c.head.Over (u.store.value? · = none))
    (hu : u.Fits) (h : (c.predicate? u).1 = some tag) : c.Named (c.predicate? u).2.symbols tag := by
  unfold predicate? Universe.callableParts? at h ⊢
  simp only [bind, StateT.bind, Universe.deref, hc.deref_eq] at h ⊢
  unfold Named
  cases hhead : c.head with
  | var v => 
    rw [hhead] at h
    cases h
  | const k =>
    rw [hhead] at h
    cases k with
    | atom a =>
      cases h
      exact Universe.hasArity_tag hu a 0
    | _ => cases h
  | compound stamp f args =>
    rw [hhead] at h
    cases h
    rfl

end Clause

namespace Database

variable {α β : Type} {d : Database} {Q : α → Database → Prop} {R : β → Database → Prop}

/-- The database has been changed, which leaves it sound. Terms mean what they meant before, and no call
site has been lost; the predicates may be others. -/
structure Updated (d d' : Database) : Prop where
  /-- The calls lead to typed code. -/
  sound : d'.Sound
  /-- The bindings and the symbols are kept. -/
  terms : d.terms.Extends d'.terms
  /-- The call sites are kept. -/
  sites : ∀ (i : Nat) tag site, d.sites[i]? = some (tag, site) →
    ∃ site', d'.sites[i]? = some (tag, site')

namespace Updated

theorem refl (hd : d.Sound) : d.Updated d :=
  ⟨hd, .refl _, fun _ _ site h => ⟨site, h⟩⟩

theorem trans {d₁ d₂ d₃ : Database} (h : d₁.Updated d₂) (h' : d₂.Updated d₃) : d₁.Updated d₃ := by
  refine ⟨h'.sound, h.terms.trans h'.terms, fun i tag site hi => ?_⟩
  obtain ⟨site', hi'⟩ := h.sites i tag site hi
  exact h'.sites i tag site' hi'

end Updated

theorem Adds.updated {d' : Database} (h : d.Adds d') : d.Updated d' :=
  ⟨h.sound, h.terms, h.grows.sites⟩

/-- The step changes a database. -/
def Updates (x : DatabaseM α) (d : Database) (Q : α → Database → Prop) : Prop :=
  Yields x d (fun a d' => d.Updated d' ∧ Q a d') fun _ d' => d.Updated d'

namespace Updates

theorem of_safe {x : DatabaseM α} (h : Safe x d Q) : Updates x d Q :=
  Yields.imp h (fun _ _ h => ⟨h.1.updated, h.2⟩) fun _ _ h => h.1.updated

theorem bind {x : DatabaseM α} {f : α → DatabaseM β} (h : Updates x d Q)
    (hf : ∀ a d', d.Updated d' → Q a d' → Updates (f a) d' R) : Updates (x >>= f) d R := by
  rw [Updates, yields_bind]
  refine Yields.imp h (fun a d₁ h₁ => ?_) fun _ _ h => h
  exact (hf a d₁ h₁.1 h₁.2).imp (fun _ _ h₂ => ⟨h₁.1.trans h₂.1, h₂.2⟩) fun _ _ h₂ => h₁.1.trans h₂

theorem get_bind {f : Database → DatabaseM β} (h : Updates (f d) d R) :
    Updates (MonadState.get >>= f) d R :=
  h

theorem pure {a : α} (hd : d.Sound) (h : Q a d) : Updates (Pure.pure a) d Q :=
  ⟨.refl hd, h⟩

theorem imp {Q' : α → Database → Prop} {x : DatabaseM α} (h : Updates x d Q)
    (hQ : ∀ a d', Q a d' → Q' a d') : Updates x d Q' :=
  Yields.imp h (fun a d' h => ⟨h.1, hQ a d' h.2⟩) fun _ _ h => h

theorem discard {x : DatabaseM α} (h : Updates x d fun _ _ => True) :
    Updates (Functor.discard x) d fun _ _ => True :=
  yields_discard.mpr (Yields.imp h (fun _ _ h => h) fun _ _ h => h)

end Updates

/-- A database with other predicates, and with no more code than before. -/
theorem updated_change (hd : d.Sound) {predicates : Std.TreeMap Nat Predicate} {cache : CodeCache}
    (generation : Nat) (unknown : Option UnknownPolicy) (listeners : Nat) (journal : Array Event)
    (hp : ∀ (i : Nat) p, predicates[i]? = some p → p.Sound d.terms.symbols ⟨i⟩)
    (hc : ∀ (i : Nat) code, cache.entries[i]? = some code → d.codeCache.entries[i]? = some code) :
    d.Updated ⟨d.terms, predicates, cache, d.sites, generation, unknown, listeners, journal⟩ := by
  have hretains : d.Retains
      ⟨d.terms, predicates, cache, d.sites, generation, unknown, listeners, journal⟩ :=
    ⟨.refl _, fun _ _ site h => ⟨site, h⟩⟩
  refine ⟨⟨hd.terms, hp, fun i code hi => ?_, fun i tag site g callee hi hg => ?_⟩, .refl _,
    hretains.sites⟩
  · have hcode := hd.cache i code (hc i code hi)
    exact ⟨hcode.1.mono hretains, hcode.2⟩
  · have hsite := hd.sites i tag site g callee hi hg
    exact ⟨hsite.1.mono hretains, hsite.2⟩

/-- A change is made known. -/
theorem updates_changed (hd : d.Sound) (c : Change) : Updates (changed c) d fun _ _ => True := by
  refine ⟨updated_change hd _ _ _ _ hd.predicates fun i code hi => ?_, trivial⟩
  split at hi
  · rename_i tag _
    rw [CodeCache.evict, Std.TreeMap.getElem?_erase] at hi
    split at hi
    · cases hi
    · exact hi
  · exact hi

/-- A predicate is given in a way that keeps calls within clauses and the native predicates that every
database has. -/
theorem updates_setPredicate (hd : d.Sound) {tag : Tag} {p : Predicate}
    (hp : p.Sound d.terms.symbols tag) :
    Updates (setPredicate tag p) d fun _ d' => d'.terms = d.terms := by
  refine ⟨updated_change hd _ _ _ _ (fun i q hi => ?_) fun _ _ h => h, rfl⟩
  rw [Std.TreeMap.getElem?_insert] at hi
  split at hi
  · rename_i heq
    obtain rfl := Std.LawfulEqCmp.eq_of_compare heq
    obtain rfl := Option.some.inj hi
    exact hp
  · exact hd.predicates i q hi

/-! ### Native predicates -/

theorem updates_refuseChange (hd : d.Sound) (tag : Tag) (Q : α → Database → Prop) :
    Updates (refuseChange tag) d Q := by
  refine .bind (.of_safe (safe_onTerms hd (Exception.extending_indicatorTerm tag)))
    fun t d' hd' ht => ?_
  refine (Updates.of_safe (safe_raise hd'.sound (e := .permission "modify" "static_procedure" t) ?_
    fun _ _ => False)).imp fun _ _ h => h.elim
  rw [ht.1, ht.2]
  exact Exception.fits_indicatorTerm hd.terms tag

theorem updates_registerNative (hd : d.Sound) (tag : Tag) {n : Native} (hn : n.Shipped) :
    Updates (registerNative tag n) d fun _ _ => True := by
  have hset : Updates (setPredicate tag (.native n) >>= fun _ => changed (.native tag)) d
      fun _ _ => True :=
    (updates_setPredicate hd (p := .native n) hn).bind fun _ _ hd' _ => updates_changed hd'.sound _
  rw [registerNative]
  split
  · exact (updates_refuseChange hd tag fun _ _ => False).bind fun _ _ _ h => h.elim
  · exact hset

theorem updates_forM {f : α → DatabaseM PUnit} (l : List α) : ∀ {d : Database}, d.Sound →
    (∀ a ∈ l, ∀ d', d.Updated d' → Updates (f a) d' fun _ _ => True) →
      Updates (l.forM f) d fun _ _ => True := by
  induction l with
  | nil => exact fun hd _ => .pure hd trivial
  | cons a l ih =>
    intro d hd hf
    rw [List.forall_mem_cons] at hf
    refine .bind (hf.1 d (.refl hd)) fun _ d₁ h₁ _ => ih h₁.sound fun b hb d₂ h₂ => ?_
    exact hf.2 b hb d₂ (h₁.trans h₂)

theorem updates_registerBuiltins (hd : d.Sound) : Updates registerBuiltins d fun _ _ => True := by
  refine updates_forM builtins hd fun p _ d hd => ?_
  obtain ⟨name, arity, b⟩ := p
  exact (Updates.of_safe (safe_onTerms hd.sound (Universe.extending_tagNamed name arity))).bind
    fun tag _ hd' _ => updates_registerNative hd'.sound tag (n := .builtin b) trivial

/-- A database without predicates and code is sound. -/
theorem sound_of_terms {u : Universe} (hu : u.Fits) :
    Sound ⟨u, ∅, .empty, #[], 0, none, 0, #[]⟩ := by
  refine ⟨hu, fun i p hp => ?_, fun i code hi => ?_, fun i tag site g callee hi => ?_⟩
  · exact absurd hp (by simp)
  · exact absurd hi (by simp [CodeCache.empty])
  · exact absurd hi (by simp)

theorem fits_of_initial {s : Symbols} (hs : s.Started) : Universe.Fits ⟨s, .empty⟩ := by
  refine ⟨hs, fun v t hv => ?_⟩
  rw [Store.value?_of_size_le (Nat.zero_le _)] at hv
  cases hv

theorem sound_registerBuiltins {d' : Database} (hd : d.Sound)
    (h : registerBuiltins d = .ok ⟨⟩ d' ∨ ∃ e, registerBuiltins d = .error e d') : d'.Sound := by
  obtain h | ⟨e, h⟩ := h
  · exact (yields_ok (updates_registerBuiltins hd) h).1.sound
  · exact (yields_error (E := fun _ d' => d.Updated d') (updates_registerBuiltins hd) h).sound

theorem sound_empty : empty.Sound := by
  unfold empty Universe.initial
  exact sound_of_terms (fits_of_initial Symbols.started_initial)

/-- The database at the start is sound. -/
theorem sound_initial : initial.Sound := by
  unfold initial
  split
  · rename_i h
    exact sound_registerBuiltins sound_empty (.inl h)
  · rename_i h
    exact sound_registerBuiltins sound_empty (.inr ⟨_, h⟩)

/-! ### Clauses -/

/-- The clauses of a predicate are changed. -/
theorem updates_updateClauses (hd : d.Sound) {tag : Tag} {f : List Clause → List Clause}
    (hf : ∀ cs, (Predicate.clauses cs).Sound d.terms.symbols tag →
      (Predicate.clauses (f cs)).Sound d.terms.symbols tag) :
    Updates (updateClauses tag f) d fun _ _ => True := by
  refine .get_bind (.bind (updates_setPredicate hd (hf _ ?_)) fun _ _ hd' _ =>
    updates_changed hd'.sound _)
  unfold clauses?
  split
  · rename_i cs hcs
    exact hd.predicates _ _ hcs
  · exact fun c hc => absurd hc List.not_mem_nil

theorem updates_checkModifiable (hd : d.Sound) (tag : Tag) :
    Updates (checkModifiable tag) d fun _ d' => d' = d := by
  refine .get_bind ?_
  split
  · exact updates_refuseChange hd tag _
  · exact .pure hd rfl

/-- Whether a clause can be compiled is found out without changing what terms mean. -/
theorem safe_checkClause (hd : d.Sound) (c : Clause) : Safe (checkClause c) d fun _ _ => True := by
  have hkeeps : Keeps Universe.Extends (do
      let σ := (← get).store
      discard (Program.onSymbols (Rule.ofClause σ c))) :=
    .bind .get fun u => .map _ (Program.keeps_onSymbols (Rule.keeps_ofClause u.store c))
  have h := hkeeps d.terms
  unfold Yields at h
  unfold Safe Yields checkClause compile
  dsimp only
  split at h
  · rename_i hr
    rw [hr]
    exact ⟨.of_terms hd h, trivial⟩
  · rename_i e u hr
    rw [hr]
    exact ⟨.of_terms hd (h.trans (Exception.extending_ofError e.kind u)),
      Exception.sealed_ofError (h.fits hd.terms) (fits_kind e _)⟩

/-- A clause whose head is no bound variable can be one of the predicate that it is added to. -/
theorem updates_placeClause (hd : d.Sound) {c : Clause} (hhead : c.head.Fits d.terms.symbols)
    (hbody : c.body.Fits d.terms.symbols) (hover : c.head.Over (d.terms.store.value? · = none)) :
    Updates (placeClause c) d fun r d' => r.2.Suits d'.terms.symbols r.1 := by
  refine .bind (.of_safe (safe_checkClause hd c)) fun _ d₁ h₁ _ => ?_
  refine .bind (.of_safe (safe_onTerms h₁.sound (Clause.extending_predicate? c)))
    fun found d₂ h₂ hfound => ?_
  have hext := (h₁.trans h₂).terms
  have hhead₂ := hhead.mono hext.symbols
  cases found with
  | none => exact .of_safe (safe_raise h₂.sound (e := .type "callable" c.head) hhead₂ _)
  | some tag =>
    have hover₁ : c.head.Over (d₁.terms.store.value? · = none) :=
      hover.imp fun v hv => (h₁.terms.store.value v).trans hv
    have hnamed := Clause.named_of_predicate? hover₁ h₁.sound.terms hfound.1.symm
    rw [← hfound.2] at hnamed
    refine .bind (updates_checkModifiable h₂.sound tag) fun _ d₃ h₃ heq => ?_
    subst heq
    exact .pure h₃.sound ⟨hnamed, hhead₂, hbody.mono hext.symbols⟩

/-- So can a clause that is read: it is a copy. -/
theorem updates_readClause (hd : d.Sound) {t : Term} (ht : t.Fits d.terms.symbols) :
    Updates (readClause t) d fun r d' => r.2.Suits d'.terms.symbols r.1 := by
  refine .bind (.of_safe (safe_onTerms hd (Universe.extending_copy t))) fun t₁ d₁ h₁ ht₁ => ?_
  have hfits : t₁.Fits d₁.terms.symbols := by
    rw [ht₁.1, ht₁.2]
    exact Universe.fits_copy hd.terms ht
  have hover : t₁.Over (d₁.terms.store.value? · = none) := by
    rw [ht₁.1]
    refine (d.terms.store.over_copy t).imp fun v hv => ?_
    rw [h₁.terms.store.value v, Store.value?_of_size_le hv.1]
  have hplace : Updates (do placeClause (← onTerms (Clause.ofTerm t₁))) d₁
      fun r d' => r.2.Suits d'.terms.symbols r.1 := by
    refine .bind (.of_safe (safe_onTerms h₁.sound (Clause.extending_ofTerm t₁))) fun c d₂ h₂ hc => ?_
    obtain ⟨hhead, hbody, hover⟩ := Clause.fits_ofTerm hfits hover
    rw [← hc.1] at hhead hbody hover
    exact updates_placeClause h₂.sound (hhead.mono h₂.terms.symbols) (hbody.mono h₂.terms.symbols)
      (hover.imp fun v hv => (h₂.terms.store.value v).trans hv)
  cases t₁ with
  | var v =>
    exact .bind (.of_safe (safe_raise h₁.sound (e := .instantiation) trivial fun _ _ => False))
      fun _ _ _ h => h.elim
  | _ => exact hplace

theorem updates_addClause (hd : d.Sound) {t : Term} (ht : t.Fits d.terms.symbols) :
    Updates (addClause t) d fun _ _ => True := by
  refine .bind (updates_readClause hd ht) fun r d' hd' hr => ?_
  exact updates_updateClauses hd'.sound fun cs hcs => List.forall_mem_append.mpr
    ⟨hcs, List.forall_mem_singleton.mpr hr⟩

theorem updates_addClauseFront (hd : d.Sound) {t : Term} (ht : t.Fits d.terms.symbols) :
    Updates (addClauseFront t) d fun _ _ => True := by
  refine .bind (updates_readClause hd ht) fun r d' hd' hr => ?_
  exact updates_updateClauses hd'.sound fun cs hcs => List.forall_mem_cons.mpr ⟨hr, hcs⟩

theorem updates_removeClause (hd : d.Sound) (tag : Tag) (i : Nat) :
    Updates (removeClause tag i) d fun _ _ => True := by
  refine .bind (updates_checkModifiable hd tag) fun _ d' hd' _ => .get_bind ?_
  split
  · refine .bind (updates_updateClauses hd'.sound fun cs hcs c hc => ?_) fun _ _ h _ =>
      .pure h.sound trivial
    exact hcs c ((List.eraseIdx_sublist cs i).subset hc)
  · exact .pure hd'.sound trivial

/-- Clauses that are no copies replace those of a predicate. -/
theorem updates_define (hd : d.Sound) {tag : Tag} {cs : List Clause}
    (hcs : ∀ c ∈ cs, c.Suits d.terms.symbols tag) :
    Updates (define tag cs) d fun _ _ => True := by
  refine .bind (updates_checkModifiable hd tag) fun _ d₁ h₁ _ => ?_
  refine .bind (updates_forM cs h₁.sound fun c hc d₂ h₂ => ?_) fun _ d₂ h₂ _ => ?_
  · have hhead := (hcs c hc).2.1.mono (h₁.trans h₂).terms.symbols
    refine .bind (.of_safe (safe_checkClause h₂.sound c)) fun _ d₃ h₃ _ => ?_
    refine .bind (.of_safe (safe_onTerms h₃.sound (Clause.extending_predicate? c)))
      fun found d₄ h₄ _ => ?_
    split
    · exact .pure h₄.sound trivial
    · exact .of_safe (safe_raise h₄.sound (e := .domain "clause_head" c.head)
        (hhead.mono (h₃.trans h₄).terms.symbols) _)
  · refine updates_updateClauses h₂.sound fun _ _ c hc => ?_
    exact (hcs c hc).mono (h₁.trans h₂).terms.symbols

theorem updates_abolish (hd : d.Sound) (tag : Tag) : Updates (abolish tag) d fun _ _ => True := by
  have hcheck : Updates (do
      if (← get).isDefined tag then
        modify fun db => { db with predicates := db.predicates.erase tag.index }
        changed (.abolished tag)
        return true
      else return false) d fun _ _ => True := by
    refine .get_bind ?_
    split
    · refine .bind (Q := fun _ _ => True) ⟨updated_change hd _ _ _ _ (fun i p hi => ?_) fun _ _ h => h,
        trivial⟩ fun _ d' h _ => ?_
      · rw [Std.TreeMap.getElem?_erase] at hi
        split at hi
        · cases hi
        · exact hd.predicates i p hi
      · exact .bind (updates_changed h.sound _) fun _ _ h' _ => .pure h'.sound trivial
    · exact .pure hd trivial
  rw [abolish]
  split
  · exact (updates_refuseChange hd tag fun _ _ => False).bind fun _ _ _ h => h.elim
  · exact hcheck

theorem updates_setUnknown (hd : d.Sound) (policy : Option UnknownPolicy) :
    Updates (setUnknown policy) d fun _ _ => True :=
  .bind (Q := fun _ _ => True) ⟨updated_change hd _ _ _ _ hd.predicates fun _ _ h => h, trivial⟩
    fun _ _ h _ => updates_changed h.sound _

theorem updates_subscribe (hd : d.Sound) : Updates subscribe d fun _ _ => True :=
  ⟨updated_change hd _ _ _ _ hd.predicates fun _ _ h => h, trivial⟩

end Database

end Resolvent
