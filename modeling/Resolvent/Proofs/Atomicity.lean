import Resolvent.Proofs.Coherence

/-!
# Changes are made as a whole or not at all

A change of the database is checked before anything is done, so one that is refused, or for which there
is nothing to do, leaves the database `Database.Untouched`: only terms have been built. One that is made
replaces what the predicate is given by that it names (`Database.Mutation.Intends`), and does all that
belongs to a change, to nothing else (`Database.Changes`): a new generation is started, the code of that
predicate is forgotten, and every listener is told. `Database.Mutation.atomic` says so of every change of
every database, and that none of them gives a control construct, or puts clauses in the place of a native
predicate.
-/

namespace Resolvent

namespace Database

variable {d d₁ d₂ d₃ d' : Database} {tag : Tag}

/-- The clauses of a predicate; one that is not given by clauses has none. -/
def clausesOf (d : Database) (tag : Tag) : List Clause :=
  (d.clauses? tag).getD []

/-- Terms have been built, and nothing else has been done that a change does. -/
structure Untouched (d d' : Database) : Prop where
  /-- What there was before means what it meant. -/
  terms : d.terms.Extends d'.terms
  /-- Every predicate is given as before. -/
  predicates : d'.predicates = d.predicates
  /-- A call of an unknown predicate does what it did. -/
  unknown : d'.unknown = d.unknown
  /-- The generation is the same. -/
  generation : d'.generation = d.generation
  /-- No code has been forgotten, and none is asked for. -/
  codeCache : d'.codeCache = d.codeCache
  /-- No listener has been told of anything. -/
  journal : d'.journal = d.journal

/-- Something has been looked into, for which terms have been built. -/
structure Checked (d d' : Database) : Prop extends Untouched d d' where
  /-- The listeners are the same. -/
  listeners : d'.listeners = d.listeners

namespace Checked

theorem of_terms {u : Universe} (h : d.terms.Extends u) : d.Checked { d with terms := u } :=
  ⟨⟨h, rfl, rfl, rfl, rfl, rfl⟩, rfl⟩

theorem refl (d : Database) : d.Checked d :=
  .of_terms (.refl _)

theorem trans (h : d₁.Checked d₂) (h' : d₂.Checked d₃) : d₁.Checked d₃ where
  terms := h.terms.trans h'.terms
  predicates := h'.predicates.trans h.predicates
  unknown := h'.unknown.trans h.unknown
  generation := h'.generation.trans h.generation
  codeCache := h'.codeCache.trans h.codeCache
  journal := h'.journal.trans h.journal
  listeners := h'.listeners.trans h.listeners

instance : Std.Refl Checked := ⟨refl⟩

instance : Trans Checked Checked Checked := ⟨trans⟩

theorem builds : Builds Checked :=
  ⟨.of_terms, fun _ _ => ⟨⟨.refl _, rfl, rfl, rfl, rfl, rfl⟩, rfl⟩⟩

theorem clausesOf (h : d.Checked d') (tag : Tag) : d'.clausesOf tag = d.clausesOf tag := by
  unfold Database.clausesOf clauses?
  rw [h.predicates]

end Checked

/-- All that belongs to a change has been done, to what it concerns and to nothing else. -/
structure Changes (c : Change) (d d' : Database) : Prop where
  /-- What there was before means what it meant. -/
  terms : d.terms.Extends d'.terms
  /-- The other predicates are given as before. -/
  others : d.Spares c d'.predicates
  /-- A call of an unknown predicate does what it did, unless that has been changed. -/
  unknown : c ≠ .flags → d'.unknown = d.unknown
  /-- A new generation has been started. -/
  generation : d'.generation = d.generation + 1
  /-- The code of the predicate has been forgotten, and that of no other one. -/
  entries : ∀ tag : Tag, d'.codeCache.entries[tag.index]? =
    if c.tag? = some tag then none else d.codeCache.entries[tag.index]?
  /-- Nobody has asked for code. -/
  asked : d'.codeCache.hits = d.codeCache.hits ∧ d'.codeCache.misses = d.codeCache.misses
  /-- The listeners are the same. -/
  listeners : d'.listeners = d.listeners
  /-- Each of them has been told of the change once. -/
  journal : d'.journal = d.journal ++ Array.replicate d.listeners (.change c)

/-- The database after a change is one in which all that belongs to it has been done. -/
theorem changes_change (c : Change) {ps : Std.TreeMap Nat Predicate} (hps : d.Spares c ps)
    {policy : Option UnknownPolicy} (hpolicy : c ≠ .flags → policy = d.unknown) :
    d.Changes c (change c { d with predicates := ps, unknown := policy }) where
  terms := .refl _
  others := hps
  unknown := hpolicy
  generation := rfl
  entries tag := by
    unfold change
    dsimp only
    split
    · rename_i tag' htag
      rw [CodeCache.evict, Std.TreeMap.getElem?_erase, htag]
      refine if_congr ?_ rfl rfl
      rw [Option.some_inj, Std.LawfulEqCmp.compare_eq_iff_eq]
      exact ⟨fun h => congrArg Tag.mk h, fun h => congrArg Tag.index h⟩
    · rename_i htag
      rw [htag, if_neg (Option.some_ne_none tag).symm]
  asked := by
    unfold change
    dsimp only
    split <;> exact ⟨rfl, rfl⟩
  listeners := rfl
  journal := rfl

/-- A change that is made after it has been checked. -/
theorem Changes.after {c : Change} (h : d₁.Changes c d₂) (hd : d.Checked d₁) : d.Changes c d₂ where
  terms := hd.terms.trans h.terms
  others i hi := (h.others i hi).trans (congrArg (·[i]?) hd.predicates)
  unknown hc := (h.unknown hc).trans hd.unknown
  generation := h.generation.trans (congrArg (· + 1) hd.generation)
  entries tag := by rw [h.entries, hd.codeCache]
  asked := by rw [h.asked.1, h.asked.2, hd.codeCache]; exact ⟨rfl, rfl⟩
  listeners := h.listeners.trans hd.listeners
  journal := by rw [h.journal, hd.journal, hd.listeners]

/-! ### What a change is to do -/

/-- The clause is a copy of the term, and the tag is its predicate. -/
structure Places (d d' : Database) (t : Term) (tag : Tag) (c : Clause) : Prop where
  /-- The clause that the copy stands for. -/
  clause : c = (Clause.ofTerm (Universe.copy t d.terms).1 (Universe.copy t d.terms).2).1
  /-- What the head of the clause is called. -/
  predicate : ∃ u, d.terms.Extends u ∧ u.Extends d'.terms ∧ (c.predicate? u).1 = some tag

/-- What is changed, and how the predicate is given then that the change concerns. -/
inductive Mutation.Intends (d d' : Database) : Mutation → Change → Prop where
  | addClause {t : Term} {tag : Tag} {c : Clause} (hc : d.Places d' t tag c)
      (given : d'.predicates[tag.index]? = some (.clauses (d.clausesOf tag ++ [c]))) :
      Intends d d' (.addClause t) (.clauses tag)
  | addClauseFront {t : Term} {tag : Tag} {c : Clause} (hc : d.Places d' t tag c)
      (given : d'.predicates[tag.index]? = some (.clauses (c :: d.clausesOf tag))) :
      Intends d d' (.addClauseFront t) (.clauses tag)
  | removeClause {tag : Tag} {i : Nat} (hi : i < (d.clausesOf tag).length)
      (given : d'.predicates[tag.index]? = some (.clauses ((d.clausesOf tag).eraseIdx i))) :
      Intends d d' (.removeClause tag i) (.clauses tag)
  | define {tag : Tag} {cs : List Clause}
      (given : d'.predicates[tag.index]? = some (.clauses cs)) :
      Intends d d' (.define tag cs) (.clauses tag)
  | registerNative {tag : Tag} {n : Native}
      (given : d'.predicates[tag.index]? = some (.native n)) :
      Intends d d' (.registerNative tag n) (.native tag)
  | abolish {tag : Tag} (gone : d'.predicates[tag.index]? = none) :
      Intends d d' (.abolish tag) (.abolished tag)
  | setUnknown {policy : Option UnknownPolicy} (given : d'.unknown = policy) :
      Intends d d' (.setUnknown policy) .flags

/-- The change is tried; the answer tells whether anything was changed. -/
def Mutation.attempt : Mutation → DatabaseM Bool
  | addClause t => do
    Database.addClause t
    return true
  | addClauseFront t => do
    Database.addClauseFront t
    return true
  | removeClause tag i => Database.removeClause tag i
  | define tag cs => do
    Database.define tag cs
    return true
  | registerNative tag n => do
    Database.registerNative tag n
    return true
  | abolish tag => Database.abolish tag
  | setUnknown policy => do
    Database.setUnknown policy
    return true
  | subscribe => do
    Database.subscribe
    return false

/-- The change concerns clauses only. -/
def Mutation.isOfClauses : Mutation → Bool
  | addClause _ | addClauseFront _ | removeClause .. | define .. => true
  | _ => false

/-- The clauses of the predicate may be changed. -/
structure Modifiable (d : Database) (tag : Tag) : Prop where
  /-- It is no control construct. -/
  control : tag.isControl = false
  /-- It is not given natively. -/
  native : d.isNative tag = false

theorem Modifiable.of_checked (h : d₁.Modifiable tag) (hd : d.Checked d₁) : d.Modifiable tag :=
  ⟨h.control, by simpa only [isNative, hd.predicates] using h.native⟩

/-! ### Checks -/

/-- An error is raised. -/
theorem checked_raise {α : Type} (e : ErrorKind) (d : Database) (Q : α → Database → Prop) :
    Yields (raise e : DatabaseM α) d Q fun _ d' => d.Checked d' :=
  .of_terms (Exception.extending_ofError e d.terms)

theorem checked_refuseChange {α : Type} (tag : Tag) (d : Database) (Q : α → Database → Prop) :
    Yields (refuseChange tag : DatabaseM α) d Q fun _ d' => d.Checked d' := by
  rw [refuseChange, yields_bind, yields_onTerms]
  have hd := Checked.of_terms (Exception.extending_indicatorTerm tag d.terms)
  exact (checked_raise _ _ Q).imp (fun _ _ h => h) fun _ _ h => hd.trans h

/-- A change that is not refused is one of clauses that may be changed. -/
theorem checked_checkModifiable (tag : Tag) (d : Database) : Yields (checkModifiable tag) d
    (fun _ d' => d' = d ∧ d.Modifiable tag) fun _ d' => d.Checked d' := by
  rw [checkModifiable, yields_bind, yields_get, yields_ite]
  refine ⟨fun _ => checked_refuseChange tag d _, fun h => ⟨rfl, ?_⟩⟩
  rw [Bool.or_eq_true, not_or, Bool.not_eq_true, Bool.not_eq_true] at h
  exact ⟨h.2, h.1⟩

/-- A clause that may be placed is placed where it belongs. -/
theorem checked_placeClause (c : Clause) (d : Database) : Yields (placeClause c) d
    (fun r d' => d.Checked d' ∧ r.2 = c ∧ d'.Modifiable r.1 ∧
      ∃ u, d.terms.Extends u ∧ u.Extends d'.terms ∧ (c.predicate? u).1 = some r.1)
    fun _ d' => d.Checked d' := by
  rw [placeClause, yields_bind]
  refine (keeps_checkClause Checked.builds c d).imp (fun _ d₁ h₁ => ?_) fun _ _ h => h
  rw [yields_bind, yields_onTerms]
  have hext := Clause.extending_predicate? c d₁.terms
  have h₂ := h₁.trans (.of_terms hext)
  cases hfound : (c.predicate? d₁.terms).1 with
  | none => exact (checked_raise _ _ _).imp (fun _ _ h => h) fun _ _ h => h₂.trans h
  | some tag =>
    rw [yields_bind]
    refine (checked_checkModifiable tag _).imp (fun _ d₂ h => ?_) fun _ _ h => h₂.trans h
    obtain ⟨rfl, hmodifiable⟩ := h
    exact ⟨h₂, rfl, hmodifiable, d₁.terms, h₁.terms, hext, hfound⟩

/-- A clause that is read from a term is placed where it belongs. -/
theorem checked_readClause (t : Term) (d : Database) : Yields (readClause t) d
    (fun r d' => d.Checked d' ∧ d'.Modifiable r.1 ∧ d.Places d' t r.1 r.2)
    fun _ d' => d.Checked d' := by
  have hcopy := Universe.extending_copy t d.terms
  have hclause := Clause.extending_ofTerm (Universe.copy t d.terms).1 (Universe.copy t d.terms).2
  rw [readClause, yields_bind, yields_onTerms]
  have hplace : Yields (do placeClause (← onTerms (Clause.ofTerm (Universe.copy t d.terms).1)))
      { d with terms := (Universe.copy t d.terms).2 }
      (fun r d' => d.Checked d' ∧ d'.Modifiable r.1 ∧ d.Places d' t r.1 r.2)
      fun _ d' => d.Checked d' := by
    rw [yields_bind, yields_onTerms]
    have hread : d.Checked _ := .of_terms (hcopy.trans hclause)
    refine (checked_placeClause _ _).imp (fun r d' h => ?_) fun _ _ h => hread.trans h
    obtain ⟨hd, hr, hmodifiable, u, hu, hu', hfound⟩ := h
    exact ⟨hread.trans hd, hmodifiable, hr, u, hread.terms.trans hu, hu', hr ▸ hfound⟩
  generalize (Universe.copy t d.terms).1 = t₁ at hplace ⊢
  cases t₁ with
  | var v =>
    rw [yields_bind]
    exact (checked_raise .instantiation _ fun _ _ => False).imp (fun _ _ h => h.elim)
      fun _ _ h => (Checked.of_terms hcopy).trans h
  | _ => exact hplace

/-! ### Changes -/

/-- The change is made, and the database is as it is to be. -/
def Makes (x : DatabaseM Unit) (d : Database) (c : Change) (Q : Database → Prop) : Prop :=
  Yields x d (fun _ d' => d.Changes c d' ∧ Q d') fun _ _ => False

theorem makes_updateClauses (tag : Tag) (f : List Clause → List Clause) (d : Database) :
    Makes (updateClauses tag f) d (.clauses tag) fun d' =>
      d'.predicates[tag.index]? = some (.clauses (f (d.clausesOf tag))) :=
  ⟨changes_change (.clauses tag) (spares_insert d (c := .clauses tag) rfl _) fun _ => rfl,
    Std.TreeMap.getElem?_insert_self⟩

theorem makes_giveNative (tag : Tag) (n : Native) (d : Database) :
    Makes (setPredicate tag (.native n) >>= fun _ => changed (.native tag)) d (.native tag) fun d' =>
      d'.predicates[tag.index]? = some (.native n) :=
  ⟨changes_change (.native tag) (spares_insert d (c := .native tag) rfl _) fun _ => rfl,
    Std.TreeMap.getElem?_insert_self⟩

theorem makes_forget (tag : Tag) (d : Database) :
    Makes (modify (fun db => { db with predicates := db.predicates.erase tag.index }) >>= fun _ =>
      changed (.abolished tag)) d (.abolished tag) fun d' => d'.predicates[tag.index]? = none :=
  ⟨changes_change (.abolished tag) (spares_erase d (c := .abolished tag) rfl) fun _ => rfl,
    Std.TreeMap.getElem?_erase_self⟩

theorem makes_setUnknown (policy : Option UnknownPolicy) (d : Database) :
    Makes (setUnknown policy) d .flags fun d' => d'.unknown = policy :=
  have hspares : d.Spares .flags d.predicates := fun _ _ => rfl
  ⟨changes_change .flags hspares fun h => absurd rfl h, rfl⟩

/-! ### All changes -/

namespace Mutation

/-- Control constructs are not given, and clauses do not take the place of a native predicate. -/
structure Respects (m : Mutation) (d d' : Database) : Prop where
  /-- Control constructs. -/
  control : ∀ tag : Tag, tag.isControl = true →
    d'.predicates[tag.index]? = d.predicates[tag.index]?
  /-- Native predicates. -/
  native : m.isOfClauses = true → ∀ tag : Tag, d.isNative tag = true →
    d'.predicates[tag.index]? = d.predicates[tag.index]?

/-- Either the change has been made or nothing has been changed, as the answer tells. -/
def Outcome (m : Mutation) (d : Database) (made : Bool) (d' : Database) : Prop :=
  m.Respects d d' ∧ if made then ∃ c, m.Intends d d' c ∧ d.Changes c d' else d.Untouched d'

variable {m : Mutation} {c : Change}

theorem respects_of_untouched (h : d.Untouched d') : m.Respects d d' :=
  ⟨fun _ _ => congrArg (·[_]?) h.predicates, fun _ _ _ => congrArg (·[_]?) h.predicates⟩

/-- Nothing has been changed. -/
theorem outcome_of_untouched (h : d.Untouched d') : m.Outcome d false d' :=
  ⟨respects_of_untouched h, h⟩

theorem respects_of_changes (h : d.Changes c d')
    (hcontrol : ∀ tag, c.tag? = some tag → tag.isControl = false)
    (hnative : m.isOfClauses = true → ∀ tag, c.tag? = some tag → d.isNative tag = false) :
    m.Respects d d' where
  control tag htag := h.others tag.index fun tag' hc heq => by
    obtain rfl : tag' = tag := congrArg Tag.mk heq
    rw [hcontrol tag' hc] at htag
    cases htag
  native hm tag htag := h.others tag.index fun tag' hc heq => by
    obtain rfl : tag' = tag := congrArg Tag.mk heq
    rw [hnative hm tag' hc] at htag
    cases htag

/-- What has been checked is done. -/
theorem outcome_of_makes {x : DatabaseM Unit} {Q : Database → Prop} (hd : d.Checked d₁)
    (hx : Makes x d₁ c Q) (hcontrol : ∀ tag, c.tag? = some tag → tag.isControl = false)
    (hnative : m.isOfClauses = true → ∀ tag, c.tag? = some tag → d.isNative tag = false)
    (hQ : ∀ d', d₁.terms.Extends d'.terms → Q d' → m.Intends d d' c) :
    Yields (x >>= fun _ => pure true) d₁ (m.Outcome d) fun _ d' => d.Checked d' := by
  rw [yields_bind]
  refine Yields.imp hx (fun _ d' h => ?_) fun _ _ h => h.elim
  have hchanges := h.1.after hd
  exact ⟨respects_of_changes hchanges hcontrol hnative, c, hQ d' h.1.terms h.2, hchanges⟩

/-- Clauses that may be changed are changed. -/
theorem outcome_of_updateClauses {f : List Clause → List Clause} (hd : d.Checked d₁)
    (htag : d.Modifiable tag) (hQ : ∀ d', d₁.terms.Extends d'.terms →
      d'.predicates[tag.index]? = some (.clauses (f (d.clausesOf tag))) →
        m.Intends d d' (.clauses tag)) :
    Yields (updateClauses tag f >>= fun _ => pure true) d₁ (m.Outcome d) fun _ d' => d.Checked d' := by
  refine outcome_of_makes hd (makes_updateClauses tag f d₁) (fun tag' h => ?_) (fun _ tag' h => ?_)
    fun d' hext h => hQ d' hext (hd.clausesOf tag ▸ h)
  · exact Option.some.inj h ▸ htag.control
  · exact Option.some.inj h ▸ htag.native

/-- Whatever is tried, the database is as the answer tells or, after an exception, as it was. -/
theorem outcome_attempt (m : Mutation) (d : Database) :
    Yields m.attempt d (m.Outcome d) fun _ d' => d.Checked d' := by
  cases m with
  | addClause t =>
    rw [attempt, Database.addClause, bind_assoc, yields_bind]
    refine (checked_readClause t d).imp (fun r d₁ h => ?_) fun _ _ h => h
    obtain ⟨hd, htag, hplaces⟩ := h
    refine outcome_of_updateClauses hd (htag.of_checked hd) fun d' hext given => .addClause ?_ given
    exact ⟨hplaces.clause, hplaces.predicate.imp fun u h => ⟨h.1, h.2.1.trans hext, h.2.2⟩⟩
  | addClauseFront t =>
    rw [attempt, Database.addClauseFront, bind_assoc, yields_bind]
    refine (checked_readClause t d).imp (fun r d₁ h => ?_) fun _ _ h => h
    obtain ⟨hd, htag, hplaces⟩ := h
    refine outcome_of_updateClauses hd (htag.of_checked hd) fun d' hext given => .addClauseFront ?_ given
    exact ⟨hplaces.clause, hplaces.predicate.imp fun u h => ⟨h.1, h.2.1.trans hext, h.2.2⟩⟩
  | removeClause tag i =>
    rw [attempt, Database.removeClause, yields_bind]
    refine (checked_checkModifiable tag d).imp (fun _ d₁ h => ?_) fun _ _ h => h
    obtain ⟨rfl, htag⟩ := h
    rw [yields_bind, yields_get, yields_ite]
    refine ⟨fun hi => ?_, fun _ => outcome_of_untouched (Checked.refl d₁).toUntouched⟩
    exact outcome_of_updateClauses (.refl d₁) htag fun d' _ given => .removeClause hi given
  | define tag cs =>
    rw [attempt, Database.define, bind_assoc, yields_bind]
    refine (checked_checkModifiable tag d).imp (fun _ d₁ h => ?_) fun _ _ h => h
    obtain ⟨rfl, htag⟩ := h
    rw [bind_assoc, yields_bind]
    refine (Keeps.forM (fun c => ?_) cs d₁).imp (fun _ d₂ hd => ?_) fun _ _ h => h
    · refine (keeps_checkClause Checked.builds c).bind fun _ => ?_
      refine (keeps_onTerms Checked.builds (Clause.extending_predicate? c)).bind fun r => ?_
      exact .ite (.pure _) (keeps_raise Checked.builds _)
    · exact outcome_of_updateClauses hd htag fun d' _ given => .define given
  | registerNative tag n =>
    rw [attempt, Database.registerNative]
    split
    · rw [bind_assoc, yields_bind]
      exact (checked_refuseChange tag d fun _ _ => False).imp (fun _ _ h => h.elim) fun _ _ h => h
    · rename_i htag
      refine outcome_of_makes (.refl d) (makes_giveNative tag n d) (fun tag' h => ?_)
        (by rintro ⟨⟩) fun d' _ given => .registerNative given
      exact Option.some.inj h ▸ Bool.eq_false_iff.mpr htag
  | abolish tag =>
    rw [attempt, Database.abolish]
    split
    · rw [yields_bind]
      exact (checked_refuseChange tag d fun _ _ => False).imp (fun _ _ h => h.elim) fun _ _ h => h
    · rename_i htag
      rw [yields_bind, yields_get, yields_ite]
      refine ⟨fun _ => ?_, fun _ => outcome_of_untouched (Checked.refl d).toUntouched⟩
      refine outcome_of_makes (.refl d) (makes_forget tag d) (fun tag' h => ?_) (by rintro ⟨⟩)
        fun d' _ gone => .abolish gone
      exact Option.some.inj h ▸ Bool.eq_false_iff.mpr htag
  | setUnknown policy =>
    refine outcome_of_makes (.refl d) (makes_setUnknown policy d) (by rintro _ ⟨⟩)
      (by rintro ⟨⟩) fun d' _ given => .setUnknown given
  | subscribe => exact outcome_of_untouched ⟨.refl _, rfl, rfl, rfl, rfl, rfl⟩

/-- Whatever change is tried on whatever database: if the answer is `true` then the change has been made
as a whole, and if it is `false`, or there is an exception, then nothing has been changed. In no case is a
control construct given, or do clauses take the place of a native predicate. -/
theorem atomic (m : Mutation) (d : Database) :
    Yields m.attempt d
      (fun made d' => m.Respects d d' ∧
        if made then ∃ c, m.Intends d d' c ∧ d.Changes c d' else d.Untouched d')
      fun _ d' => m.Respects d d' ∧ d.Untouched d' :=
  (outcome_attempt m d).imp (fun _ _ h => h) fun _ _ h =>
    ⟨respects_of_untouched h.toUntouched, h.toUntouched⟩

end Mutation

end Database

end Resolvent
