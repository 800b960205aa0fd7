import Resolvent.Proofs.Coherence
import Resolvent.Proofs.Copying

/-!
# Clauses that belong to the database

A clause that is added is a copy, so its variables are made for it, and nothing but what the database
gives away leads to them. As long as none of these variables is bound, what the clause says and the
code that it is compiled to do not depend on the bindings there are (`Clause.Over.reads_eq`,
`Chunk.twins_ofClauses`). Clauses that are put in place of others are not copied: their variables are
those of the caller, and a binding of one of them changes what the clause says.

`Database.Fed p d` says how a database can come by its clauses, where `p` are the variables in them;
`Database.Fed.independent` is what follows.
-/

namespace Resolvent

/-- No variable of the kind is bound. -/
def Store.Free (p : Var → Prop) (σ : Store) : Prop :=
  ∀ v, p v → σ.value? v = none

/-- All variables in the clause are of the kind. -/
structure Clause.Over (p : Var → Prop) (c : Clause) : Prop where
  /-- Those of the head. -/
  head : c.head.Over p
  /-- Those of the body. -/
  body : c.body.Over p

namespace Clause.Over

variable {p q : Var → Prop} {c : Clause} {σ σ' : Store}

theorem imp (hpq : ∀ v, p v → q v) (h : c.Over p) : c.Over q :=
  ⟨h.head.imp hpq, h.body.imp hpq⟩

/-- A clause over unbound variables is read as it stands. -/
theorem reads_eq {d : Database} (h : c.Over p) (hd : d.terms.store.Free p) :
    d.reads c = (c.head.erase, c.body.erase) :=
  congrArg₂ Prod.mk (h.head.imp hd).resolve_eq (h.body.imp hd).resolve_eq

/-- So it is taken apart in the same way whatever other variables are bound to. -/
theorem ofClause_eq (h : c.Over p) (hσ : σ.Free p) (hσ' : σ'.Free p) :
    Rule.ofClause σ' c = Rule.ofClause σ c := by
  unfold Rule.ofClause
  rw [(h.head.imp hσ).resolve_eq, (h.head.imp hσ').resolve_eq, (h.body.imp hσ).resolve_eq,
    (h.body.imp hσ').resolve_eq]

theorem predicate?_eq (h : c.Over p) (hσ : σ.Free p) (s : Symbols) :
    c.predicate? ⟨s, σ⟩ = (((c.predicate? ⟨s, .empty⟩).1, ⟨(c.predicate? ⟨s, .empty⟩).2.symbols, σ⟩)) := by
  have hempty : (Store.empty).Free p := fun v _ => Store.value?_of_size_le (Nat.zero_le _)
  unfold predicate? Universe.callableParts?
  simp only [bind, StateT.bind, Universe.deref, (h.head.imp hσ).deref_eq, (h.head.imp hempty).deref_eq]
  cases c.head with
  | var v => rfl
  | const k => cases k <;> rfl
  | compound stamp tag args => rfl

end Clause.Over

/-! ### Compilation with other bindings -/

/-- Universes that differ in bindings only, and in none of variables of the kind. -/
structure Universe.Twins (p : Var → Prop) (u u' : Universe) : Prop where
  /-- They have the same symbols. -/
  symbols : u'.symbols = u.symbols
  /-- As many compounds have been built. -/
  stamps : u'.store.stamps = u.store.stamps
  /-- The variables are unbound in the first one. -/
  free : u.store.Free p
  /-- They are in the second one. -/
  free' : u'.store.Free p

/-- Two compilations end alike, with the same result or the same error. -/
inductive Program.Twins {α : Type} (p : Var → Prop) :
    EStateM.Result CompileError Universe α → EStateM.Result CompileError Universe α → Prop where
  | ok {u u' : Universe} (a : α) (h : u.Twins p u') : Twins p (.ok a u) (.ok a u')
  | error {u u' : Universe} (e : CompileError) (h : u.Twins p u') : Twins p (.error e u) (.error e u')

namespace Program

variable {p : Var → Prop} {α β : Type} {u u' : Universe} {cs : List Clause}

theorem Twins.bind {x x' : EStateM CompileError Universe α} {f f' : α → EStateM CompileError Universe β}
    (h : Twins p (x u) (x' u')) (hf : ∀ a v v', v.Twins p v' → Twins p (f a v) (f' a v')) :
    Twins p ((x >>= f) u) ((x' >>= f') u') := by
  simp only [Bind.bind, EStateM.bind]
  generalize x u = r at h
  generalize x' u' = r' at h
  cases h with
  | ok a h => exact hf a _ _ h
  | error e h => exact .error e h

theorem twins_onSymbols (x : EStateM CompileError Symbols α) (h : u.Twins p u') :
    Twins p (onSymbols x u) (onSymbols x u') := by
  obtain ⟨s, σ⟩ := u
  obtain ⟨s', σ'⟩ := u'
  obtain ⟨rfl, hstamps, hfree, hfree'⟩ := h
  unfold onSymbols
  dsimp only
  cases x s' with
  | ok a s => exact .ok a ⟨rfl, hstamps, hfree, hfree'⟩
  | error e s => exact .error e ⟨rfl, hstamps, hfree, hfree'⟩

theorem twins_predicate? {c : Clause} (hc : c.Over p) (h : u.Twins p u') :
    (c.predicate? u).2.Twins p (c.predicate? u').2 := by
  obtain ⟨s, σ⟩ := u
  obtain ⟨s', σ'⟩ := u'
  obtain ⟨rfl, hstamps, hfree, hfree'⟩ := h
  rw [hc.predicate?_eq hfree, hc.predicate?_eq hfree']
  exact ⟨rfl, hstamps, hfree, hfree'⟩

theorem twins_forM_predicate? (hcs : ∀ c ∈ cs, c.Over p) (h : u.Twins p u') :
    Twins p ((cs.forM fun c => modify fun u => (c.predicate? u).2 : EStateM CompileError Universe PUnit) u)
      ((cs.forM fun c => modify fun u => (c.predicate? u).2 : EStateM CompileError Universe PUnit) u') := by
  induction cs generalizing u u' with
  | nil => exact .ok _ h
  | cons c cs ih =>
    rw [List.forall_mem_cons] at hcs
    exact .bind (.ok _ (twins_predicate? hcs.1 h)) fun _ _ _ h => ih hcs.2 h

theorem Twins.get_bind {f f' : Universe → EStateM CompileError Universe α}
    (h : Twins p (f u u) (f' u' u')) : Twins p ((get >>= f) u) ((get >>= f') u') :=
  h

/-- The program of clauses over unbound variables does not depend on the bindings. -/
theorem twins_ofClauses (tag : Tag) (hcs : ∀ c ∈ cs, c.Over p) (h : u.Twins p u') :
    Twins p (ofClauses tag cs u) (ofClauses tag cs u') := by
  have hrules : cs.mapM (Rule.ofClause u'.store) = cs.mapM (Rule.ofClause u.store) := by
    induction cs with
    | nil => rw [List.mapM_nil, List.mapM_nil]
    | cons c cs ih =>
      rw [List.forall_mem_cons] at hcs
      rw [List.mapM_cons, List.mapM_cons, hcs.1.ofClause_eq h.free h.free', ih hcs.2]
  unfold ofClauses
  refine .get_bind ?_
  dsimp only
  rw [h.symbols]
  split
  · exact .error _ h
  refine .get_bind (.bind (hrules ▸ twins_onSymbols _ h) fun rules v v' hv => ?_)
  split
  · exact .error _ hv
  split
  · exact .ok _ hv
  refine .bind (twins_forM_predicate? hcs hv) fun _ v v' hv => .get_bind ?_
  rw [hv.stamps]
  generalize Emit.rules _ rules none _ = written
  cases written with
  | error e _ => exact .error e hv
  | ok _ emitter => exact .ok _ ⟨hv.symbols, rfl, hv.free, hv.free'⟩

end Program

/-- The code of clauses over unbound variables does not depend on the bindings. -/
theorem Chunk.twins_ofClauses {p : Var → Prop} {u u' : Universe} {cs : List Clause} (tag : Tag)
    (hcs : ∀ c ∈ cs, c.Over p) (h : u.Twins p u') :
    Program.Twins p (ofClauses tag cs u) (ofClauses tag cs u') := by
  refine .bind (Program.twins_ofClauses tag hcs h) fun program v v' hv => ?_
  cases program.assemble with
  | ok c => exact .ok c hv
  | error e => exact .error e hv

/-! ### Where clauses come from -/

namespace Clause

variable {u : Universe} {p : Var → Prop}

/-- The parts of a clause are parts of the term that stands for it. -/
theorem over_ofTerm {t : Term} (ht : t.Over p) (hu : u.store.Free p) : (ofTerm t u).1.Over p := by
  obtain ⟨tag, u', hneck, hstore⟩ : ∃ tag u', neck u = (tag, u') ∧ u'.store = u.store :=
    ⟨_, _, rfl, rfl⟩
  have hfact : (Clause.mk t (.atom .trueGoal)).Over p := ⟨ht, .const _⟩
  simp only [ofTerm, bind, StateT.bind, Universe.deref, hneck, hstore, (ht.imp hu).deref_eq]
  split
  · rename_i head body
    cases ht with | compound hparts =>
    dsimp only [pure, StateT.pure]
    split
    · exact ⟨hparts head (by simp), hparts body (by simp)⟩
    · exact hfact
  · exact hfact

end Clause

namespace Database

/-- The variable has been made since the first database was as it was. -/
def MadeSince (d d' : Database) (v : Var) : Prop :=
  d.terms.store.size ≤ v.id ∧ v.id < d'.terms.store.size

/-- Clauses that are in the second database and not in the first one are among the given ones, or over
new variables. -/
structure Receives (gs : List Clause) (d d' : Database) : Prop where
  /-- Terms are built. -/
  terms : d.terms.Extends d'.terms
  /-- The clauses. -/
  clauses : ∀ c, d'.Stores c → d.Stores c ∨ c ∈ gs ∨ c.Over (d.MadeSince d')

namespace Receives

variable {gs : List Clause} {d d' d₁ d₂ d₃ : Database}

theorem of_extends (h : d.terms.Extends d'.terms) (hp : d'.predicates = d.predicates) :
    Receives gs d d' :=
  ⟨h, fun _ ⟨i, cs, hi, hc⟩ => .inl ⟨i, cs, hp ▸ hi, hc⟩⟩

theorem trans (h : Receives gs d₁ d₂) (h' : Receives gs d₂ d₃) : Receives gs d₁ d₃ := by
  refine ⟨h.terms.trans h'.terms, fun c hc => ?_⟩
  obtain hc | hc | hc := h'.clauses c hc
  · refine (h.clauses c hc).imp_right (.imp_right (.imp fun v hv => ?_))
    exact ⟨hv.1, Nat.lt_of_lt_of_le hv.2 h'.terms.store.size⟩
  · exact .inr (.inl hc)
  · exact .inr (.inr (hc.imp fun v hv => ⟨Nat.le_trans h.terms.store.size hv.1, hv.2⟩))

instance : Std.Refl (Receives gs) := ⟨fun _ => .of_extends (.refl _) rfl⟩

instance : Trans (Receives gs) (Receives gs) (Receives gs) := ⟨trans⟩

/-- New variables are unbound. -/
theorem free (h : Receives gs d d') : d'.terms.store.Free (d.MadeSince d') := fun v hv => by
  rw [h.terms.store.value v, Store.value?_of_size_le hv.1]

theorem builds : Builds (Receives gs) :=
  ⟨fun h => .of_extends h rfl, fun _ _ => .of_extends (.refl _) rfl⟩

/-- The predicates are changed, but no clauses are. -/
theorem change (h : Receives gs d d₁) {ps : Std.TreeMap Nat Predicate} (c : Change)
    (policy : Option UnknownPolicy)
    (hps : ∀ (i : Nat) cs, ps[i]? = some (.clauses cs) → d₁.predicates[i]? = some (.clauses cs)) :
    Receives gs d (Database.change c { d₁ with predicates := ps, unknown := policy }) :=
  ⟨h.terms, fun cl ⟨i, cs, hi, hc⟩ => h.clauses cl ⟨i, cs, hps i cs hi, hc⟩⟩

/-- The clauses of a predicate are replaced by clauses that were there before, or are given, or are over
new variables. -/
theorem updateClauses (h : Receives gs d d₁) (tag : Tag) {f : List Clause → List Clause}
    (hf : ∀ cs, ∀ c ∈ f cs, c ∈ cs ∨ c ∈ gs ∨ c.Over (d.MadeSince d₁)) :
    Yields (Database.updateClauses tag f) d₁ (fun _ d₂ => Receives gs d d₂) fun _ _ => False := by
  refine ⟨h.terms, fun c ⟨i, cs, hi, hc⟩ => ?_⟩
  dsimp only at hi
  rw [Std.TreeMap.getElem?_insert] at hi
  split at hi
  · cases hi
    obtain hc | hc := hf _ c hc
    · -- the clause has been one of the predicate
      refine h.clauses c ⟨tag.index, _, ?_, hc⟩
      unfold clauses? at hc ⊢
      split at hc
      · rename_i cs hcs
        rw [hcs]
        rfl
      · cases hc
    · exact .inr hc
  · exact h.clauses c ⟨i, cs, hi, hc⟩

end Receives

theorem placeClause_snd (c : Clause) (d : Database) :
    Yields (placeClause c) d (fun r _ => r.2 = c) fun _ _ => True := by
  have hany {α : Type} {x : DatabaseM α} {d : Database} {Q : α → Database → Prop}
      (h : ∀ a d', Q a d') : Yields x d Q fun _ _ => True := by
    unfold Yields
    split
    · exact h _ _
    · trivial
  rw [placeClause, yields_bind]
  refine hany fun _ _ => ?_
  rw [yields_bind]
  refine hany fun r _ => ?_
  cases r with
  | none => trivial
  | some tag =>
    rw [yields_bind]
    exact hany fun _ _ => rfl

variable {gs : List Clause}

/-- A clause that is read from a term is over new variables. -/
theorem receives_readClause (t : Term) (d : Database) : Yields (readClause t) d
    (fun r d' => Receives gs d d' ∧ r.2.Over (d.MadeSince d')) fun _ d' => Receives gs d d' := by
  have hext := Universe.extending_copy t d.terms
  rw [readClause, yields_bind, yields_onTerms]
  have hover : (Universe.copy t d.terms).1.Over
      (d.MadeSince { d with terms := (Universe.copy t d.terms).2 }) := d.terms.store.over_copy t
  have hcopied : Receives gs d { d with terms := (Universe.copy t d.terms).2 } := .of_extends hext rfl
  generalize (Universe.copy t d.terms).1 = t₁ at hover ⊢
  generalize { d with terms := (Universe.copy t d.terms).2 } = d₁ at hover hcopied ⊢
  have hplace : Yields (do placeClause (← onTerms (Clause.ofTerm t₁))) d₁
      (fun r d' => Receives gs d d' ∧ r.2.Over (d.MadeSince d')) fun _ d' => Receives gs d d' := by
    rw [yields_bind, yields_onTerms]
    have hc := Clause.over_ofTerm (u := d₁.terms) hover hcopied.free
    have hread : Receives gs d₁ { d₁ with terms := (Clause.ofTerm t₁ d₁.terms).2 } :=
      .of_extends (Clause.extending_ofTerm t₁ d₁.terms) rfl
    refine ((keeps_placeClause Receives.builds _ _).and (placeClause_snd _ _)).imp
      (fun r d' h => ?_) fun _ d' h => (hcopied.trans hread).trans h.1
    obtain ⟨h, hr⟩ := h
    refine ⟨(hcopied.trans hread).trans h, hr ▸ hc.imp fun v hv => ⟨hv.1, ?_⟩⟩
    exact Nat.lt_of_lt_of_le hv.2 (hread.trans h).terms.store.size
  cases t₁ with
  | var v =>
    rw [yields_bind, raise, yields_bind, yields_onTerms, yields_throw]
    exact hcopied.trans (.of_extends (Exception.extending_ofError .instantiation d₁.terms) rfl)
  | _ => exact hplace

/-- The clauses that a change puts into the database as they are. -/
def Mutation.given : Mutation → List Clause
  | define _ cs => cs
  | _ => []

/-- A change puts copies into the database, unless it replaces the clauses of a predicate. -/
theorem receives_mutation (m : Mutation) : Keeps (Receives m.given) m.run := by
  have hR {gs : List Clause} : Builds (Receives gs) := Receives.builds
  have hadd (t : Term) {f : Clause → List Clause → List Clause}
      (hf : ∀ c cs, ∀ c' ∈ f c cs, c' ∈ cs ∨ c' = c) :
      Keeps (Receives []) (readClause t >>= fun r => updateClauses r.1 (f r.2)) := by
    intro d
    rw [yields_bind]
    refine (receives_readClause t d).imp (fun r d₁ h => ?_) fun _ _ h => h
    refine (h.1.updateClauses r.1 fun cs c hc => ?_).imp (fun _ _ h => h) fun _ _ h => h.elim
    exact (hf r.2 cs c hc).imp_right fun (heq : c = r.2) => .inr (heq ▸ h.2)
  cases m with
  | addClause t => exact hadd t (f := fun c cs => cs ++ [c]) fun c cs c' hc => by simpa using hc
  | addClauseFront t => exact hadd t (f := List.cons) fun c cs c' hc => (List.mem_cons.mp hc).symm
  | removeClause tag i =>
    refine .map _ ((keeps_checkModifiable hR tag).bind fun _ => .bind .get fun d => .ite ?_ (.pure _))
    refine Keeps.bind (fun d₁ => ?_) fun _ => .pure _
    refine (Receives.updateClauses (Std.Refl.refl d₁) tag fun cs c hc => .inl ?_).imp (fun _ _ h => h)
      fun _ _ h => h.elim
    exact (List.eraseIdx_sublist cs i).subset hc
  | define tag cs =>
    refine (keeps_checkModifiable hR tag).bind fun _ => ?_
    refine (Keeps.forM (fun c => ?_) cs).bind fun _ d₁ => ?_
    · refine (keeps_checkClause hR c).bind fun _ => ?_
      refine (keeps_onTerms hR (Clause.extending_predicate? c)).bind fun r => ?_
      exact .ite (.pure _) (keeps_raise hR _)
    · exact (Receives.updateClauses (Std.Refl.refl d₁) tag fun _ c hc => .inr (.inl hc)).imp
        (fun _ _ h => h) fun _ _ h => h.elim
  | registerNative tag n =>
    have hgive : Keeps (Receives []) (do setPredicate tag (.native n); changed (.native tag)) := by
      refine fun d => (Std.Refl.refl d : Receives [] d d).change (.native tag) d.unknown fun i cs hi => ?_
      rw [Std.TreeMap.getElem?_insert] at hi
      split at hi
      · cases hi
      · exact hi
    exact .ite ((keeps_refuseChange hR tag).bind fun _ => hgive) hgive
  | abolish tag =>
    have htake : Keeps (Receives []) (do
        if (← get).isDefined tag then
          modify fun db => { db with predicates := db.predicates.erase tag.index }
          changed (.abolished tag)
          return true
        else return false) := by
      refine .bind .get fun d => .ite ?_ (.pure _)
      refine fun d => (Std.Refl.refl d : Receives [] d d).change (.abolished tag) d.unknown fun i cs hi => ?_
      rw [Std.TreeMap.getElem?_erase] at hi
      split at hi
      · cases hi
      · exact hi
    exact .map _ (.ite ((keeps_refuseChange hR tag).bind fun _ => htake) htake)
  | setUnknown policy =>
    exact fun d => (Std.Refl.refl d : Receives [] d d).change .flags policy fun _ _ h => h
  | subscribe => exact fun d => .of_extends (.refl _) rfl

/-! ### Databases with clauses of their own -/

/-- How a database comes by its clauses, `p` being the variables in them: those that were made for
copies, and those of clauses that were given. None of these is bound when a clause with it is stored,
and none is afterwards; all else may be done to the database, and any other variables bound. -/
inductive Fed : Database → (Var → Prop) → Prop where
  | initial : Fed .initial (MadeSince .empty .initial)
  | changed {d d' : Database} {p q : Var → Prop} (h : Fed d p) (m : Mutation) (hm : Ends m.run d d')
      (hgiven : ∀ c ∈ m.given, c.Over q) (hfree : d.terms.store.Free q) :
      Fed d' fun v => p v ∨ q v ∨ d.MadeSince d' v
  | meanwhile {d d' : Database} {p : Var → Prop} (h : Fed d p) (hp : d'.predicates = d.predicates)
      (hfree : d'.terms.store.Free p) : Fed d' p

/-- The clauses are over variables of the kind, and none of these is bound. -/
structure Owns (p : Var → Prop) (d : Database) : Prop where
  /-- The variables of the clauses. -/
  clauses : ∀ c, d.Stores c → c.Over p
  /-- They are unbound. -/
  free : d.terms.store.Free p

theorem owns_initial : initial.Owns (MadeSince .empty .initial) := by
  have hregister : Keeps (Receives []) registerBuiltins := by
    refine .forM (fun ⟨name, arity, b⟩ => ?_) builtins
    exact (keeps_onTerms Receives.builds (Universe.extending_tagNamed name arity)).bind fun tag =>
      receives_mutation (.registerNative tag (.builtin b))
  have hinitial : Receives [] empty initial := by
    unfold initial
    split
    · rename_i h
      exact hregister.ends (.inl ⟨_, h⟩)
    · rename_i h
      exact hregister.ends (.inr ⟨_, h⟩)
  refine ⟨fun c hc => ?_, hinitial.free⟩
  obtain ⟨i, cs, hi, -⟩ | hc | hc := hinitial.clauses c hc
  · simp [empty] at hi
  · cases hc
  · exact hc

/-- A change leaves the database with clauses over variables of their own. -/
theorem Owns.changed {d d' : Database} {p q : Var → Prop} (h : d.Owns p) (m : Mutation)
    (hm : Ends m.run d d') (hgiven : ∀ c ∈ m.given, c.Over q) (hfree : d.terms.store.Free q) :
    d'.Owns fun v => p v ∨ q v ∨ d.MadeSince d' v := by
  have hreceives := (receives_mutation m).ends hm
  have hkept (v : Var) : d'.terms.store.value? v = d.terms.store.value? v :=
    hreceives.terms.store.value v
  refine ⟨fun c hc => ?_, fun v hv => ?_⟩
  · obtain hc | hc | hc := hreceives.clauses c hc
    · exact (h.clauses c hc).imp fun v => .inl
    · exact (hgiven c hc).imp fun v hv => .inr (.inl hv)
    · exact hc.imp fun v hv => .inr (.inr hv)
  · obtain hv | hv | hv := hv
    · exact (hkept v).trans (h.free v hv)
    · exact (hkept v).trans (hfree v hv)
    · exact hreceives.free v hv

variable {d : Database} {p : Var → Prop}

theorem Fed.owns (h : Fed d p) : d.Owns p := by
  induction h with
  | initial => exact owns_initial
  | changed _ m hm hgiven hfree ih => exact ih.changed m hm hgiven hfree
  | @meanwhile d d' p _ hp hfree ih =>
    exact ⟨fun c ⟨i, cs, hi, hc⟩ => ih.clauses c ⟨i, cs, hp ▸ hi, hc⟩, hfree⟩

/-- Terms may be built meanwhile. -/
theorem Fed.built {u : Universe} (h : Fed d p) (hu : d.terms.Extends u) : Fed { d with terms := u } p :=
  .meanwhile h rfl fun v hv => (hu.store.value v).trans (h.owns.free v hv)

/-- A clause that is added brings no variables of the caller with it. -/
theorem Fed.added {d' : Database} {t : Term} (h : Fed d p) (hadd : addClause t d = .ok () d') :
    Fed d' fun v => p v ∨ False ∨ d.MadeSince d' v :=
  h.changed (.addClause t) (.inl ⟨(), hadd⟩) (fun _ hc => absurd hc List.not_mem_nil) fun _ hv => hv.elim

/-- What the clauses of a database say, and the code they are compiled to, is the same whatever the
variables are bound to that are not theirs. -/
theorem Fed.independent (h : Fed d p) :
    (∀ (c : Clause) (d' : Database), d.Stores c → d'.terms.store.Free p → d'.reads c = d.reads c) ∧
    ∀ (tag : Tag) (cs : List Clause) (u : Universe), d.clauses? tag = some cs → d.terms.Twins p u →
      Program.Twins p (Chunk.ofClauses tag cs d.terms) (Chunk.ofClauses tag cs u) := by
  refine ⟨fun c d' hc hfree => ?_, fun tag cs u hcs hu => ?_⟩
  · have hover := h.owns.clauses c hc
    rw [hover.reads_eq hfree, hover.reads_eq h.owns.free]
  · refine Chunk.twins_ofClauses tag (fun c hc => h.owns.clauses c ⟨tag.index, cs, ?_, hc⟩) hu
    unfold clauses? at hcs
    split at hcs
    · rename_i cs' hcs'
      cases hcs
      exact hcs'
    · cases hcs

/-- The term `p(X)`, with a new variable. -/
def sampleHead : StateM Universe Term := do
  Universe.compound (← Universe.tagNamed "p" 1) [.var (← Universe.fresh)]

theorem extending_sampleHead : Universe.Extending sampleHead :=
  (Universe.extending_tagNamed "p" 1).bind fun _ => Universe.extending_fresh.bind fun _ =>
    Universe.extending_compound _ _

/-- A database in which the term has been built. -/
def sample : Database :=
  { initial with terms := (sampleHead initial.terms).2 }

/-- The clause `p(X)` is added, and its variable is not that of the caller. -/
theorem independent_added : ∃ d p, addClause (sampleHead initial.terms).1 sample = .ok () d ∧
    Fed d p ∧ sample.terms.store.vars (sampleHead initial.terms).1 = [⟨0⟩] ∧ ¬p ⟨0⟩ ∧
    (∀ (c : Clause) (d' : Database), d.Stores c → d'.terms.store.Free p → d'.reads c = d.reads c) ∧
    ∀ (tag : Tag) (cs : List Clause) (u : Universe), d.clauses? tag = some cs → d.terms.Twins p u →
      Program.Twins p (Chunk.ofClauses tag cs d.terms) (Chunk.ofClauses tag cs u) := by
  have hrun : (answer? (addClause (sampleHead initial.terms).1) sample).isSome := by decide +kernel
  obtain ⟨⟨⟨⟩, d⟩, hd⟩ := Option.isSome_iff_exists.mp hrun
  have hadd := answer?_eq_some.mp hd
  have hfed := (Fed.initial.built (extending_sampleHead initial.terms)).added hadd
  refine ⟨d, _, hadd, hfed, by decide +kernel, ?_, hfed.independent⟩
  rintro (⟨-, h⟩ | h | ⟨h, -⟩)
  · exact absurd h (by decide +kernel)
  · exact h
  · exact absurd h (by decide +kernel)

end Database

end Resolvent
