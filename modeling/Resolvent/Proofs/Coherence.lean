import Resolvent.Proofs.Enclosing
import Resolvent.Proofs.Updating

/-!
# Lookups find what is in force

A call finds what it leads to through two memories. The code cache keeps the code of a predicate until
the predicate changes, and a call site keeps a callee that is believed in the generation in which it
was found. Both are shared by all engines that work on the database.

`Database.Serves d L d'` says that a database is led to another one in any number of steps, each of
which builds terms, loads code, makes a change or answers a call's lookup; `L` are the lookups, the
latest first. So whatever a number of engines do, and however their steps alternate, they do it in this
way. What keeps the memories right is `Database.Coherent`: code in the cache belongs to the clauses in
force, and so does a callee of the present generation at a call site. No step breaks it
(`Database.Evolves.coherent`, `Database.coherent_findCallee`), and in a coherent database a lookup is
`Lookup.Right`: it finds code compiled from the clauses that are in force at that moment, or what else
the database says there.
-/

namespace Resolvent

/-! ### Lookups -/

/-- What a clause says in a database. -/
def Database.reads (d : Database) (c : Clause) : Tree × Tree :=
  (d.terms.store.resolve c.head, d.terms.store.resolve c.body)

namespace Lookup

/-- The database of the lookup gives the tag by the clauses, and this is their code. -/
structure Compiled (x : Lookup) (cs : List Clause) (c : Chunk) : Prop where
  /-- The clauses in force. -/
  clauses : x.database.predicates[x.tag.index]? = some (.clauses cs)
  /-- Their code. -/
  chunk : ∃ u, Chunk.ofClauses x.tag cs x.database.terms = .ok c u

/-- What is found for a control construct. -/
def ofControl : EStateM.Result Exception Database (Code × Array Term) →
    Except Stop (Option (Callee × Array Term))
  | .ok (code, args) _ => .ok (some (.code code, args))
  | .error e _ => .error (.thrown e)

/-- What is found for a tag that is not given. -/
def ofPolicy (tag : Tag) (u : Universe) : UnknownPolicy → Except Stop (Option (Callee × Array Term))
  | .fail => .ok none
  | .error => .error (.thrown (Exception.unknownProcedure tag u).1)

/-- The lookup has found what the database says of the tag. If these are clauses, then it has found
code that was compiled from them, by the lookup itself or by one of those before it, when they said
what they say now. -/
inductive Right (L : List Lookup) (x : Lookup) : Prop where
  /-- A control construct. -/
  | control (htag : x.tag.isControl = true)
      (found : x.found = ofControl (Database.controlCode x.tag x.args.toList x.database))
  /-- A native predicate. -/
  | native {n : Native} (htag : x.tag.isControl = false)
      (given : x.database.predicates[x.tag.index]? = some (.native n))
      (found : x.found = .ok (some (.native n, x.args)))
  /-- Clauses. -/
  | code {cs : List Clause} {c : Code} {y : Lookup} (htag : x.tag.isControl = false)
      (given : x.database.predicates[x.tag.index]? = some (.clauses cs))
      (hy : y ∈ x :: L) (same : y.tag = x.tag) (compiled : y.Compiled cs c.chunk)
      (symbols : y.database.terms.symbols.Extends x.database.terms.symbols)
      (reads : ∀ c ∈ cs, y.database.reads c = x.database.reads c)
      (found : x.found = .ok (some (.code c, x.args)))
  /-- Clauses that cannot be compiled. -/
  | refused {cs : List Clause} {e : CompileError} {u : Universe} (htag : x.tag.isControl = false)
      (given : x.database.predicates[x.tag.index]? = some (.clauses cs))
      (compiled : Chunk.ofClauses x.tag cs x.database.terms = .error e u)
      (found : x.found = .error (.thrown (Exception.ofError e.kind u).1))
  /-- Nothing. -/
  | undefined (htag : x.tag.isControl = false)
      (given : x.database.predicates[x.tag.index]? = none)
      (found : x.found = ofPolicy x.tag x.database.terms x.policy)

end Lookup

/-! ### What is done to a shared database -/

/-- The step ends in the state, with an answer or without. -/
def Ends {ε σ α : Type} (x : EStateM ε σ α) (s t : σ) : Prop :=
  (∃ a, x s = .ok a t) ∨ ∃ e, x s = .error e t

theorem Keeps.ends {ε σ α : Type} {R : σ → σ → Prop} {x : EStateM ε σ α} {s t : σ} (hx : Keeps R x)
    (h : Ends x s t) : R s t := by
  obtain ⟨a, h⟩ | ⟨e, h⟩ := h
  · exact (yields_ok (hx s) h :)
  · exact (yields_error (hx s) h :)

theorem Ends.discard {ε σ α : Type} {x : EStateM ε σ α} {s t : σ} (h : Ends x s t) :
    Ends (Functor.discard x) s t := by
  have hdiscard : Functor.discard x s = EStateM.map (fun _ => PUnit.unit) x s := rfl
  refine h.imp (fun ⟨a, h⟩ => ⟨⟨⟩, ?_⟩) fun ⟨e, h⟩ => ⟨e, ?_⟩
  · rw [hdiscard, EStateM.map, h]
  · rw [hdiscard, EStateM.map, h]

namespace Database

/-- The predicates as they are, but for that of the change. -/
def Spares (c : Change) (d : Database) (ps : Std.TreeMap Nat Predicate) : Prop :=
  ∀ i : Nat, (∀ tag, c.tag? = some tag → tag.index ≠ i) → ps[i]? = d.predicates[i]?

/-- The database after a change. -/
def change (c : Change) (d : Database) : Database :=
  { d with
    generation := d.generation + 1
    codeCache := match c.tag? with
      | some tag => (d.codeCache.evict tag).2
      | none => d.codeCache
    journal := d.journal ++ Array.replicate d.listeners (.change c) }

/-- What is done to a database apart from looking up calls. -/
inductive Evolves : Database → Database → Prop where
  | refl {d : Database} : Evolves d d
  | trans {d₁ d₂ d₃ : Database} (h : Evolves d₁ d₂) (h' : Evolves d₂ d₃) : Evolves d₁ d₃
  /-- Terms are built, and variables are bound or become unbound. -/
  | terms {d : Database} {u : Universe} (h : d.terms.symbols.Extends u.symbols) :
      Evolves d { d with terms := u }
  /-- Code is loaded. -/
  | load {d : Database} (c : Chunk) :
      Evolves d { d with sites := d.sites ++ c.tags.map fun tag => (tag, .empty) }
  /-- Changes are listened to, or something is noted. -/
  | listen {d : Database} (listeners : Nat) (journal : Array Event) :
      Evolves d { d with listeners, journal }
  /-- A predicate is changed, or what a call of an unknown predicate does. -/
  | change {d : Database} {c : Change} {ps : Std.TreeMap Nat Predicate}
      (policy : Option UnknownPolicy) (h : d.Spares c ps) :
      Evolves d (change c { d with predicates := ps, unknown := policy })

instance : Std.Refl Evolves := ⟨fun _ => .refl⟩

instance : Trans Evolves Evolves Evolves := ⟨.trans⟩

/-- What is done to a database, with the lookups that it has answered, the latest first. -/
inductive Serves : Database → List Lookup → Database → Prop where
  | quiet {d d' : Database} (h : Evolves d d') : Serves d [] d'
  | trans {d₁ d₂ d₃ : Database} {L L' : List Lookup} (h : Serves d₁ L d₂) (h' : Serves d₂ L' d₃) :
      Serves d₁ (L' ++ L) d₃
  /-- A call of an engine looks for what it leads to. -/
  | found {d : Database} {s : Workspace} {e : Engine} {site : Nat} {tag : Tag} {args : Array Term}
      {r : Option (Callee × Array Term)} (h : Activation.findCallee site tag args ⟨d, e⟩ = .ok r s) :
      Serves d [⟨d, Workspace.unknownPolicy ⟨d, e⟩, tag, args, .ok r⟩] s.database
  /-- A call of an engine looks for what it leads to, and there is an exception. -/
  | failed {d : Database} {s : Workspace} {e : Engine} {site : Nat} {tag : Tag} {args : Array Term}
      {x : Stop} (h : Activation.findCallee site tag args ⟨d, e⟩ = .error x s) :
      Serves d [⟨d, Workspace.unknownPolicy ⟨d, e⟩, tag, args, .error x⟩] s.database

/-! ### Coherence -/

/-- What the tag is given by is the callee; code has been compiled by one of the lookups. -/
inductive Gives (L : List Lookup) (d : Database) (tag : Tag) : Callee → Prop where
  | native {n : Native} (given : d.predicates[tag.index]? = some (.native n)) :
      Gives L d tag (.native n)
  | code {c : Code} {cs : List Clause} {y : Lookup}
      (given : d.predicates[tag.index]? = some (.clauses cs)) (hy : y ∈ L) (same : y.tag = tag)
      (compiled : y.Compiled cs c.chunk) : Gives L d tag (.code c)

/-- What is remembered belongs to what is in force. -/
structure Coherent (L : List Lookup) (d : Database) : Prop where
  /-- The tags mean what they meant to the lookups. -/
  symbols : ∀ y ∈ L, y.database.terms.symbols.Extends d.terms.symbols
  /-- The code cache holds code of the clauses in force. -/
  cached : ∀ (i : Nat) (c : Code), d.codeCache.entries[i]? = some c → d.Gives L ⟨i⟩ (.code c)
  /-- A callee that was found in this generation is what is in force. -/
  known : ∀ (i : Nat) (tag : Tag) (g : Nat) (callee : Callee),
    d.sites[i]? = some (tag, .ofCallee g callee) →
      g ≤ d.generation ∧ (g = d.generation → tag.isControl = false ∧ d.Gives L tag callee)

variable {L L' : List Lookup} {d d' : Database} {tag : Tag} {callee : Callee}

theorem Gives.mono (h : d.Gives L tag callee) (hL : L ⊆ L')
    (hp : d'.predicates[tag.index]? = d.predicates[tag.index]?) : d'.Gives L' tag callee := by
  cases h with
  | native given => exact .native (hp.trans given)
  | code given hy same compiled => exact .code (hp.trans given) (hL hy) same compiled

namespace Coherent

theorem nil (hcache : ∀ i : Nat, d.codeCache.entries[i]? = none) (hsites : d.sites = #[]) :
    d.Coherent [] where
  symbols _ hy := absurd hy List.not_mem_nil
  cached i c hc := by
    rw [hcache i] at hc
    cases hc
  known i tag g callee hi := by
    rw [hsites] at hi
    cases hi

/-- Terms are built, and bindings are made and undone. -/
theorem terms (hd : d.Coherent L) {u : Universe} (h : d.terms.symbols.Extends u.symbols) :
    Coherent L { d with terms := u } where
  symbols y hy := (hd.symbols y hy).trans h
  cached i c hc := (hd.cached i c hc).mono (List.Subset.refl L) rfl
  known i tag g callee hi := by
    obtain ⟨hg, hnow⟩ := hd.known i tag g callee hi
    exact ⟨hg, fun heq => (hnow heq).imp_right (·.mono (List.Subset.refl L) rfl)⟩

/-- New call sites remember nothing. -/
theorem load (hd : d.Coherent L) (c : Chunk) :
    Coherent L { d with sites := d.sites ++ c.tags.map fun tag => (tag, .empty) } where
  symbols := hd.symbols
  cached i c hc := (hd.cached i c hc).mono (List.Subset.refl L) rfl
  known i tag g callee hi := by
    dsimp only at hi
    rw [Array.getElem?_append] at hi
    split at hi
    · obtain ⟨hg, hnow⟩ := hd.known i tag g callee hi
      exact ⟨hg, fun heq => (hnow heq).imp_right (·.mono (List.Subset.refl L) rfl)⟩
    · rw [Array.getElem?_map, Option.map_eq_some_iff] at hi
      obtain ⟨_, -, hi⟩ := hi
      cases hi

/-- A change leaves the code of other predicates in the cache, and no callee at a call site is of the
new generation. -/
theorem change (hd : d.Coherent L) {c : Change} {ps : Std.TreeMap Nat Predicate}
    (policy : Option UnknownPolicy) (h : d.Spares c ps) :
    Coherent L (Database.change c { d with predicates := ps, unknown := policy }) where
  symbols := hd.symbols
  cached i code hcode := by
    have hkept : d.codeCache.entries[i]? = some code ∧ ∀ tag, c.tag? = some tag → tag.index ≠ i := by
      dsimp only [Database.change] at hcode
      split at hcode
      · rename_i tag htag
        rw [CodeCache.evict, Std.TreeMap.getElem?_erase] at hcode
        split at hcode
        · cases hcode
        · rename_i hne
          refine ⟨hcode, fun tag' htag' heq => hne ?_⟩
          obtain rfl := Option.some.inj (htag.symm.trans htag')
          exact Std.compare_eq_iff_eq.mpr heq
      · rename_i hnone
        exact ⟨hcode, fun tag htag => by rw [hnone] at htag; cases htag⟩
    exact (hd.cached i code hkept.1).mono (List.Subset.refl L) (h i hkept.2)
  known i tag g callee hi := by
    have hg := (hd.known i tag g callee hi).1
    refine ⟨Nat.le_succ_of_le hg, fun heq => absurd heq ?_⟩
    show g ≠ d.generation + 1
    omega

/-- The code cache is asked. -/
theorem ask (hd : d.Coherent L) {cache : CodeCache} (h : cache.entries = d.codeCache.entries) :
    Coherent L { d with codeCache := cache } where
  symbols := hd.symbols
  cached i c hc := (hd.cached i c (h ▸ hc)).mono (List.Subset.refl L) rfl
  known i tag g callee hi := by
    obtain ⟨hg, hnow⟩ := hd.known i tag g callee hi
    exact ⟨hg, fun heq => (hnow heq).imp_right (·.mono (List.Subset.refl L) rfl)⟩

/-- Code of the clauses in force is put into the cache. -/
theorem insert (hd : d.Coherent L) {code : Code} (h : d.Gives L tag (.code code)) :
    Coherent L { d with codeCache := d.codeCache.insert tag code } where
  symbols := hd.symbols
  cached i c hc := by
    rw [CodeCache.insert, Std.TreeMap.getElem?_insert] at hc
    split at hc
    · rename_i heq
      obtain rfl := Std.LawfulEqCmp.eq_of_compare heq
      obtain rfl := Option.some.inj hc
      exact h.mono (List.Subset.refl L) rfl
    · exact (hd.cached i c hc).mono (List.Subset.refl L) rfl
  known i tag g callee hi := by
    obtain ⟨hg, hnow⟩ := hd.known i tag g callee hi
    exact ⟨hg, fun heq => (hnow heq).imp_right (·.mono (List.Subset.refl L) rfl)⟩

/-- A call site remembers what is in force. -/
theorem remember (hd : d.Coherent L) (site : Nat) (htag : tag.isControl = false)
    (h : d.Gives L tag callee) {g : Nat} (hg : g = d.generation) : Coherent L { d with
      sites := d.sites.setIfInBounds site (tag, .ofCallee g callee) } where
  symbols := hd.symbols
  cached i c hc := (hd.cached i c hc).mono (List.Subset.refl L) rfl
  known i tag' g callee' hi := by
    dsimp only at hi
    rw [Array.getElem?_setIfInBounds] at hi
    split at hi
    · split at hi
      · cases hi
        exact ⟨Nat.le_of_eq hg, fun _ => ⟨htag, h.mono (List.Subset.refl L) rfl⟩⟩
      · cases hi
    · obtain ⟨hg, hnow⟩ := hd.known i tag' g callee' hi
      exact ⟨hg, fun heq => (hnow heq).imp_right (·.mono (List.Subset.refl L) rfl)⟩

/-- A lookup is made in the database. -/
theorem look (hd : d.Coherent L) {x : Lookup} (hx : x.database = d) : d.Coherent (x :: L) where
  symbols y hy := by
    obtain rfl | hy := List.mem_cons.mp hy
    · exact hx ▸ .refl _
    · exact hd.symbols y hy
  cached i c hc := (hd.cached i c hc).mono (List.subset_cons_self x L) rfl
  known i tag g callee hi := by
    obtain ⟨hg, hnow⟩ := hd.known i tag g callee hi
    exact ⟨hg, fun heq => (hnow heq).imp_right (·.mono (List.subset_cons_self x L) rfl)⟩

end Coherent

/-- Nothing that is done to a coherent database breaks its coherence. -/
theorem Evolves.coherent (h : Evolves d d') (hd : d.Coherent L) : d'.Coherent L := by
  induction h with
  | refl => exact hd
  | trans _ _ ih ih' => exact ih' (ih hd)
  | terms h => exact hd.terms h
  | load c => exact hd.load c
  | listen listeners journal =>
    exact ⟨hd.symbols, fun i c hc => (hd.cached i c hc).mono (List.Subset.refl L) rfl,
      fun i tag g callee hi => (hd.known i tag g callee hi).imp_right fun hnow heq =>
        (hnow heq).imp_right (·.mono (List.Subset.refl L) rfl)⟩
  | change policy h => exact hd.change policy h

theorem builds_evolves : Builds Evolves :=
  ⟨fun h => .terms h.symbols, fun _ c => .load c⟩

/-! ### Lookups in a coherent database -/

/-- What a call of the tag leads to. -/
inductive Resolves (L : List Lookup) (d : Database) (tag : Tag) : Resolved → Database → Prop where
  | control (htag : tag.isControl = true) : Resolves L d tag .control d
  | undefined (htag : tag.isControl = false) (given : d.predicates[tag.index]? = none) :
      Resolves L d tag .undefined d
  | callee {c : Callee} {d' : Database} (htag : tag.isControl = false) (gives : d.Gives L tag c)
      (gives' : d'.Gives L tag c) (generation : d'.generation = d.generation) :
      Resolves L d tag (.callee c) d'

/-- For a lookup, code is taken from the cache or compiled. -/
theorem coherent_resolve (hd : d.Coherent L) (tag : Tag) : Yields (resolve tag) d
    (fun r d' => ∀ x : Lookup, x.database = d → x.tag = tag →
      d'.Coherent (x :: L) ∧ Resolves (x :: L) d tag r d')
    fun e d' => (∀ x : Lookup, x.database = d → d'.Coherent (x :: L)) ∧ tag.isControl = false ∧
      ∃ cs k u, d.predicates[tag.index]? = some (.clauses cs) ∧
        Chunk.ofClauses tag cs d.terms = .error k u ∧ e = (Exception.ofError k.kind u).1 := by
  rw [resolve]
  split
  · rename_i htag
    exact fun x hx _ => ⟨hd.look hx, .control htag⟩
  rename_i htag
  rw [Bool.not_eq_true] at htag
  rw [yields_bind, yields_get]
  split
  · rename_i hnone
    exact fun x hx _ => ⟨hd.look hx, .undefined htag hnone⟩
  · rename_i n hn
    exact fun x hx _ => ⟨hd.look hx, .callee htag (.native hn) (.native hn) rfl⟩
  rename_i cs hcs
  rw [yields_bind, yields_modifyGet]
  -- asking the cache changes its counters only
  have hasked : (d.codeCache.get tag).2.entries = d.codeCache.entries ∧
      (d.codeCache.get tag).1 = d.codeCache.entries[tag.index]? := by
    unfold CodeCache.get
    split
    · rename_i code hcode
      exact ⟨rfl, hcode.symm⟩
    · rename_i hnone
      exact ⟨rfl, hnone.symm⟩
  dsimp only
  split
  · rename_i code hcode
    intro x hx _
    have hgives := (hd.look hx).cached _ code (hasked.2.symm.trans hcode)
    exact ⟨(hd.look hx).ask hasked.1, .callee htag hgives (hgives.mono (List.Subset.refl _) rfl) rfl⟩
  rw [yields_bind, yields_compile]
  have hgrows := Chunk.keeps_ofClauses tag cs d.terms
  unfold Yields at hgrows ⊢
  cases hcompiled : Chunk.ofClauses tag cs d.terms with
  | error k u =>
    rw [hcompiled] at hgrows
    refine ⟨fun x hx => ?_, htag, cs, k, u, hcs, hcompiled, rfl⟩
    exact ((hd.look hx).ask hasked.1).terms (hgrows.trans (Exception.extending_ofError k.kind u)).symbols
  | ok c u =>
    rw [hcompiled] at hgrows
    intro x hx hxtag
    have hcode : d.Gives (x :: L) tag (.code ⟨c, d.sites.size⟩) :=
      .code hcs (List.mem_cons_self ..) hxtag
        ⟨by rw [hx, hxtag]; exact hcs, u, by rw [hx, hxtag]; exact hcompiled⟩
    have hload := (((hd.look hx).ask hasked.1).terms hgrows.symbols).load c
    exact ⟨hload.insert (hcode.mono (List.Subset.refl _) rfl),
      .callee htag hcode (hcode.mono (List.Subset.refl _) rfl) rfl⟩

/-- A clause of the database. -/
def Stores (d : Database) (c : Clause) : Prop :=
  ∃ (i : Nat) (cs : List Clause), d.predicates[i]? = some (.clauses cs) ∧ c ∈ cs

/-- A clause says the same in all of the databases that store it. -/
def Steady (D : List Database) : Prop :=
  ∀ d ∈ D, ∀ d' ∈ D, ∀ c, d.Stores c → d'.Stores c → d.reads c = d'.reads c

theorem Steady.mono {D D' : List Database} (h : Steady D') (hD : D ⊆ D') : Steady D :=
  fun d hd d' hd' => h d (hD hd) d' (hD hd')

/-- What the tag is given by has been found. -/
theorem Gives.right {x : Lookup} (h : x.database.Gives (x :: L) x.tag callee)
    (hsymbols : ∀ y ∈ L, y.database.terms.symbols.Extends x.database.terms.symbols)
    (hsteady : Steady (x.database :: L.map Lookup.database)) (htag : x.tag.isControl = false)
    (hfound : x.found = .ok (some (callee, x.args))) : x.Right L := by
  cases h with
  | native given => exact .native htag given hfound
  | @code c cs y given hy same compiled =>
    have hy' : y.database ∈ x.database :: L.map Lookup.database := List.mem_map_of_mem hy
    refine .code htag given hy same compiled ?_ (fun cl hcl => ?_) hfound
    · obtain rfl | hy := List.mem_cons.mp hy
      · exact .refl _
      · exact hsymbols y hy
    · exact hsteady _ hy' _ (List.mem_cons_self ..) cl ⟨_, cs, compiled.clauses, hcl⟩
        ⟨_, cs, given, hcl⟩

theorem known?_eq_some {site : Nat} (h : d.known? site tag = some callee) :
    d.sites[site]? = some (tag, .ofCallee d.generation callee) := by
  unfold known? at h
  split at h
  · rename_i called s hs
    split at h
    · rename_i heq
      obtain ⟨_ | ⟨g, found⟩⟩ := s
      · cases h
      · change (if g = d.generation then some found else none) = some callee at h
        split at h
        · rename_i hg
          cases h
          rw [hs, heq, hg]
          rfl
        · cases h
    · cases h
  · cases h

/-- A lookup in a coherent database is right, and leaves the database coherent. -/
theorem coherent_findCallee (hd : d.Coherent L) {e : Engine} {site : Nat} {args : Array Term}
    (hsteady : Steady (d :: L.map Lookup.database)) :
    Yields (Activation.findCallee site tag args) ⟨d, e⟩
      (fun r s => Lookup.Right L ⟨d, Workspace.unknownPolicy ⟨d, e⟩, tag, args, .ok r⟩ ∧
        s.database.Coherent (⟨d, Workspace.unknownPolicy ⟨d, e⟩, tag, args, .ok r⟩ :: L))
      fun x s => Lookup.Right L ⟨d, Workspace.unknownPolicy ⟨d, e⟩, tag, args, .error x⟩ ∧
        s.database.Coherent (⟨d, Workspace.unknownPolicy ⟨d, e⟩, tag, args, .error x⟩ :: L) := by
  rw [Activation.findCallee, yields_bind, yields_get, yields_bind, yields_get]
  split
  · -- the call site remembers
    rename_i callee hknown
    obtain ⟨htag, hgives⟩ := (hd.known site tag _ callee (known?_eq_some hknown)).2 rfl
    exact ⟨(hgives.mono (List.subset_cons_self ..) rfl).right hd.symbols hsteady htag rfl, hd.look rfl⟩
  rw [yields_bind, Engine.yields_onDatabase]
  refine (coherent_resolve hd tag).imp (fun r d' hr => ?_) fun x d' hr => ?_
  · cases r with
    | callee callee =>
      rw [yields_bind, yields_modify, yields_pure]
      obtain ⟨hd', hresolves⟩ :=
        hr ⟨d, Workspace.unknownPolicy ⟨d, e⟩, tag, args, .ok (some (callee, args))⟩ rfl rfl
      cases hresolves with
      | callee htag hgives hgives' hgeneration =>
        exact ⟨hgives.right hd.symbols hsteady htag rfl, hd'.remember site htag hgives' hgeneration.symm⟩
    | control =>
      cases (hr ⟨d, .fail, tag, args, .ok none⟩ rfl rfl).2 with
      | control htag =>
        rw [yields_bind, Engine.yields_onDatabase]
        have hkeeps := keeps_controlCode builds_evolves tag args.toList d
        unfold Yields at hkeeps ⊢
        cases hc : controlCode tag args.toList d with
        | ok r d' =>
          rw [hc] at hkeeps
          exact ⟨.control htag (congrArg Lookup.ofControl hc).symm, hkeeps.coherent (hd.look rfl)⟩
        | error x d' =>
          rw [hc] at hkeeps
          exact ⟨.control htag (congrArg Lookup.ofControl hc).symm, hkeeps.coherent (hd.look rfl)⟩
    | undefined =>
      cases (hr ⟨d, .fail, tag, args, .ok none⟩ rfl rfl).2 with
      | undefined htag given =>
        rw [yields_bind, yields_get]
        split
        · rename_i hpolicy
          exact ⟨.undefined htag given (congrArg (Lookup.ofPolicy tag d.terms) hpolicy).symm, hd.look rfl⟩
        · rename_i hpolicy
          rw [yields_bind, Engine.yields_onTerms, yields_throw]
          exact ⟨.undefined htag given (congrArg (Lookup.ofPolicy tag d.terms) hpolicy).symm,
            (hd.look rfl).terms (Exception.extending_unknownProcedure tag d.terms).symbols⟩
  · obtain ⟨hd', htag, cs, k, u, hcs, hk, rfl⟩ := hr
    exact ⟨.refused htag hcs hk rfl, hd' _ rfl⟩

/-- However a coherent database is led on, every lookup is right, and the database stays coherent. -/
theorem Serves.coherent (h : Serves d L' d') (hd : d.Coherent L)
    (hsteady : Steady ((L' ++ L).map Lookup.database)) :
    (∀ L₂ x L₁, L' = L₂ ++ x :: L₁ → x.Right (L₁ ++ L)) ∧ d'.Coherent (L' ++ L) := by
  induction h generalizing L with
  | quiet h => exact ⟨fun L₂ x L₁ heq => by simp at heq, h.coherent hd⟩
  | @trans _ _ _ L₁ L₂ _ _ ih ih' =>
    rw [List.append_assoc] at hsteady ⊢
    obtain ⟨hright, hd₂⟩ := ih hd (hsteady.mono (List.map_subset _ (List.subset_append_right _ _)))
    obtain ⟨hright', hd₃⟩ := ih' hd₂ hsteady
    refine ⟨fun M₂ x M₁ heq => ?_, hd₃⟩
    -- the lookup is one of the earlier ones or one of the later ones
    obtain ⟨M, -, hM⟩ | ⟨M, hM, heq⟩ := List.append_eq_append_iff.mp heq
    · exact hright M x M₁ hM
    · obtain _ | ⟨x', M⟩ := M
      · exact hright [] x M₁ heq.symm
      · simp only [List.cons_append, List.cons.injEq] at heq
        obtain ⟨rfl, rfl⟩ := heq
        rw [List.append_assoc]
        exact hright' M₂ x M hM
  | found h =>
    obtain ⟨hright, hd'⟩ := yields_ok (coherent_findCallee hd hsteady) h
    exact ⟨fun L₂ x L₁ heq => by
      obtain ⟨rfl, rfl, rfl⟩ : _ ∧ _ ∧ _ := by simpa [List.singleton_eq_append_iff] using heq
      exact hright, hd'⟩
  | failed h =>
    obtain ⟨hright, hd'⟩ := yields_error (coherent_findCallee hd hsteady) h
    exact ⟨fun L₂ x L₁ heq => by
      obtain ⟨rfl, rfl, rfl⟩ : _ ∧ _ ∧ _ := by simpa [List.singleton_eq_append_iff] using heq
      exact hright, hd'⟩

/-! ### Changes from outside -/

/-- A change that a program which works with the database may ask for. -/
inductive Mutation where
  /-- A clause is added behind the others. -/
  | addClause (t : Term)
  /-- A clause is added in front of the others. -/
  | addClauseFront (t : Term)
  /-- The clause at an index is removed. -/
  | removeClause (tag : Tag) (i : Nat)
  /-- The clauses of a predicate are replaced. -/
  | define (tag : Tag) (cs : List Clause)
  /-- A predicate is given natively. -/
  | registerNative (tag : Tag) (n : Native)
  /-- A predicate is not given any more. -/
  | abolish (tag : Tag)
  /-- What a call of an unknown predicate does. -/
  | setUnknown (policy : Option UnknownPolicy)
  /-- A listener is added. -/
  | subscribe

/-- The change is made, or there is an exception. -/
def Mutation.run : Mutation → DatabaseM Unit
  | addClause t => Database.addClause t
  | addClauseFront t => Database.addClauseFront t
  | removeClause tag i => discard (Database.removeClause tag i)
  | define tag cs => Database.define tag cs
  | registerNative tag n => Database.registerNative tag n
  | abolish tag => discard (Database.abolish tag)
  | setUnknown policy => Database.setUnknown policy
  | subscribe => Database.subscribe

theorem spares_insert (d : Database) {c : Change} (htag : c.tag? = some tag) (p : Predicate) :
    d.Spares c (d.predicates.insert tag.index p) := by
  intro i hi
  rw [Std.TreeMap.getElem?_insert]
  split
  · rename_i heq
    exact absurd (Std.LawfulEqCmp.eq_of_compare heq) (hi tag htag)
  · rfl

theorem spares_erase (d : Database) {c : Change} (htag : c.tag? = some tag) :
    d.Spares c (d.predicates.erase tag.index) := by
  intro i hi
  rw [Std.TreeMap.getElem?_erase]
  split
  · rename_i heq
    exact absurd (Std.LawfulEqCmp.eq_of_compare heq) (hi tag htag)
  · rfl

section Builds

variable {R : Database → Database → Prop} [Std.Refl R] [Trans R R R] (hR : Builds R)

include hR

theorem keeps_refuseChange {α : Type} (tag : Tag) : Keeps R (refuseChange tag : DatabaseM α) :=
  (keeps_onTerms hR (Exception.extending_indicatorTerm tag)).bind fun _ => keeps_raise hR _

theorem keeps_checkModifiable (tag : Tag) : Keeps R (checkModifiable tag) :=
  .bind .get fun _ => .ite (keeps_refuseChange hR tag) (.pure _)

omit [Std.Refl R] [Trans R R R] in
theorem keeps_checkClause (c : Clause) : Keeps R (checkClause c) :=
  keeps_compile hR (.bind .get fun u =>
    .map _ (Program.keeps_onSymbols (Rule.keeps_ofClause u.store c))) _

theorem keeps_placeClause (c : Clause) : Keeps R (placeClause c) := by
  refine (keeps_checkClause hR c).bind fun _ => ?_
  refine (keeps_onTerms hR (Clause.extending_predicate? c)).bind fun r => ?_
  cases r with
  | none => exact keeps_raise hR _
  | some tag => exact (keeps_checkModifiable hR tag).bind fun _ => .pure _

theorem keeps_readClause (t : Term) : Keeps R (readClause t) := by
  refine (keeps_onTerms hR (Universe.extending_copy t)).bind fun t => ?_
  have hplace : Keeps R (do placeClause (← onTerms (Clause.ofTerm t))) :=
    (keeps_onTerms hR (Clause.extending_ofTerm t)).bind (keeps_placeClause hR)
  cases t with
  | var v => exact (keeps_raise hR _).bind fun _ => hplace
  | _ => exact hplace

end Builds

theorem evolves_updateClauses (tag : Tag) (f : List Clause → List Clause) :
    Keeps Evolves (updateClauses tag f) :=
  .bind .get fun _ d => .change d.unknown (spares_insert d (c := .clauses tag) rfl _)

/-- A change is made in steps that lead a database on, whether it is refused or not. -/
theorem evolves_mutation (m : Mutation) : Keeps Evolves m.run := by
  cases m with
  | addClause t => exact (keeps_readClause builds_evolves t).bind fun r => evolves_updateClauses r.1 _
  | addClauseFront t => exact (keeps_readClause builds_evolves t).bind fun r => evolves_updateClauses r.1 _
  | removeClause tag i =>
    refine .map _ ((keeps_checkModifiable builds_evolves tag).bind fun _ =>
      .bind .get fun d => .ite ?_ (.pure _))
    exact (evolves_updateClauses tag _).bind fun _ => .pure _
  | define tag cs =>
    refine (keeps_checkModifiable builds_evolves tag).bind fun _ => ?_
    refine (Keeps.forM (fun c => ?_) cs).bind fun _ => evolves_updateClauses tag _
    refine (keeps_checkClause builds_evolves c).bind fun _ => ?_
    refine (keeps_onTerms builds_evolves (Clause.extending_predicate? c)).bind fun r => ?_
    exact .ite (.pure _) (keeps_raise builds_evolves _)
  | registerNative tag n =>
    have hgive : Keeps Evolves (do setPredicate tag (.native n); changed (.native tag)) :=
      fun d => .change d.unknown (spares_insert d (c := .native tag) rfl _)
    exact .ite ((keeps_refuseChange builds_evolves tag).bind fun _ => hgive) hgive
  | abolish tag =>
    have htake : Keeps Evolves (do
        if (← get).isDefined tag then
          modify fun db => { db with predicates := db.predicates.erase tag.index }
          changed (.abolished tag)
          return true
        else return false) := by
      refine .bind .get fun d => .ite ?_ (.pure _)
      exact fun d => .change d.unknown (spares_erase d (c := .abolished tag) rfl)
    exact .map _ (.ite ((keeps_refuseChange builds_evolves tag).bind fun _ => htake) htake)
  | setUnknown policy => exact fun d => @Evolves.change d .flags d.predicates policy fun _ _ => rfl
  | subscribe => exact fun d => .listen (d.listeners + 1) d.journal

/-- Nothing has been remembered at the start. -/
theorem coherent_initial : initial.Coherent [] := by
  have hempty : empty.Coherent [] := .nil (fun _ => rfl) rfl
  have hregister : Keeps Evolves registerBuiltins := by
    refine .forM (fun ⟨name, arity, b⟩ => ?_) builtins
    exact (keeps_onTerms builds_evolves (Universe.extending_tagNamed name arity)).bind fun tag =>
      evolves_mutation (.registerNative tag (.builtin b))
  unfold initial
  split
  · rename_i h
    exact (hregister.ends (.inl ⟨_, h⟩)).coherent hempty
  · rename_i h
    exact (hregister.ends (.inr ⟨_, h⟩)).coherent hempty

end Database

end Resolvent
