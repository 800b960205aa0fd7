import Resolvent.Proofs.Copying
import Resolvent.Proofs.Typing
import Resolvent.Search

/-!
# Databases whose calls lead to typed code

A database is `Sound` if its clauses fit the symbols, and all code that its calls lead to, cached or
remembered at a call site, is typed and takes as many arguments as the call has; none of its
predicates is given by the host. While a goal is searched for, terms are made and code is compiled
and remembered, and nothing else changes (`Database.Adds`). So a sound database stays sound, and what
a call leads to (`Database.yields_resolve`) and the code of goals (`Database.yields_compileGoal`) can
be called.
-/

namespace Resolvent

/-- The predicate is one that every database has. -/
def Native.Shipped : Native → Prop
  | .builtin _ => True
  | .host _ => False

/-- The head of the clause has the tag, whatever its variables are bound to. -/
def Clause.Named (s : Symbols) (tag : Tag) (c : Clause) : Prop :=
  match c.head with
  | .const (.atom _) => s.HasArity tag 0
  | .compound _ f _ => f = tag
  | _ => False

theorem Clause.Named.mono {s s' : Symbols} {tag : Tag} {c : Clause} (h : c.Named s tag)
    (hs : s.Extends s') : c.Named s' tag := by
  unfold Named at *
  split
  · rename_i hhead
    rw [hhead] at h
    exact h.mono hs
  · rename_i hhead
    rw [hhead] at h
    exact h
  · split at h <;> simp_all

theorem Store.deref_of_nonvar (σ : Store) {t : Term} (h : ∀ v, t ≠ .var v) : σ.deref t = t := by
  cases t with
  | var v => exact absurd rfl (h v)
  | const c => rw [deref, derefWithin]; simp
  | compound => rw [deref, derefWithin]; simp

theorem Clause.Named.heads {u : Universe} {tag : Tag} {c : Clause} (h : c.Named u.symbols tag) :
    c.Heads u tag := by
  unfold Named at h
  unfold Heads
  split at h
  · rename_i a ha
    rw [ha, u.store.deref_of_nonvar (fun v h => by cases h)]
    exact h
  · rename_i ha
    rw [ha, u.store.deref_of_nonvar (fun v h => by cases h)]
    exact h
  · exact h.elim

namespace Database

/-- Terms have been made and code has been compiled and remembered. Nothing has been forgotten, but
variables may have been bound. -/
structure Grows (d d' : Database) : Prop where
  /-- The predicates are kept. -/
  predicates : d'.predicates = d.predicates
  /-- There has been no change. -/
  generation : d'.generation = d.generation
  /-- Unknown predicates are treated alike. -/
  unknown : d'.unknown = d.unknown
  /-- The listeners are kept. -/
  listeners : d'.listeners = d.listeners
  /-- Nothing has been noted. -/
  journal : d'.journal = d.journal
  /-- The symbols are kept. -/
  symbols : d.terms.symbols.Extends d'.terms.symbols
  /-- The call sites are kept. -/
  sites : ∀ (i : Nat) tag site, d.sites[i]? = some (tag, site) →
    ∃ site', d'.sites[i]? = some (tag, site')

namespace Grows

theorem refl (d : Database) : d.Grows d :=
  ⟨rfl, rfl, rfl, rfl, rfl, .refl _, fun _ _ site h => ⟨site, h⟩⟩

theorem trans {d₁ d₂ d₃ : Database} (h : d₁.Grows d₂) (h' : d₂.Grows d₃) : d₁.Grows d₃ := by
  refine ⟨h'.predicates.trans h.predicates, h'.generation.trans h.generation,
    h'.unknown.trans h.unknown, h'.listeners.trans h.listeners, h'.journal.trans h.journal,
    h.symbols.trans h'.symbols, fun i tag site hi => ?_⟩
  obtain ⟨site', hi'⟩ := h.sites i tag site hi
  exact h'.sites i tag site' hi'

/-- A database that differs in its terms, in the code of predicates or in what call sites remember. -/
theorem of_sites {d d' : Database} (hp : d'.predicates = d.predicates)
    (hg : d'.generation = d.generation) (hu : d'.unknown = d.unknown)
    (hl : d'.listeners = d.listeners) (hj : d'.journal = d.journal)
    (ht : d.terms.symbols.Extends d'.terms.symbols) (hs : d'.sites = d.sites) : d.Grows d' :=
  ⟨hp, hg, hu, hl, hj, ht, fun _ _ site h => ⟨site, hs ▸ h⟩⟩

/-- A database that differs in its terms only. -/
theorem of_terms {d : Database} {u : Universe} (h : d.terms.symbols.Extends u.symbols) :
    d.Grows { d with terms := u } :=
  of_sites rfl rfl rfl rfl rfl h rfl

end Grows

/-- The tags and the call sites are kept, which is all that code needs of a database. -/
structure Retains (d d' : Database) : Prop where
  /-- The symbols are kept. -/
  symbols : d.terms.symbols.Extends d'.terms.symbols
  /-- The call sites are kept. -/
  sites : ∀ (i : Nat) tag site, d.sites[i]? = some (tag, site) →
    ∃ site', d'.sites[i]? = some (tag, site')

theorem Grows.retains {d d' : Database} (h : d.Grows d') : d.Retains d' :=
  ⟨h.symbols, h.sites⟩

instance {d d' : Database} : Coe (d.Grows d') (d.Retains d') := ⟨Grows.retains⟩

end Database

/-- The code is typed, and its call sites are there. -/
structure Code.Sound (d : Database) (code : Code) : Prop where
  /-- The code is typed. -/
  chunk : code.chunk.Sound d.terms.symbols
  /-- Every tag has a call site. -/
  sites : ∀ (i : Nat) tag, code.chunk.tags[i]? = some tag →
    ∃ site, d.sites[code.firstSite + i]? = some (tag, site)

theorem Chunk.Sound.mono {c : Chunk} {s s' : Symbols} (h : c.Sound s) (hs : s.Extends s') :
    c.Sound s' :=
  Chunk.Typed.mono hs h

theorem Code.Sound.mono {d d' : Database} {code : Code} (h : code.Sound d) (hd : d.Retains d') :
    code.Sound d' := by
  refine ⟨h.chunk.mono hd.symbols, fun i tag hi => ?_⟩
  obtain ⟨site, hsite⟩ := h.sites i tag hi
  exact hd.sites _ _ _ hsite

namespace Callee

/-- The callee is typed code or a predicate that every database has. -/
def Sound (d : Database) : Callee → Prop
  | .code c => c.Sound d
  | .native n => n.Shipped

/-- A call of the callee has as many arguments as the tag says. -/
def Takes (s : Symbols) (tag : Tag) : Callee → Prop
  | .code c => s.HasArity tag c.chunk.arity.toNat
  | .native _ => True

theorem Sound.mono {d d' : Database} {callee : Callee} (h : callee.Sound d) (hd : d.Retains d') :
    callee.Sound d' := by
  cases callee with
  | code c => exact Code.Sound.mono h hd
  | native n => exact h

theorem Takes.mono {s s' : Symbols} {tag : Tag} {callee : Callee} (h : callee.Takes s tag)
    (hs : s.Extends s') : callee.Takes s' tag := by
  cases callee with
  | code c => exact Symbols.HasArity.mono h hs
  | native n => trivial

/-- The callee can be called with the arguments. -/
structure Fits (d : Database) (callee : Callee) (args : Array Term) : Prop where
  /-- It is typed code or a predicate that every database has. -/
  sound : callee.Sound d
  /-- The arguments fit the symbols. -/
  fits : ∀ t ∈ args, t.Fits d.terms.symbols
  /-- Code gets all arguments that it takes. -/
  size : ∀ c, callee = .code c → c.chunk.arity.toNat ≤ args.size

theorem Fits.mono {d d' : Database} {callee : Callee} {args : Array Term}
    (h : callee.Fits d args) (hd : d.Retains d') : callee.Fits d' args :=
  ⟨h.sound.mono hd, fun t ht => (h.fits t ht).mono hd.symbols, h.size⟩

/-- A callee that takes as many arguments as a tag says can be called with these. -/
theorem fits_of_takes {d : Database} {callee : Callee} {tag : Tag} {args : Array Term}
    (hs : callee.Sound d) (ht : callee.Takes d.terms.symbols tag)
    (hargs : ∀ t ∈ args, t.Fits d.terms.symbols)
    (hsize : args.size = d.terms.symbols.arity tag) : callee.Fits d args := by
  refine ⟨hs, hargs, fun c hc => ?_⟩
  subst hc
  have hlt := c.chunk.arity.toNat_lt
  have harity := Symbols.HasArity.arity_eq ht
  rw [Nat.mod_eq_of_lt (by omega)] at harity
  exact Nat.le_of_eq (hsize.trans harity).symm

end Callee

/-- The predicate is given by clauses that fit the symbols, or is one that every database has. -/
def Predicate.Sound (s : Symbols) (tag : Tag) : Predicate → Prop
  | .clauses cs => ∀ c ∈ cs, c.Named s tag ∧ c.head.Fits s ∧ c.body.Fits s
  | .native n => n.Shipped

theorem Predicate.Sound.mono {s s' : Symbols} {tag : Tag} {p : Predicate} (h : p.Sound s tag)
    (hs : s.Extends s') : p.Sound s' tag := by
  cases p with
  | clauses cs => exact fun c hc => ⟨(h c hc).1.mono hs, (h c hc).2.1.mono hs, (h c hc).2.2.mono hs⟩
  | native n => exact h

namespace Database

/-- All calls lead to typed code or to predicates that every database has. -/
structure Sound (d : Database) : Prop where
  /-- The bindings fit the symbols. -/
  terms : d.terms.Fits
  /-- The predicates. -/
  predicates : ∀ (i : Nat) p, d.predicates[i]? = some p → p.Sound d.terms.symbols ⟨i⟩
  /-- The code of predicates. -/
  cache : ∀ (i : Nat) code, d.codeCache.entries[i]? = some code →
    code.Sound d ∧ (Callee.code code).Takes d.terms.symbols ⟨i⟩
  /-- What call sites remember. -/
  sites : ∀ (i : Nat) tag site g callee, d.sites[i]? = some (tag, site) →
    site.known? = some (g, callee) → callee.Sound d ∧ callee.Takes d.terms.symbols tag

/-- A sound database that has grown by nothing but terms. -/
theorem Sound.of_grows {d d' : Database} (h : d.Sound) (hd : d.Grows d') (ht : d'.terms.Fits)
    (hcache : d'.codeCache.entries = d.codeCache.entries) (hsites : d'.sites = d.sites) :
    d'.Sound := by
  refine ⟨ht, fun i p hp => ?_, fun i code hi => ?_, fun i tag site g callee hi hg => ?_⟩
  · exact (h.predicates i p (hd.predicates ▸ hp)).mono hd.symbols
  · have hcode := h.cache i code (hcache ▸ hi)
    exact ⟨hcode.1.mono hd, hcode.2.mono hd.symbols⟩
  · have hcallee := h.sites i tag site g callee (hsites ▸ hi) hg
    exact ⟨hcallee.1.mono hd, hcallee.2.mono hd.symbols⟩

/-- Terms have been made and code has been compiled and remembered, and no variable has been
bound. -/
structure Adds (d d' : Database) : Prop where
  /-- Nothing has been forgotten. -/
  grows : d.Grows d'
  /-- The bindings are kept. -/
  terms : d.terms.Extends d'.terms
  /-- The calls still lead to typed code. -/
  sound : d'.Sound

namespace Adds

theorem refl {d : Database} (h : d.Sound) : d.Adds d :=
  ⟨.refl d, .refl _, h⟩

theorem trans {d₁ d₂ d₃ : Database} (h : d₁.Adds d₂) (h' : d₂.Adds d₃) : d₁.Adds d₃ :=
  ⟨h.grows.trans h'.grows, h.terms.trans h'.terms, h'.sound⟩

theorem of_terms {d : Database} {u : Universe} (hd : d.Sound) (h : d.terms.Extends u) :
    d.Adds { d with terms := u } :=
  ⟨.of_terms h.symbols, h, hd.of_grows (.of_terms h.symbols) (h.fits hd.terms) rfl rfl⟩

end Adds

/-- The step on a sound database adds to it; the ball of its exception is sealed. -/
def Safe {α : Type} (x : DatabaseM α) (d : Database) (Q : α → Database → Prop) : Prop :=
  Yields x d (fun a d' => d.Adds d' ∧ Q a d') fun e d' => d.Adds d' ∧ e.Sealed d'.terms

namespace Safe

variable {α β : Type} {d : Database} {Q : α → Database → Prop} {R : β → Database → Prop}

theorem pure {a : α} (hd : d.Sound) (h : Q a d) : Safe (Pure.pure a) d Q :=
  ⟨.refl hd, h⟩

theorem get_bind {f : Database → DatabaseM β} (h : Safe (f d) d R) :
    Safe (MonadState.get >>= f) d R :=
  h

theorem bind {x : DatabaseM α} {f : α → DatabaseM β} (h : Safe x d Q)
    (hf : ∀ a d', d.Adds d' → Q a d' → Safe (f a) d' R) : Safe (x >>= f) d R := by
  rw [Safe, yields_bind]
  refine Yields.imp h (fun a d₁ h₁ => ?_) fun _ _ h => h
  exact (hf a d₁ h₁.1 h₁.2).imp (fun _ _ h₂ => ⟨h₁.1.trans h₂.1, h₂.2⟩)
    fun _ _ h₂ => ⟨h₁.1.trans h₂.1, h₂.2⟩

theorem modifyGet_bind {g : Database → α × Database} {f : α → DatabaseM β}
    (hg : d.Adds (g d).2) (h : Safe (f (g d).1) (g d).2 R) : Safe (modifyGet g >>= f) d R :=
  Yields.imp h (fun _ _ h => ⟨hg.trans h.1, h.2⟩) fun _ _ h => ⟨hg.trans h.1, h.2⟩

theorem modify_bind {g : Database → Database} {f : PUnit → DatabaseM β}
    (hg : d.Adds (g d)) (h : Safe (f PUnit.unit) (g d) R) : Safe (modify g >>= f) d R :=
  modifyGet_bind (g := fun d => (PUnit.unit, g d)) hg h

theorem imp {Q' : α → Database → Prop} {x : DatabaseM α} (h : Safe x d Q)
    (hQ : ∀ a d', Q a d' → Q' a d') : Safe x d Q' :=
  Yields.imp h (fun a d' h => ⟨h.1, hQ a d' h.2⟩) fun _ _ h => h

end Safe

/-! ### Steps on a database -/

section Steps

variable {d : Database} (hd : d.Sound)

include hd

theorem safe_onTerms {α : Type} {x : StateM Universe α} (hx : Universe.Extending x) :
    Safe (onTerms x) d fun a d' => a = (x d.terms).1 ∧ d'.terms = (x d.terms).2 :=
  ⟨.of_terms hd (hx d.terms), rfl, rfl⟩

theorem safe_raise {α : Type} {e : ErrorKind} (he : e.Fits d.terms.symbols)
    (Q : α → Database → Prop) : Safe (raise e : DatabaseM α) d Q :=
  ⟨.of_terms hd (Exception.extending_ofError e d.terms), Exception.sealed_ofError hd.terms he⟩

/-- The code of a compilation is typed, and its calls have as many arguments as the tag says. -/
theorem safe_compile {tag : Tag} {n : Nat} {clauses : List Clause} {kind : CompileError → ErrorKind}
    (htag : d.terms.symbols.HasArity tag n)
    (hc : ∀ cl ∈ clauses, cl.Heads d.terms tag ∧ cl.head.Fits d.terms.symbols ∧
      cl.body.Fits d.terms.symbols)
    (hkind : ∀ e s, d.terms.symbols.Extends s → (kind e).Fits s) :
    Safe (compile (Chunk.ofClauses tag clauses) kind) d fun c d' =>
      c.Sound d'.terms.symbols ∧ c.arity.toNat = d.terms.symbols.arity tag := by
  have hkeeps := Chunk.keeps_ofClauses tag clauses d.terms
  simp only [Safe, Yields, compile] at hkeeps ⊢
  cases h : Chunk.ofClauses tag clauses d.terms with
  | ok c u =>
    rw [h] at hkeeps
    exact ⟨.of_terms hd hkeeps, Chunk.sound_of_ofClauses hd.terms htag hc h⟩
  | error e u =>
    rw [h] at hkeeps
    have hu := hkeeps.fits hd.terms
    exact ⟨.of_terms hd (hkeeps.trans (Exception.extending_ofError _ u)),
      Exception.sealed_ofError hu (hkind e _ hkeeps.symbols)⟩

/-- Code that is loaded has its call sites. -/
theorem safe_load {c : Chunk} (hc : c.Sound d.terms.symbols) :
    Safe (load c) d fun code d' => code.chunk = c ∧ code.Sound d' ∧ d'.terms = d.terms ∧
      d'.codeCache = d.codeCache := by
  have hold (i : Nat) (tag : Tag) (site : CallSite) (h : d.sites[i]? = some (tag, site)) :
      (d.sites ++ c.tags.map fun tag => (tag, CallSite.empty))[i]? = some (tag, site) := by
    obtain ⟨hlt, -⟩ := Array.getElem?_eq_some_iff.mp h
    rw [Array.getElem?_append_left hlt, h]
  have hgrows : d.Grows { d with sites := d.sites ++ c.tags.map fun tag => (tag, .empty) } :=
    ⟨rfl, rfl, rfl, rfl, rfl, .refl _, fun i tag site h => ⟨site, hold i tag site h⟩⟩
  refine ⟨⟨hgrows, .refl _, hd.terms, fun i p hp => hd.predicates i p hp, fun i code hi =>
    ⟨(hd.cache i code hi).1.mono hgrows, (hd.cache i code hi).2⟩,
    fun i tag site g callee hi hg => ?_⟩, rfl, ⟨hc, fun i tag hi => ⟨.empty, ?_⟩⟩, rfl, rfl⟩
  · -- new call sites remember nothing
    rw [Array.getElem?_append] at hi
    split at hi
    · have h := hd.sites i tag site g callee hi hg
      exact ⟨h.1.mono hgrows, h.2⟩
    · rw [Array.getElem?_map] at hi
      obtain ⟨_, -, heq⟩ := Option.map_eq_some_iff.mp hi
      cases heq
      cases hg
  · show (d.sites ++ c.tags.map fun tag => (tag, CallSite.empty))[d.sites.size + i]? = _
    rw [Array.getElem?_append_right (Nat.le_add_right _ _), Nat.add_sub_cancel_left,
      Array.getElem?_map, hi]
    rfl

omit hd in
theorem fits_kind (e : CompileError) (s : Symbols) : e.kind.Fits s := by
  cases e with
  | notCallable goal => exact .const goal
  | invalidHead head => exact .const head
  | _ => trivial

omit hd in
theorem fits_kindFor {goal : Term} {s : Symbols} (h : goal.Fits s) (e : CompileError) :
    (e.kindFor goal).Fits s := by
  cases e with
  | notCallable _ => exact h
  | invalidHead head => exact fits_kind (.invalidHead head) s
  | _ => trivial

/-- A database that differs in what it remembers of predicates. -/
theorem adds_of_cache {cache : CodeCache} (h : ∀ (i : Nat) code, cache.entries[i]? = some code →
    code.Sound d ∧ (Callee.code code).Takes d.terms.symbols ⟨i⟩) :
    d.Adds { d with codeCache := cache } := by
  have hgrows : d.Grows { d with codeCache := cache } := .of_sites rfl rfl rfl rfl rfl (.refl _) rfl
  refine ⟨hgrows, .refl _, hd.terms, hd.predicates, fun i code hi => ?_, fun i tag site g callee hi
    hg => ?_⟩
  · exact ⟨(h i code hi).1.mono hgrows, (h i code hi).2⟩
  · have hsite := hd.sites i tag site g callee hi hg
    exact ⟨hsite.1.mono hgrows, hsite.2⟩

/-- A database that differs in what a call site remembers. -/
theorem adds_of_site {i : Nat} {tag : Tag} {known site : CallSite}
    (hi : d.sites[i]? = some (tag, known)) (h : ∀ g callee, site.known? = some (g, callee) →
      callee.Sound d ∧ callee.Takes d.terms.symbols tag) :
    d.Adds { d with sites := d.sites.setIfInBounds i (tag, site) } := by
  have hsites (j : Nat) (tag' : Tag) (known' : CallSite) (hj : d.sites[j]? = some (tag', known')) :
      ∃ site', (d.sites.setIfInBounds i (tag, site))[j]? = some (tag', site') := by
    rw [Array.getElem?_setIfInBounds]
    split
    · rename_i heq
      subst heq
      obtain ⟨hlt, -⟩ := Array.getElem?_eq_some_iff.mp hj
      obtain ⟨rfl, -⟩ := Prod.mk.inj (Option.some.inj (hi.symm.trans hj))
      exact ⟨site, if_pos hlt⟩
    · exact ⟨known', hj⟩
  have hgrows : d.Grows { d with sites := d.sites.setIfInBounds i (tag, site) } :=
    ⟨rfl, rfl, rfl, rfl, rfl, .refl _, hsites⟩
  refine ⟨hgrows, .refl _, hd.terms, hd.predicates, fun j code hj =>
    ⟨(hd.cache j code hj).1.mono hgrows, (hd.cache j code hj).2⟩,
    fun j tag' known' g callee hj hg => ?_⟩
  rw [Array.getElem?_setIfInBounds] at hj
  split at hj
  · split at hj
    · cases hj
      exact ⟨(h g callee hg).1.mono hgrows, (h g callee hg).2⟩
    · cases hj
  · exact ⟨(hd.sites j tag' known' g callee hj hg).1.mono hgrows,
      (hd.sites j tag' known' g callee hj hg).2⟩

/-- What a call leads to can be called. -/
theorem safe_resolve {tag : Tag} {n : Nat} (htag : d.terms.symbols.HasArity tag n) :
    Safe (resolve tag) d fun r d' => ∀ callee, r = .callee callee →
      callee.Sound d' ∧ callee.Takes d'.terms.symbols tag := by
  unfold resolve
  split
  · exact .pure hd nofun
  refine .get_bind ?_
  split
  · exact .pure hd nofun
  · rename_i n hn
    refine .pure hd fun callee h => ?_
    obtain rfl := Resolved.callee.inj h
    exact ⟨hd.predicates _ _ hn, trivial⟩
  rename_i cs hcs
  have hcs : (Predicate.clauses cs).Sound d.terms.symbols tag := hd.predicates _ _ hcs
  -- asking the cache changes its counters only
  have hasked : (d.codeCache.get tag).2.entries = d.codeCache.entries ∧
      ∀ code, (d.codeCache.get tag).1 = some code →
        d.codeCache.entries[tag.index]? = some code := by
    unfold CodeCache.get
    split
    · rename_i code hcode
      exact ⟨rfl, fun code' h => hcode.trans h⟩
    · exact ⟨rfl, nofun⟩
  obtain ⟨hentries, hfound⟩ := hasked
  have hadds : d.Adds { d with codeCache := (d.codeCache.get tag).2 } :=
    adds_of_cache hd fun i code hi => hd.cache i code (hentries ▸ hi)
  refine .modifyGet_bind hadds ?_
  simp only
  split
  · rename_i code hcode
    have hcode := hadds.sound.cache _ _ (hentries ▸ hfound code hcode)
    refine .pure hadds.sound fun callee h => ?_
    obtain rfl := Resolved.callee.inj h
    exact hcode
  refine Safe.bind (safe_compile hadds.sound htag
    (fun cl hcl => ⟨(hcs cl hcl).1.heads, (hcs cl hcl).2⟩) fun e s _ => fits_kind e s)
    fun chunk d₁ h₁ hchunk => ?_
  refine Safe.bind (safe_load h₁.sound hchunk.1) fun code d₂ h₂ hcode => ?_
  obtain ⟨hchunk', hsound, hterms, -⟩ := hcode
  have htakes : (Callee.code code).Takes d₂.terms.symbols tag := by
    have htag₂ := (htag.mono h₁.grows.symbols).mono h₂.grows.symbols
    show d₂.terms.symbols.HasArity tag code.chunk.arity.toNat
    rw [hchunk', hchunk.2, htag.arity_eq, ← htag₂.arity_eq]
    exact htag₂.hasArity_arity
  have hadds₂ : d₂.Adds { d₂ with codeCache := d₂.codeCache.insert tag code } := by
    refine adds_of_cache h₂.sound fun i code' hi => ?_
    rw [CodeCache.insert, Std.TreeMap.getElem?_insert] at hi
    split at hi
    · rename_i heq
      obtain rfl := Std.LawfulEqCmp.eq_of_compare heq
      obtain rfl := Option.some.inj hi
      exact ⟨hsound, htakes⟩
    · exact h₂.sound.cache i code' hi
  refine .modify_bind hadds₂ (.pure hadds₂.sound fun callee h => ?_)
  obtain rfl := Resolved.callee.inj h
  exact ⟨Code.Sound.mono hsound hadds₂.grows, htakes⟩

/-- The code of a goal can be called with the goal's variables. -/
theorem safe_compileGoal (name : Atom) {goal : Term} (hgoal : goal.Fits d.terms.symbols) :
    Safe (compileGoal name goal) d fun r d' => (Callee.code r.1).Fits d' r.2 := by
  unfold compileGoal
  refine .get_bind ?_
  have hgoal := hd.terms.store.deref hgoal
  simp only
  -- the goal is a term that can be called
  suffices hrest : Safe (do
      let vars := (d.terms.store.vars (d.terms.store.deref goal)).map Term.var
      let tag ← onTerms (Universe.tag name vars.length)
      let head ← if vars.isEmpty then pure (.atom name) else onTerms (Universe.compound tag vars)
      let chunk ← compile (Chunk.ofClauses tag [⟨head, d.terms.store.deref goal⟩])
        (CompileError.kindFor (d.terms.store.deref goal))
      return (← load chunk, vars.toArray)) d fun r d' => (Callee.code r.1).Fits d' r.2 by
    split
    · exact Safe.bind (safe_raise hd (e := .instantiation) trivial fun _ _ => False)
        fun _ _ _ h => h.elim
    · exact hrest
    · exact hrest
    · exact Safe.bind (safe_raise hd (e := .type "callable" (d.terms.store.deref goal)) hgoal
        fun _ _ => False) fun _ _ _ h => h.elim
  simp only
  generalize hvars : (d.terms.store.vars (d.terms.store.deref goal)).map Term.var = vars
  have hfits (s : Symbols) : ∀ t ∈ vars, t.Fits s := by
    subst hvars
    intro t ht
    obtain ⟨v, -, rfl⟩ := List.mem_map.mp ht
    exact .var v
  refine Safe.bind (safe_onTerms hd (Universe.extending_tag name vars.length))
    fun tag d₁ h₁ htag => ?_
  have htag : d₁.terms.symbols.HasArity tag vars.length := by
    rw [htag.1, htag.2]
    exact Universe.hasArity_tag hd.terms name vars.length
  -- what follows once the head of the only clause is made
  have hrest (head : Term) (d₂ : Database) (h₂ : d₁.Adds d₂)
      (hnamed : (Clause.mk head (d.terms.store.deref goal)).Named d₂.terms.symbols tag)
      (hhead : head.Fits d₂.terms.symbols) : Safe (do
        let chunk ← compile (Chunk.ofClauses tag [⟨head, d.terms.store.deref goal⟩])
          (CompileError.kindFor (d.terms.store.deref goal))
        return (← load chunk, vars.toArray)) d₂ fun r d' => (Callee.code r.1).Fits d' r.2 := by
    have htag₂ := htag.mono h₂.grows.symbols
    have hgoal₂ := (hgoal.mono h₁.grows.symbols).mono h₂.grows.symbols
    refine Safe.bind (safe_compile h₂.sound htag₂ (List.forall_mem_singleton.mpr
      ⟨hnamed.heads, hhead, hgoal₂⟩) fun e s hs => fits_kindFor (hgoal₂.mono hs) e)
      fun chunk d₃ h₃ hchunk => ?_
    refine Safe.bind (safe_load h₃.sound hchunk.1) fun code d₄ h₄ hcode => ?_
    obtain ⟨hchunk', hsound, -⟩ := hcode
    refine .pure h₄.sound ⟨hsound, fun t ht => hfits _ t (List.mem_toArray.mp ht), fun c hc => ?_⟩
    obtain rfl := Callee.code.inj hc
    rw [hchunk', hchunk.2, htag₂.arity_eq, List.size_toArray]
    exact Nat.mod_le _ _
  split
  · rename_i hempty
    have harity : d₁.terms.symbols.HasArity tag 0 := by
      rw [List.isEmpty_iff.mp hempty] at htag
      exact htag
    exact hrest _ d₁ (.refl h₁.sound) harity (.const _)
  · refine Safe.bind (safe_onTerms h₁.sound (Universe.extending_compound tag vars))
      fun head d₂ h₂ hhead => hrest head d₂ h₂ ?_ ?_
    · rw [hhead.1]
      rfl
    · rw [hhead.1, hhead.2]
      exact Universe.fits_compound htag (hfits _)

/-- The goal that a control construct stands for fits the symbols. -/
theorem safe_controlGoal {tag : Tag} {args : List Term} {n : Nat}
    (htag : d.terms.symbols.HasArity tag n) (hargs : ∀ t ∈ args, t.Fits d.terms.symbols)
    (hsize : args.length = d.terms.symbols.arity tag) :
    Safe (controlGoal tag args) d fun goal d' => goal.Fits d'.terms.symbols := by
  have hwhole (args : List Term) (hargs : ∀ t ∈ args, t.Fits d.terms.symbols)
      (hsize : args.length = d.terms.symbols.arity tag) :
      Safe (onTerms (Universe.compound tag args)) d fun goal d' => goal.Fits d'.terms.symbols := by
    refine (safe_onTerms hd (Universe.extending_compound tag args)).imp fun goal d₁ h₁ => ?_
    rw [h₁.1, h₁.2]
    exact Universe.fits_compound (hsize ▸ htag.hasArity_arity) hargs
  -- a compound of a tag made for it
  have hmade (name : Atom) (all : List Term) (hall : ∀ t ∈ all, t.Fits d.terms.symbols) :
      Safe (onTerms do Universe.compound (← Universe.tag name all.length) all) d
        fun goal d' => goal.Fits d'.terms.symbols := by
    refine (safe_onTerms hd ((Universe.extending_tag _ _).bind fun _ =>
      Universe.extending_compound _ _)).imp fun goal d₁ h₁ => ?_
    rw [h₁.1, h₁.2]
    exact Universe.fits_compound_tag hd.terms name hall
  unfold controlGoal
  split
  · rename_i extra goal args _
    rw [List.forall_mem_cons] at hargs
    have htarget := hd.terms.store.deref hargs.1
    have hextra : ∀ t ∈ args.take extra, t.Fits d.terms.symbols :=
      fun t ht => hargs.2 t (List.mem_of_mem_take ht)
    simp only
    refine .get_bind ?_
    split
    · exact safe_raise hd (e := .instantiation) trivial _
    · split
      · exact .pure hd htarget
      split
      · exact hmade _ _ hextra
      · rename_i stamp f fargs heq
        rw [heq] at htarget
        cases htarget with | compound _ hfargs =>
        refine .get_bind (hmade _ _ fun t ht => ?_)
        exact (List.mem_append.mp ht).elim (hfargs t) (hextra t)
      · exact safe_raise hd (e := .type "callable" _) htarget _
  · exact .get_bind (.pure hd (.const _))
  · exact hwhole _ hargs hsize

/-- The code that a control construct runs can be called. -/
theorem safe_controlCode {tag : Tag} {args : List Term} {n : Nat}
    (htag : d.terms.symbols.HasArity tag n) (hargs : ∀ t ∈ args, t.Fits d.terms.symbols)
    (hsize : args.length = d.terms.symbols.arity tag) :
    Safe (controlCode tag args) d fun r d' => (Callee.code r.1).Fits d' r.2 :=
  (safe_controlGoal hd htag hargs hsize).bind fun _ _ h hgoal =>
    safe_compileGoal h.sound .metaCall hgoal

end Steps

end Database

end Resolvent
