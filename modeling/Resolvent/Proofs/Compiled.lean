import Resolvent.Proofs.Hosting

/-!
# Calls of compiled predicates

The code of a predicate can be called in every workspace in which a goal is being searched for, and
asked for further solutions as long as it is left with choice points. However often that is done, with
whatever outcome, the choice points of before the call are there as they were, and those above them are
the entry of the activation, its own choice points and its exit, or have all been taken away; a call
that fails or throws has also taken back what it has bound (`Activation.compiled_discipline`).

On the way nothing but too many operands is ever reported as a fault of the code: what the calls do is
the same whatever other faults would be reported as (`Activation.compiled_faultless`).
-/

namespace Resolvent

/-- The code was made of clauses all of whose heads have the tag, and its call sites are there. -/
structure Code.Compiled (d : Database) (tag : Tag) (code : Code) : Prop where
  /-- It was made of fitting clauses, in a universe that has grown since. -/
  chunk : ∃ (u u' : Universe) (n : Nat) (cs : List Clause), u.Fits ∧ u.symbols.HasArity tag n ∧
    (∀ c ∈ cs, c.Heads u tag ∧ c.head.Fits u.symbols ∧ c.body.Fits u.symbols) ∧
    Chunk.ofClauses tag cs u = .ok code.chunk u' ∧ u'.symbols.Extends d.terms.symbols
  /-- Every tag has a call site. -/
  sites : ∀ (i : Nat) t, code.chunk.tags[i]? = some t → ∃ site, d.sites[code.firstSite + i]? = some (t, site)

/-- Compiled code can be called with as many arguments as its tag says. -/
theorem Code.Compiled.fits {d : Database} {tag : Tag} {code : Code} {args : Array Term}
    (h : code.Compiled d tag) (hargs : ∀ t ∈ args, t.Fits d.terms.symbols)
    (hsize : args.size = d.terms.symbols.arity tag) : (Callee.code code).Fits d args := by
  obtain ⟨⟨u, u', n, cs, hu, htag, hcs, hchunk, hext⟩, hsites⟩ := h
  have hkeeps := yields_ok (Chunk.keeps_ofClauses tag cs u) hchunk
  obtain ⟨hsound, harity⟩ := Chunk.sound_of_ofClauses hu htag hcs hchunk
  have htag' := htag.mono (hkeeps.symbols.trans hext)
  refine ⟨⟨hsound.mono hext, hsites⟩, hargs, ?_⟩
  rintro c ⟨⟩
  exact Nat.le_of_eq (by rw [harity, hsize, htag.arity_eq, htag'.arity_eq])

/-- With a block, an activation has something above its entry. -/
theorem Chain.bottom_lt {B : Call} {slots : Array Slot} {mem : Nat → List Guard} {keeps : Nat → Prop}
    {bs : List Block} {s : Workspace} (h : Chain B slots mem keeps bs) (ht : B.Tops bs s)
    (hbs : bs ≠ []) : B.bottom < s.points.length := by
  have hlength {t : Workspace} {p : ChoicePoint} (hentry : B.origin.points ++ [B.entry] <+: t.points)
      (hp : s.points = t.points ++ [p]) : B.bottom < s.points.length := by
    have hle := hentry.length_le
    rw [List.length_append, List.length_singleton] at hle
    rw [hp, List.length_append, List.length_singleton, Call.bottom]
    exact Nat.lt_succ_of_le hle
  cases h with
  | nil => exact absurd rfl hbs
  | alternative below _ _ hm => exact hlength (below.reaches hm.tops).2 ht.2
  | retry below _ _ hm _ _ _ _ _ _ points =>
    exact hlength ((below.reaches hm.tops).2.trans points) ht.2

namespace Activation

variable {host : Host} {code : Code} {args : Array Term} {s t u : Workspace} {d : Nat}

/-- What a call that was made in the first workspace leads to with an answer. -/
def Returns (code : Code) (s : Workspace) (d : Nat) (a : Answer) (t : Workspace) : Prop :=
  t.engine.depth = d ∧
    match a with
    | .fail => t.points = s.points ∧ t.moment.entries = s.moment.entries ∧
        ∀ v, t.database.terms.store.value? v = s.database.terms.store.value? v
    | .last => t.points = s.points ∧ s.moment.entries <+: t.moment.entries
    | .more => s.moment.entries <+: t.moment.entries ∧ ∃ inner m slots, inner ≠ [] ∧
        t.points = s.points ++ [⟨s.mark, .entry code⟩] ++ inner ++
          [⟨m, .exit slots (s.points.length + 1)⟩]

/-- What it leads to with an exception. -/
def Throws (s : Workspace) (d : Nat) (e : Stop) (t : Workspace) : Prop :=
  ∀ x, e = .thrown x → t.engine.depth = d ∧ t.points = s.points ∧
    t.moment.entries = s.moment.entries ∧
    ∀ v, t.database.terms.store.value? v = s.database.terms.store.value? v

/-- A call of the code, made in the first workspace, has been left with solutions to come, and the
search has come back to where it was left. -/
inductive Left (host : Host) (code : Code) (args : Array Term) (s : Workspace) : Workspace → Prop where
  /-- The call has answered. -/
  | called {n : Nat} {t : Workspace} (hx : start (Solver.context host n) code args s = .ok .more t) :
      Left host code args s t
  /-- It has answered once more. -/
  | redone {n : Nat} {t u : Workspace} (h : Left host code args s t)
      (hx : resume (Solver.context host n) code args t = .ok .more u) : Left host code args s u
  /-- The search has gone on, and come back to the exit of the activation. -/
  | later {t u : Workspace} (h : Left host code args s t) (hl : t.Later u) (hp : u.points = t.points) :
      Left host code args s u

theorem returns_of_answered {a : Answer} (h : (Callee.code code).Answered args s d a t) :
    Returns code s d a t := by
  obtain ⟨hd, h⟩ := h
  refine ⟨hd, ?_⟩
  cases a with
  | fail => exact ⟨h.points, h.moment.entries, h.moment.value⟩
  | last => exact ⟨h.2, h.1.before.entries⟩
  | more =>
    cases h with
    | @code _ _ slots mem keeps bs _ w _ chain tops some later points =>
      obtain ⟨hl, hp⟩ := chain.reaches tops
      refine ⟨(hl.trans later).before.entries, ?_⟩
      obtain ⟨inner, hinner⟩ := hp
      refine ⟨inner, w.mark, slots, ?_, by rw [points, ← hinner]; rfl⟩
      rintro rfl
      -- the newest block lies above the entry
      have hlt := chain.bottom_lt tops some
      rw [← hinner, List.append_nil, List.length_append, List.length_singleton, Call.bottom] at hlt
      exact absurd hlt (Nat.lt_irrefl _)

theorem throws_of_undone {e : Stop} (h : s.Undone d e t) : Throws s d e t := by
  rintro x rfl
  obtain ⟨⟨hd, -⟩, hsame⟩ := h
  have hsame := hsame x rfl
  exact ⟨hd, hsame.points, hsame.moment.entries, hsame.moment.value⟩

section Compiled

variable {tag : Tag}

/-- A call that has been left with solutions to come can be asked for them. -/
theorem Left.suspended (hs : s.Ready) (hfits : (Callee.code code).Fits s.database args)
    (h : Left host code args s t) : Suspended (.code code) args s t := by
  induction h with
  | @called n t hx =>
    have hctx : (Solver.context host n).Disciplined (Solver.context .none n) :=
      Solver.disciplined_context Host.within_none n
    exact (yields_ok (agree_start hctx hs.same hfits).yields hx).2
  | @redone n t u _ hx ih =>
    have hctx : (Solver.context host n).Disciplined (Solver.context .none n) :=
      Solver.disciplined_context Host.within_none n
    exact (yields_ok (agree_resume hctx hfits ih).yields hx).2
  | later _ hl hp ih => exact ih.same hl hp

/-- The clause `true :- true ; true`. -/
def sampleClause : Clause :=
  ⟨.atom .trueGoal, .compound 0 .disj [.atom .trueGoal, .atom .trueGoal]⟩

theorem fits_sampleClause {u : Universe} (htrue : u.symbols.HasArity ⟨8⟩ 0)
    (hdisj : u.symbols.HasArity .disj 2) :
    ∀ c ∈ [sampleClause], c.Heads u ⟨8⟩ ∧ c.head.Fits u.symbols ∧ c.body.Fits u.symbols := by
  refine List.forall_mem_singleton.mpr ⟨?_, .const _, .compound hdisj ?_⟩
  · rw [Clause.Heads, sampleClause, u.store.deref_of_nonvar (by simp)]
    exact htrue
  · exact List.forall_mem_cons.mpr ⟨.const _, List.forall_mem_singleton.mpr (.const _)⟩

theorem hasArity_of_pairs {sym : Symbols} {tag : Tag} {n : Nat}
    (h : sym.pairs[tag.index]?.map Prod.snd = some (.ofNat n)) : sym.HasArity tag n := by
  obtain ⟨⟨a, _⟩, ha, rfl⟩ := Option.map_eq_some_iff.mp h
  exact ⟨a, ha⟩

/-- Code that is made of a clause for `true/0` can be called while a goal is being searched for. -/
theorem exists_compiled {c : Clause} {chunk : Chunk} {u : Universe}
    (hmade : answer? (Chunk.ofClauses ⟨8⟩ [c]) .initial = some (chunk, u))
    (hclause : ∀ v : Universe, v.symbols.HasArity ⟨8⟩ 0 → v = .initial →
      ∀ c' ∈ [c], c'.Heads v ⟨8⟩ ∧ c'.head.Fits v.symbols ∧ c'.body.Fits v.symbols) :
    ∃ (code : Code) (s : Workspace), code.chunk = chunk ∧ s.Ready ∧ code.Compiled s.database ⟨8⟩ ∧
      (#[] : Array Term).size = s.symbols.arity ⟨8⟩ := by
  have hchunk := answer?_eq_some.mp hmade
  have htrue : Universe.initial.symbols.HasArity ⟨8⟩ 0 := hasArity_of_pairs (by decide +kernel)
  have hordered : Universe.initial.store.Ordered := Store.ordered_of_size_eq_zero rfl
  have hinitial : Universe.initial.Fits := Database.sound_empty.terms
  have hclause := hclause _ htrue rfl
  generalize Universe.initial = v at *
  have hextends := yields_ok (Chunk.keeps_ofClauses ⟨8⟩ [c] v) hchunk
  have hsound := (Chunk.sound_of_ofClauses hinitial htrue hclause hchunk).1
  -- the code is loaded into a database without predicates
  obtain ⟨⟨-, -, hd⟩, -, hcode, -⟩ :=
    Database.safe_load (Database.sound_of_terms (hextends.fits hinitial)) hsound
  have hidle := Workspace.idle_ofConfig hd (hextends.store.ordered hordered) .standard
  refine ⟨_, _, rfl, hidle.ready, ⟨⟨v, u, 0, [c], hinitial, htrue, hclause, hchunk, .refl _⟩,
    hcode.sites⟩, ?_⟩
  exact (htrue.mono hextends.symbols).arity_eq.symm

/-- Code that was made of a clause can be called while a goal is being searched for. -/
theorem sample_compiled : ∃ (code : Code) (s : Workspace), s.Ready ∧ code.Compiled s.database ⟨8⟩ ∧
    (#[] : Array Term).size = s.symbols.arity ⟨8⟩ := by
  have hmade : (answer? (Chunk.ofClauses ⟨8⟩ [sampleClause]) .initial).isSome := by decide +kernel
  obtain ⟨⟨chunk, u⟩, hmade⟩ := Option.isSome_iff_exists.mp hmade
  have hdisj : Universe.initial.symbols.HasArity .disj 2 := hasArity_of_pairs (by decide +kernel)
  obtain ⟨code, s, -, hcompiled⟩ := exists_compiled hmade fun v htrue hv =>
    fits_sampleClause htrue (hv ▸ hdisj)
  exact ⟨code, s, hcompiled⟩

/-- Whatever a call of compiled code ends with, the choice points of before it are there; those above
them are the entry of the activation, its choice points and its exit if there may be more solutions, and
else there are none. A call that fails or throws takes back what it has bound. So do the calls for
further solutions. -/
theorem compiled_discipline (hs : s.Ready) (hcode : code.Compiled s.database tag)
    (hargs : ∀ t ∈ args, t.Fits s.symbols) (hsize : args.size = s.symbols.arity tag) (n : Nat) :
    Yields (start (Solver.context host n) code args) s (Returns code s s.engine.depth)
      (Throws s s.engine.depth) ∧
    ∀ t, Left host code args s t → Yields (resume (Solver.context host n) code args) t
      (Returns code s t.engine.depth) (Throws s t.engine.depth) := by
  have hfits := hcode.fits hargs hsize
  have hctx : (Solver.context host n).Disciplined (Solver.context .none n) :=
    Solver.disciplined_context Host.within_none n
  refine ⟨?_, fun t ht => ?_⟩
  · exact (agree_start hctx hs.same hfits).yields.imp (fun _ _ h => returns_of_answered h)
      fun _ _ h => throws_of_undone h
  · exact (agree_resume hctx hfits (ht.suspended hs hfits)).yields.imp
      (fun _ _ h => returns_of_answered h) fun _ _ h => throws_of_undone h

theorem compiled_discipline_sample : ∃ (code : Code) (s : Workspace), s.Ready ∧
    code.Compiled s.database ⟨8⟩ ∧
    Yields (start (Solver.context .none 20) code #[]) s (Returns code s s.engine.depth)
      (Throws s s.engine.depth) ∧
    ∀ t, Left .none code #[] s t → Yields (resume (Solver.context .none 20) code #[]) t
      (Returns code s t.engine.depth) (Throws s t.engine.depth) := by
  obtain ⟨code, s, hs, hcode, hsize⟩ := sample_compiled
  exact ⟨code, s, hs, hcode, compiled_discipline hs hcode (by simp) hsize 20⟩

/-- The run of a call of the code, or of a call for another solution, comes by. -/
inductive Visited (host : Host) (n : Nat) (code : Code) (args : Array Term) (s : Workspace) :
    Course → Machine → Prop where
  /-- A call begins. -/
  | called {t : Workspace} (hx : Engine.pushChoice (.entry code) s = .ok () t) :
      Visited host n code args s .forward ⟨t, code, args, 0, 0, #[], #[], t.points.length⟩
  /-- A call for another solution begins. -/
  | redone {t u : Workspace} {m entry : Nat} {slots : Array Slot} (h : Left host code args s t)
      (htop : t.points.getLast? = some ⟨m, .exit slots entry⟩)
      (hx : (do Engine.pop; Engine.undoTo m) t = .ok () u) :
      Visited host n code args s .backward ⟨u, code, args, 0, 0, #[], slots, entry⟩
  /-- A step is taken. -/
  | stepped {c c' : Course} {m m' : Machine} (h : Visited host n code args s c m)
      (hc : ∀ a, c ≠ .answer a)
      (hx : step (Solver.context host n) c ⟨m.workspace.pass, m.activation⟩ = .ok c' m') :
      Visited host n code args s c' m'
  /-- What a step is interrupted by is caught. -/
  | caught {c : Course} {m m' : Machine} {i : Interrupt} {a : Activation} {t : Workspace}
      (h : Visited host n code args s c m) (hc : ∀ a, c ≠ .answer a)
      (hx : step (Solver.context host n) c ⟨m.workspace.pass, m.activation⟩ = .error i m')
      (hcaught : settle (Solver.context host n) i m'.activation m'.workspace = .ok a t) :
      Visited host n code args s .forward ⟨t, a⟩

/-- Where a run comes by, it goes on as the code is typed. -/
theorem Visited.goes {n : Nat} {c : Course} {m : Machine} (hs : s.Ready)
    (hfits : (Callee.code code).Fits s.database args) (h : Visited host n code args s c m) :
    ∃ d τ, Goes ⟨code, args, s⟩ d τ c m := by
  have hctx : (Solver.context host n).Disciplined (Solver.context .none n) :=
    Solver.disciplined_context Host.within_none n
  induction h with
  | called hx =>
    have hgoes := yields_ok (goes_start hs.same hfits) hx
    exact ⟨_, _, hgoes⟩
  | @redone t u m entry slots hleft htop hx =>
    obtain ⟨mem, hexited⟩ := (hleft.suspended hs hfits).exited
    obtain ⟨slots', m', hlast, hgoes⟩ := goes_resume hfits hexited
    rw [htop, Option.some.injEq, ChoicePoint.mk.injEq, ChoiceKind.exit.injEq] at hlast
    obtain ⟨rfl, rfl, rfl⟩ := hlast
    have hgoes := yields_ok hgoes hx
    exact ⟨_, _, hgoes⟩
  | stepped _ hc hx ih =>
    obtain ⟨d, τ, hgoes⟩ := ih
    have hpass := hgoes.stays hc hgoes.later.ready.stays_pass
    exact ⟨d, _, yields_ok (agree_step hctx hpass hc).yields hx⟩
  | caught _ hc hx hcaught ih =>
    obtain ⟨d, τ, hgoes⟩ := ih
    have hpass := hgoes.stays hc hgoes.later.ready.stays_pass
    have hbreaks := yields_error (agree_step hctx hpass hc).yields hx
    have hgoes' := yields_ok (agree_settle hctx hbreaks).yields hcaught
    exact ⟨d, _, hgoes'⟩

/-- No instruction of compiled code faults, wherever a call of it or a call for another solution comes
by, unless there are too many operands. Nor does code that is called in turn: what the calls lead to
does not depend on what any other fault would be reported as. -/
theorem compiled_faultless (hs : s.Ready) (hcode : code.Compiled s.database tag)
    (hargs : ∀ t ∈ args, t.Fits s.symbols) (hsize : args.size = s.symbols.arity tag) (n : Nat) :
    (∀ c m f m', Visited host n code args s c m → (∀ a, c ≠ .answer a) →
      step (Solver.context host n) c ⟨m.workspace.pass, m.activation⟩ = .error (.fault f) m' →
        f = .stackOverflow) ∧
    ∀ report : Fault → EngineM Exception,
      report .stackOverflow = Engine.onTerms (faultException .stackOverflow) →
        start (Solver.contextWith report host n) code args s =
          start (Solver.context host n) code args s ∧
        ∀ t, Left host code args s t → resume (Solver.contextWith report host n) code args t =
          resume (Solver.context host n) code args t := by
  have hfits := hcode.fits hargs hsize
  have hctx : (Solver.context host n).Disciplined (Solver.context .none n) :=
    Solver.disciplined_context Host.within_none n
  refine ⟨fun c m f m' h hc hx => ?_, fun report hreport => ?_⟩
  · obtain ⟨d, τ, hgoes⟩ := h.goes hs hfits
    have hpass := hgoes.stays hc hgoes.later.ready.stays_pass
    exact (yields_error (agree_step hctx hpass hc).yields hx).1
  · -- both contexts make the calls that one without predicates of the host makes
    have hctx' : (Solver.contextWith report host n).Disciplined (Solver.context .none n) :=
      Solver.disciplined_contextWith Host.within_none
        (fun _ => .of_keeps (Engine.keeps_onTerms (Exception.extending_ofError _)))
        (fun _ hs => by rw [hreport]; exact .of_yields (Engine.yields_faultException hs .stackOverflow)) n
    refine ⟨?_, fun t ht => ?_⟩
    · exact (agree_start hctx' hs.same hfits).eq.symm.trans (agree_start hctx hs.same hfits).eq
    · have hsuspended := ht.suspended hs hfits
      exact (agree_resume hctx' hfits hsuspended).eq.symm.trans (agree_resume hctx hfits hsuspended).eq

theorem compiled_faultless_sample : ∃ (code : Code) (s : Workspace), s.Ready ∧
    code.Compiled s.database ⟨8⟩ ∧
    (∀ c m f m', Visited .none 20 code #[] s c m → (∀ a, c ≠ .answer a) →
      step (Solver.context .none 20) c ⟨m.workspace.pass, m.activation⟩ = .error (.fault f) m' →
        f = .stackOverflow) ∧
    ∀ report : Fault → EngineM Exception,
      report .stackOverflow = Engine.onTerms (faultException .stackOverflow) →
        start (Solver.contextWith report .none 20) code #[] s =
          start (Solver.context .none 20) code #[] s ∧
        ∀ t, Left .none code #[] s t → resume (Solver.contextWith report .none 20) code #[] t =
          resume (Solver.context .none 20) code #[] t := by
  obtain ⟨code, s, hs, hcode, hsize⟩ := sample_compiled
  exact ⟨code, s, hs, hcode, compiled_faultless hs hcode (by simp) hsize 20⟩

end Compiled

end Activation

end Resolvent
