import Resolvent.Proofs.Coherence
import Resolvent.Proofs.Searching

/-!
# Changes of the database while goals are searched for

A search does not look at the predicates that it was begun with: what it relies on is the code that it
has found, the tags and call sites of this code, and the bindings. So a search that is going on could as
well have been begun under other predicates (`Engine.Opened.under`, `Engine.Searching.under`), as long as
these are sound and none of its symbols has been lost; `Database.under` is a database with other
predicates. A change that suits the database leaves it sound (`Database.updates_mutation`), and so does
no harm to the searches that are going on.
-/

namespace Resolvent

namespace Database

/-! ### Changes that suit a database -/

/-- The change gives predicates by terms that fit the symbols, or by native predicates that every
database has. -/
def Mutation.Suits (s : Symbols) : Mutation → Prop
  | addClause t | addClauseFront t => t.Fits s
  | define tag cs => ∀ c ∈ cs, c.Suits s tag
  | registerNative _ n => n.Shipped
  | _ => True

theorem updates_mutation {d : Database} (hd : d.Sound) {m : Mutation}
    (hm : m.Suits d.terms.symbols) : Updates m.run d fun _ _ => True := by
  cases m with
  | addClause t => exact updates_addClause hd hm
  | addClauseFront t => exact updates_addClauseFront hd hm
  | removeClause tag i => exact (updates_removeClause hd tag i).discard
  | define tag cs => exact updates_define hd hm
  | registerNative tag n => exact updates_registerNative hd tag hm
  | abolish tag => exact (updates_abolish hd tag).discard
  | setUnknown policy => exact updates_setUnknown hd policy
  | subscribe => exact updates_subscribe hd

/-- Whether the change is made or refused. -/
theorem Mutation.Suits.updated {d d' : Database} {m : Mutation} (hm : m.Suits d.terms.symbols)
    (hd : d.Sound) (h : Ends m.run d d') : d.Updated d' := by
  obtain ⟨a, h⟩ | ⟨e, h⟩ := h
  · exact (yields_ok (updates_mutation hd hm) h).1
  · exact (yields_error (E := fun _ d' => d.Updated d') (updates_mutation hd hm) h :)

/-! ### Other predicates -/

/-- The second database as it would be with the predicates and symbols of the first one. -/
def under (d d₀ : Database) : Database :=
  { d with
    terms := ⟨d.terms.symbols, d₀.terms.store⟩
    codeCache := d₀.codeCache
    sites := d₀.sites }

variable {d d₀ d₁ : Database}

theorem retains_under (hs : d₀.terms.symbols.Extends d.terms.symbols) : d₀.Retains (d.under d₀) :=
  ⟨hs, fun _ _ site h => ⟨site, h⟩⟩

theorem Sound.under (hd : d.Sound) (h : d₀.Sound) (hs : d₀.terms.symbols.Extends d.terms.symbols) :
    (d.under d₀).Sound := by
  have hretains := retains_under hs
  refine ⟨⟨hd.terms.started, fun v t hv => (h.terms.store v t hv).mono hs⟩, hd.predicates,
    fun i code hi => ?_, fun i tag site g callee hi hg => ?_⟩
  · have hcode := h.cache i code hi
    exact ⟨hcode.1.mono hretains, hcode.2.mono hs⟩
  · have hcallee := h.sites i tag site g callee hi hg
    exact ⟨hcallee.1.mono hretains, hcallee.2.mono hs⟩

theorem Grows.under (d : Database) (h : d₀.Grows d₁) : (d.under d₀).Grows (d.under d₁) :=
  ⟨rfl, rfl, rfl, rfl, rfl, .refl _, h.sites⟩

theorem Adds.under (hd : d.Sound) (h : d₀.Adds d₁) (hs : d₁.terms.symbols.Extends d.terms.symbols) :
    (d.under d₀).Adds (d.under d₁) :=
  ⟨h.grows.under d, ⟨.refl _, h.terms.store⟩, hd.under h.sound hs⟩

/-- A changed database is one with other predicates to which something has been added. -/
theorem Updated.adds (h : d₀.Updated d) : (d.under d₀).Adds d :=
  ⟨⟨rfl, rfl, rfl, rfl, rfl, .refl _, h.sites⟩, ⟨.refl _, h.terms.store⟩, h.sound⟩

end Database

/-- The workspace as it would be with other predicates. -/
def Workspace.under (d : Database) (s : Workspace) : Workspace :=
  ⟨d.under s.database, s.engine⟩

/-- The guard as it would be with other predicates. -/
def Guard.under (d : Database) (g : Guard) : Guard :=
  ⟨g.handler, g.entered.under d⟩

/-- The block as it would be with other predicates. -/
def Block.under (d : Database) (b : Block) : Block :=
  ⟨b.base.under d, b.kind, b.keeps, b.path.map (Guard.under d)⟩

/-- The call as it would be with other predicates. -/
def Call.under (d : Database) (B : Call) : Call :=
  ⟨B.code, B.args, B.origin.under d⟩

section Under

variable {d : Database} (hd : d.Sound) {s t : Workspace}

theorem Callee.Fits.under {callee : Callee} {args : Array Term} (h : callee.Fits s.database args)
    (hs : s.symbols.Extends d.terms.symbols) : callee.Fits (s.under d).database args :=
  h.mono (Database.retains_under hs)

theorem Holds.under {slots : Array Slot} {i : Nat} (h : Holds slots s i)
    (hs : s.symbols.Extends d.terms.symbols) : Holds slots (s.under d) i := by
  obtain ⟨t, hi, ht⟩ := h
  exact ⟨t, hi, ht.mono hs⟩

theorem Recalls.under {mem : Nat → List Guard} {path : List Guard} (h : Recalls mem s t path) :
    Recalls (fun i => (mem i).map (Guard.under d)) (s.under d) (t.under d)
      (path.map (Guard.under d)) :=
  fun i hi hi' => congrArg (List.map (Guard.under d)) (h i hi hi')

include hd

namespace Workspace

theorem Ready.under (h : s.Ready) (hs : s.symbols.Extends d.terms.symbols) : (s.under d).Ready :=
  ⟨hd.under h.database hs, h.recording, h.active, fun p hp g hg => (h.cleanups p hp g hg).mono hs,
    h.made⟩

theorem Idle.under (h : s.Idle) (hs : s.symbols.Extends d.terms.symbols) : (s.under d).Idle :=
  ⟨h.active, h.ready.under hd hs, h.held⟩

theorem Reaches.under (h : s.Reaches t) (ht : t.symbols.Extends d.terms.symbols) :
    (s.under d).Reaches (t.under d) :=
  ⟨h.ready.under hd ht, h.grows.under d, h.config, h.limit, h.returnPoints, h.active, h.before⟩

theorem Owes.under {goals : List Term} (h : s.Owes goals t) (ht : t.symbols.Extends d.terms.symbols) :
    (s.under d).Owes goals (t.under d) :=
  ⟨h.toReaches.under hd ht, h.settled⟩

theorem Same.under (h : s.Same t) (ht : t.symbols.Extends d.terms.symbols) :
    (s.under d).Same (t.under d) :=
  ⟨h.toOwes.under hd ht, h.moment, h.points⟩

end Workspace

namespace Call

variable {B : Call} {slots : Array Slot} {keeps : Nat → Prop} {exact : Prop} {ms : List Mark}
  {path : List Guard} {bs : List Block}

theorem Tops.under (h : B.Tops bs s) (hs : s.symbols.Extends d.terms.symbols) :
    (B.under d).Tops (bs.map (Block.under d)) (s.under d) := by
  cases bs with
  | nil => exact ⟨h.1.under hd hs, h.2⟩
  | cons b bs => exact ⟨h.1.under hd hs, h.2⟩

theorem Scoped.under (h : B.Scoped slots keeps exact ms path bs s)
    (hB : B.origin.symbols.Extends d.terms.symbols) (hs : s.symbols.Extends d.terms.symbols) :
    (B.under d).Scoped slots keeps exact ms (path.map (Guard.under d)) (bs.map (Block.under d))
      (s.under d) := by
  induction h with
  | nil he => exact .nil fun h => congrArg (List.map (Block.under d)) (he h)
  | alternative hbs he hl hp hk ht _ ih =>
    have hs' := hl.symbols.trans hs
    exact .alternative (hbs.map (Block.under d)) (fun h => congrArg (List.map (Block.under d)) (he h))
      (hl.under hd hs) hp hk (fun i hi => ⟨(ht i hi).1, (ht i hi).2.under hs'⟩) (ih hs')
  | barrier hbs he htops hl hp hn hslot hk ht hb hh _ ih =>
    have hs' := hl.symbols.trans hs
    rw [List.map_append, List.map_map]
    refine .barrier (hbs.map (Block.under d)) (fun h => congrArg (List.map (Block.under d)) (he h))
      (htops.under hd hs') (hl.under hd hs) hp hn hslot hk
      (fun i hi => ⟨(ht i hi).1, (ht i hi).2.under hs'⟩) (fun b hmem => ?_)
      (fun k hk => ⟨(hh k hk).1, (hh k hk).2.1, Chunk.Typed.mono hB (hh k hk).2.2⟩) (ih hs')
    -- the newest block keeps the slots that it kept
    rw [List.head?_map] at hmem
    obtain ⟨b₀, hb₀, rfl⟩ := Option.map_eq_some_iff.mp hmem
    exact hb b₀ hb₀

theorem Matches.under {Γ : Frame} (h : B.Matches slots Γ path bs s)
    (hB : B.origin.symbols.Extends d.terms.symbols) (hs : s.symbols.Extends d.terms.symbols) :
    (B.under d).Matches slots Γ (path.map (Guard.under d)) (bs.map (Block.under d)) (s.under d) :=
  ⟨h.tops.under hd hs, h.marks.under hd hB hs, fun i hi => (h.terms i hi).under hs, h.size⟩

end Call

mutual

/-- The search can come back to the blocks under other predicates as well. -/
theorem Chain.under {B : Call} {slots : Array Slot} {mem : Nat → List Guard} :
    ∀ {bs : List Block} {keeps : Nat → Prop} {s : Workspace}, Chain B slots mem keeps bs → B.Tops bs s →
      s.symbols.Extends d.terms.symbols →
        Chain (B.under d) slots (fun i => (mem i).map (Guard.under d)) keeps (bs.map (Block.under d))
  | [], _, _, _, _, _ => .nil
  | _ :: _, _, _, .alternative below hk ht hm hr typed, h, hs =>
    have hbase := h.1.symbols.trans hs
    have hB := (below.reaches hm.tops).1.symbols.trans hbase
    .alternative (below.under hm.tops hbase) hk ht (hm.under hd hB hbase) hr.under
      (Chunk.Typed.mono hB typed)
  | _ :: _, _, _, .retry below hk ht hm hr typed handler covers fits later points suspended, h, hs =>
    have hbase := h.1.symbols.trans hs
    have hs' := later.symbols.trans hbase
    have hB := (below.reaches hm.tops).1.symbols.trans hs'
    .retry (below.under hm.tops hs') hk ht (hm.under hd hB hs') hr.under (Chunk.Typed.mono hB typed)
      handler covers (fits.under hs') (later.under hd hbase) points (suspended.under hbase)

/-- A callee that may be asked for more may be so under other predicates as well. -/
theorem Suspended.under : ∀ {callee : Callee} {args : Array Term} {s t : Workspace},
    Suspended callee args s t → t.symbols.Extends d.terms.symbols →
      Suspended callee args (s.under d) (t.under d)
  | _, _, _, _, .code chain tops hne later points, ht =>
    have hs := later.symbols.trans ht
    .code (chain.under tops hs) (tops.under hd hs) (mt List.map_eq_nil_iff.mp hne) (later.under hd ht)
      points
  | _, _, _, _, .range free later points, ht => .range free (later.under hd ht) points
  | _, _, _, _, .goal later₁ same points₁ fits suspended later₂ points₂, ht =>
    have hs₂ := later₂.symbols.trans ht
    have hs₁ := suspended.reaches.1.symbols.trans hs₂
    .goal (later₁.under hd hs₁) same points₁ (fits.under hs₁) (suspended.under hs₂)
      (later₂.under hd ht) points₂

end

namespace Engine

variable {g : PreparedGoal} {b p : Workspace}

theorem Opened.under (h : Opened b g p) (hp : p.symbols.Extends d.terms.symbols) :
    Opened (b.under d) g (p.under d) := by
  obtain ⟨hfits, hactive, hready, d₁, hadds, hbase⟩ := h
  have hd₁ : d₁.terms.symbols.Extends d.terms.symbols := by
    obtain ⟨-, -, rfl⟩ | ⟨-, -, rfl⟩ := hbase
    · exact hp
    · exact hp
  have hb := hadds.grows.symbols.trans hd₁
  refine ⟨hfits.under hp, hactive, hready.under hd hp, d.under d₁, hadds.under hd hd₁, ?_⟩
  obtain ⟨hnested, hb₀, rfl⟩ | ⟨hnested, hb₀, rfl⟩ := hbase
  · exact .inl ⟨hnested, hb₀.under hd hb, rfl⟩
  · exact .inr ⟨hnested, hb₀.under hd hb, rfl⟩

theorem Searching.under (h : Searching g p s) (hs : s.symbols.Extends d.terms.symbols) :
    Searching g (p.under d) (s.under d) := by
  refine ⟨h.later.under hd hs, h.points, h.depth, fun hfresh => (h.fresh hfresh).under hd hs,
    fun hstarted hdone => ?_⟩
  obtain ⟨u, hu, hsuspended⟩ := h.suspended hstarted hdone
  have hsu := hsuspended.reaches.1.symbols.trans hs
  exact ⟨u.under d, hu.under hd hsu, hsuspended.under hd hs⟩

end Engine

end Under

end Resolvent
