import Resolvent.Builtins
import Resolvent.Proofs.Backtracking
import Resolvent.Proofs.Typing

/-!
# How an activation lies on the choice stack

Above its entry, an activation has blocks on the choice stack: its alternatives, and the choice points
of its callees with a retry point on top of them. `Chain` says of the blocks what a return to each of
them relies on: which frame the code is typed in there, and that the slots are as that frame says.
Slots are not restored when the search comes back, so every block keeps some slots, which are not
written while it is there; this is what makes `Chain` hold when slots are written
(`Chain.of_slots`).

`Scoped` says where the marks of a frame are: an alternative is a block, and a barrier was saved
in a workspace whose height and trail are in its slot. With it goes the path, the handlers entered
and not yet left, each with the workspace in which it was entered.

A callee that has answered and may be asked again is `Suspended`.
-/

namespace Resolvent

/-- A call of code. -/
structure Call where
  /-- The code. -/
  code : Code
  /-- The arguments. -/
  args : Array Term
  /-- The workspace in which it was made. -/
  origin : Workspace

/-- A handler that balls are brought to. -/
structure Guard where
  /-- The handler. -/
  handler : Chunk.Handler
  /-- The workspace in which its range was entered. -/
  entered : Workspace

/-- A choice point of an activation. -/
structure Block where
  /-- The workspace in which it was made. -/
  base : Workspace
  /-- What it does. -/
  kind : ChoiceKind
  /-- The slots that must not be written. -/
  keeps : Nat → Prop
  /-- The guards on the path, the innermost first. -/
  path : List Guard

/-- The slot holds a term that fits the symbols. -/
def Holds (slots : Array Slot) (s : Workspace) (i : Nat) : Prop :=
  ∃ t, slots[i]? = some (.term t) ∧ t.Fits s.symbols

theorem Holds.later {slots : Array Slot} {s s' : Workspace} {i : Nat} (h : Holds slots s i)
    (hs : s.Later s') : Holds slots s' i := by
  obtain ⟨t, hi, ht⟩ := h
  exact ⟨t, hi, ht.mono hs.symbols⟩

theorem Holds.of_slots {slots slots' : Array Slot} {s : Workspace} {i : Nat} (h : Holds slots s i)
    (hi : slots'[i]? = slots[i]?) : Holds slots' s i := by
  rwa [Holds, hi]

namespace Call

variable (B : Call)

/-- The height of the choice stack above the entry of the activation. -/
def bottom : Nat :=
  B.origin.points.length + 1

/-- The choice point at which the activation fails. -/
def entry : ChoicePoint :=
  ⟨B.origin.mark, .entry B.code⟩

/-- The code is typed in the frame from the offset on. -/
abbrev Typed (Γ : Frame) (pc : Nat) : Prop :=
  B.code.chunk.Typed B.origin.symbols Γ pc

/-- The newest block, or else the entry of the activation, is on top of the choice stack. -/
def Tops : List Block → Workspace → Prop
  | [], s => B.origin.Later s ∧ s.points = B.origin.points ++ [B.entry]
  | b :: _, s => b.base.Later s ∧ s.points = b.base.points ++ [⟨b.base.mark, b.kind⟩]

/-- Where the marks of a frame are, and the guards on the path. -/
inductive Scoped (slots : Array Slot) : (keeps : Nat → Prop) → (exact : Prop) → List Mark →
    List Guard → List Block → Workspace → Prop where
  | nil {keeps : Nat → Prop} {exact : Prop} {bs : List Block} {s : Workspace}
      (he : exact → bs = []) : Scoped slots keeps exact [] [] bs s
  | alternative {keeps keeps' terms : Nat → Prop} {exact : Prop} {ms : List Mark}
      {path : List Guard} {bs bs' : List Block} {t s : Workspace} {r : Nat}
      (hbs : ⟨t, .alternative r, keeps', path⟩ :: bs <:+ bs')
      (he : exact → bs' = ⟨t, .alternative r, keeps', path⟩ :: bs)
      (hl : t.Later s) (hp : t.points <+: s.points)
      (hk : ∀ i, keeps' i → keeps i) (ht : ∀ i, terms i → keeps' i ∧ Holds slots t i)
      (h : Scoped slots keeps' False ms path bs t) :
      Scoped slots keeps exact (.alternative keeps' terms :: ms) path bs' s
  | barrier {keeps keeps' terms : Nat → Prop} {exact exact' : Prop} {ms : List Mark}
      {path : List Guard} {bs bs' : List Block} {t s : Workspace} {n : UInt16}
      {hd : Option Chunk.Handler}
      (hbs : bs <:+ bs') (he : exact → bs' = bs) (htops : B.Tops bs t) (hl : t.Later s)
      (hp : t.points <+: s.points)
      (hn : keeps n.toNat ∧ ¬keeps' n.toNat)
      (hslot : slots[n.toNat]? = some (.barrier ⟨t.points.length, t.mark⟩))
      (hk : ∀ i, keeps' i → keeps i) (ht : ∀ i, terms i → keeps' i ∧ Holds slots t i)
      (hb : ∀ b ∈ bs.head?, ∀ i, b.keeps i → keeps' i)
      (hh : ∀ k ∈ hd, k.slot = n ∧ k ∈ B.code.chunk.handlers ∧ B.Typed
        { (Frame.mk ms exact' keeps' terms slots.size 0).barrier n none with height := 1 }
        k.target.toNat)
      (h : Scoped slots keeps' exact' ms path bs t) :
      Scoped slots keeps exact (.barrier n hd exact' keeps' terms :: ms)
        (hd.toList.map (⟨·, t⟩) ++ path) bs' s

/-- The slots and the choice stack are as the frame says. -/
structure Matches (slots : Array Slot) (Γ : Frame) (path : List Guard) (bs : List Block)
    (s : Workspace) : Prop where
  /-- The blocks are on the choice stack. -/
  tops : B.Tops bs s
  /-- The marks are among them. -/
  marks : B.Scoped slots Γ.keeps Γ.exact Γ.marks path bs s
  /-- These slots hold terms. -/
  terms : ∀ i, Γ.terms i → Holds slots s i
  /-- How many slots there are. -/
  size : slots.size = Γ.size

end Call

/-- The path is remembered for the heights between two workspaces. -/
def Recalls (mem : Nat → List Guard) (s t : Workspace) (path : List Guard) : Prop :=
  ∀ i, s.points.length ≤ i → i ≤ t.points.length → mem i = path

mutual

/-- The search can come back to the blocks of an activation, the newest first, as long as the slots
in `keeps` are not written. `mem` remembers the path for the height of each block. -/
inductive Chain : Call → Array Slot → (mem : Nat → List Guard) → (keeps : Nat → Prop) →
    List Block → Prop where
  | nil {B : Call} {slots : Array Slot} {mem : Nat → List Guard} {keeps : Nat → Prop} :
      Chain B slots mem keeps []
  | alternative {B : Call} {slots : Array Slot} {mem : Nat → List Guard} {keeps : Nat → Prop}
      {Γ : Frame} {path : List Guard} {bs : List Block} {s : Workspace} {r : Nat}
      (below : Chain B slots mem Γ.keeps bs) (hk : ∀ i, Γ.keeps i → keeps i)
      (ht : ∀ i, Γ.terms i → Γ.keeps i) (hm : B.Matches slots Γ path bs s)
      (hr : Recalls mem s s path) (typed : B.Typed Γ.alternative r) :
      Chain B slots mem keeps (⟨s, .alternative r, Γ.keeps, path⟩ :: bs)
  | retry {B : Call} {slots : Array Slot} {mem : Nat → List Guard} {keeps : Nat → Prop}
      {Γ : Frame} {path : List Guard} {bs : List Block} {s t : Workspace} {callee : Callee}
      {args : Array Term} {r c : Nat}
      (below : Chain B slots mem Γ.keeps bs) (hk : ∀ i, Γ.keeps i → keeps i)
      (ht : ∀ i, Γ.terms i → Γ.keeps i) (hm : B.Matches slots Γ path bs s)
      (hr : Recalls mem s t path)
      (typed : B.Typed { Γ with exact := False, height := 0 } r)
      (handler : B.code.chunk.handlerFor? c = Γ.handlers.head?)
      (covers : ∀ k ∈ Γ.handlers, k.covers c) (fits : callee.Fits s.database args)
      (later : s.Later t) (points : s.points <+: t.points) (suspended : Suspended callee args s t) :
      Chain B slots mem keeps (⟨t, .retry callee args r c, Γ.keeps, path⟩ :: bs)

/-- The callee, called with the arguments in the first workspace, has answered and led to the second
one, and may be asked for more. -/
inductive Suspended : Callee → Array Term → Workspace → Workspace → Prop where
  | code {code : Code} {args : Array Term} {slots : Array Slot} {mem : Nat → List Guard}
      {keeps : Nat → Prop} {bs : List Block} {s t u : Workspace}
      (chain : Chain ⟨code, args, s⟩ slots mem keeps bs) (tops : Call.Tops ⟨code, args, s⟩ bs t)
      (some : bs ≠ []) (later : t.Later u)
      (points : u.points = t.points ++ [⟨t.mark, .exit slots (s.points.length + 1)⟩]) :
      Suspended (.code code) args s u
  | range {args : Array Term} {s t : Workspace} {next : Int64} {last : Option Int64} {v : Var}
      (free : s.database.terms.store.deref (Builtin.argument args 2) = .var v)
      (later : s.Later t) (points : t.points = s.points ++ [⟨s.mark, .native (.range next last)⟩]) :
      Suspended (.native (.builtin .between)) args s t
  | goal {args vars : Array Term} {code : Code} {goal : Term} {s s₁ s₂ t : Workspace}
      (later₁ : s.Later s₁) (same : s.moment.Same s₁.moment)
      (points₁ : s₁.points = s.points ++ [⟨s.mark, .cleanup goal⟩])
      (fits : (Callee.code code).Fits s₁.database vars)
      (suspended : Suspended (.code code) vars s₁ s₂) (later₂ : s₂.Later t)
      (points₂ : t.points = s₂.points ++ [⟨s₂.mark, .native (.goal code vars)⟩]) :
      Suspended (.native (.builtin .callCleanup)) args s t

end

namespace Call

variable {B : Call}

theorem Tops.later {bs : List Block} {s s' : Workspace} (h : B.Tops bs s) (hs : s.Later s')
    (hp : s'.points = s.points) : B.Tops bs s' := by
  cases bs with
  | nil => exact ⟨h.1.trans hs, hp.trans h.2⟩
  | cons b bs => exact ⟨h.1.trans hs, hp.trans h.2⟩

theorem Tops.same {bs : List Block} {s s' : Workspace} (h : B.Tops bs s) (hs : s.Same s') :
    B.Tops bs s' :=
  h.later hs.toOwes hs.points

theorem Tops.ready {bs : List Block} {s : Workspace} (h : B.Tops bs s) : s.Ready := by
  cases bs with
  | nil => exact h.1.ready
  | cons b bs => exact h.1.ready

namespace Scoped

variable {slots : Array Slot} {keeps keeps' : Nat → Prop} {exact exact' : Prop} {ms : List Mark}
  {path : List Guard} {bs bs' : List Block} {s s' : Workspace}

theorem loosen (h : B.Scoped slots keeps exact ms path bs s) (he : exact' → exact) :
    B.Scoped slots keeps exact' ms path bs s := by
  cases h with
  | nil he₀ => exact .nil fun h => he₀ (he h)
  | alternative hbs he₀ hl hp hk ht h => exact .alternative hbs (fun h => he₀ (he h)) hl hp hk ht h
  | barrier hbs he₀ htops hl hp hn hslot hk ht hb hh h =>
    exact .barrier hbs (fun h => he₀ (he h)) htops hl hp hn hslot hk ht hb hh h

/-- The marks are still there when there are more blocks, or more bindings. -/
theorem above (h : B.Scoped slots keeps exact ms path bs s) (hs : s.Later s')
    (hp : s.points <+: s'.points) (hb : bs <:+ bs') (he : exact' → exact ∧ bs' = bs) :
    B.Scoped slots keeps exact' ms path bs' s' := by
  cases h with
  | nil he₀ => exact .nil fun h => (he h).2.trans (he₀ (he h).1)
  | alternative hbs he₀ hl hp₀ hk ht h =>
    exact .alternative (hbs.trans hb) (fun h => (he h).2.trans (he₀ (he h).1)) (hl.trans hs)
      (hp₀.trans hp) hk ht h
  | barrier hbs he₀ htops hl hp₀ hn hslot hk ht hb' hh h =>
    exact .barrier (hbs.trans hb) (fun h => (he h).2.trans (he₀ (he h).1)) htops (hl.trans hs)
      (hp₀.trans hp) hn hslot hk ht hb' hh h

theorem same (h : B.Scoped slots keeps exact ms path bs s) (hs : s.Later s')
    (hp : s'.points = s.points) : B.Scoped slots keeps exact ms path bs s' :=
  h.above hs (hp ▸ List.prefix_refl _) (List.suffix_refl _) fun h => ⟨h, rfl⟩

theorem widen (h : B.Scoped slots keeps exact ms path bs s) (hw : ∀ i, keeps i → keeps' i) :
    B.Scoped slots keeps' exact ms path bs s := by
  cases h with
  | nil he => exact .nil he
  | alternative hbs he hl hp hk ht h =>
    exact .alternative hbs he hl hp (fun i hi => hw i (hk i hi)) ht h
  | barrier hbs he htops hl hp hn hslot hk ht hb hh h =>
    exact .barrier hbs he htops hl hp (hn.imp_left (hw _)) hslot (fun i hi => hw i (hk i hi)) ht hb hh h

/-- Slots that are not kept may be written. -/
theorem of_slots {slots' : Array Slot} (h : B.Scoped slots keeps exact ms path bs s)
    (hsize : slots'.size = slots.size) (hs : ∀ i, keeps i → slots'[i]? = slots[i]?) :
    B.Scoped slots' keeps exact ms path bs s := by
  induction h with
  | nil he => exact .nil he
  | alternative hbs he hl hp hk ht _ ih =>
    exact .alternative hbs he hl hp hk (fun i hi => ⟨(ht i hi).1,
      (ht i hi).2.of_slots (hs i (hk i (ht i hi).1))⟩) (ih fun i hi => hs i (hk i hi))
  | barrier hbs he htops hl hp hn hslot hk ht hb hh _ ih =>
    refine .barrier hbs he htops hl hp hn ((hs _ hn.1).trans hslot) hk
      (fun i hi => ⟨(ht i hi).1, (ht i hi).2.of_slots (hs i (hk i (ht i hi).1))⟩) hb ?_
      (ih fun i hi => hs i (hk i hi))
    rw [hsize]
    exact hh

/-- Marks without handlers may be forgotten. -/
theorem drop {above : List Mark} (h : B.Scoped slots keeps exact (above ++ ms) path bs s)
    (hnone : ∀ m ∈ above, m.handler? = none) : B.Scoped slots keeps False ms path bs s := by
  induction above generalizing keeps exact bs s with
  | nil => exact h.loosen False.elim
  | cons m above ih =>
    rw [List.forall_mem_cons] at hnone
    cases h with
    | alternative hbs he hl hp hk ht h =>
      exact ((ih h hnone.2).above hl hp ((List.suffix_cons _ _).trans hbs) False.elim).widen hk
    | @barrier _ _ _ _ _ _ _ _ _ _ _ _ hd hbs he htops hl hp hn hslot hk ht hb hh h =>
      obtain rfl : hd = none := hnone.1
      exact ((ih h hnone.2).above hl hp hbs False.elim).widen hk

/-- Where the innermost handler was entered. -/
theorem innermost {k : Chunk.Handler} (h : B.Scoped slots keeps exact ms path bs s)
    (hk : (ms.filterMap Mark.handler?).head? = some k) :
    ∃ ms' exact' keeps' terms path' bs' t, path = ⟨k, t⟩ :: path' ∧ bs' <:+ bs ∧ B.Tops bs' t ∧
      t.Later s ∧ t.points <+: s.points ∧
      slots[k.slot.toNat]? = some (.barrier ⟨t.points.length, t.mark⟩) ∧ ¬keeps' k.slot.toNat ∧
      (∀ i, terms i → keeps' i ∧ Holds slots t i) ∧ (∀ b ∈ bs'.head?, ∀ i, b.keeps i → keeps' i) ∧
      B.Typed { (Frame.mk ms' exact' keeps' terms slots.size 0).barrier k.slot none with height := 1 }
        k.target.toNat ∧ B.Scoped slots keeps' exact' ms' path' bs' t := by
  induction h with
  | nil => cases hk
  | alternative hbs _ hl hp _ _ _ ih =>
    rw [List.filterMap_cons] at hk
    obtain ⟨ms', exact', keeps', terms, path', bs', t, heq, hbs', htops, hl', hp', rest⟩ := ih hk
    exact ⟨ms', exact', keeps', terms, path', bs', t, heq,
      hbs'.trans ((List.suffix_cons _ _).trans hbs), htops, hl'.trans hl, hp'.trans hp, rest⟩
  | @barrier _ keeps' terms _ exact' ms path bs _ t _ n hd hbs _ htops hl hp hn hslot _ ht hb hh h ih =>
    rw [List.filterMap_cons] at hk
    cases hd with
    | none =>
      obtain ⟨ms', exact', keeps', terms, path', bs', t, heq, hbs', htops, hl', hp', rest⟩ := ih hk
      exact ⟨ms', exact', keeps', terms, path', bs', t, heq, hbs'.trans hbs, htops, hl'.trans hl,
        hp'.trans hp, rest⟩
    | some k' =>
      obtain rfl : k' = k := Option.some.inj hk
      obtain ⟨rfl, -, htarget⟩ := hh k' rfl
      refine ⟨ms, exact', keeps', terms, path, bs, t, rfl, hbs, htops, hl, hp, hslot, hn.2, ht, hb, ?_, h⟩
      exact htarget

/-- The handlers on the path are those of the marks. -/
theorem handlers (h : B.Scoped slots keeps exact ms path bs s) :
    path.map Guard.handler = ms.filterMap Mark.handler? := by
  induction h with
  | nil => rfl
  | alternative _ _ _ _ _ _ _ ih => rw [ih, List.filterMap_cons, Mark.handler?]
  | @barrier _ _ _ _ _ _ _ _ _ _ _ _ hd _ _ _ _ _ _ _ _ _ _ _ _ ih =>
    rw [List.map_append, ih, List.filterMap_cons, Mark.handler?]
    cases hd <;> rfl

/-- Slots with barriers of handlers are kept. -/
theorem keeps_slot (h : B.Scoped slots keeps exact ms path bs s) {k : Chunk.Handler}
    (hk : k ∈ ms.filterMap Mark.handler?) : keeps k.slot.toNat := by
  induction h with
  | nil => exact absurd hk List.not_mem_nil
  | alternative _ _ _ _ hw _ _ ih =>
    rw [List.filterMap_cons] at hk
    exact hw _ (ih hk)
  | @barrier _ _ _ _ _ _ _ _ _ _ _ _ hd _ _ _ _ _ hn _ hw _ _ hh _ ih =>
    rw [List.filterMap_cons] at hk
    cases hd with
    | none => exact hw _ (ih hk)
    | some k' =>
      obtain rfl | hk := List.mem_cons.mp hk
      · exact (hh k rfl).1 ▸ hn.1
      · exact hw _ (ih hk)

/-- The handlers on the path are those of the code, and no one is there twice. -/
theorem path_nodup (h : B.Scoped slots keeps exact ms path bs s) :
    (∀ g ∈ path, g.handler ∈ B.code.chunk.handlers) ∧ (path.map Guard.handler).Nodup := by
  induction h with
  | nil => exact ⟨fun _ hg => absurd hg List.not_mem_nil, List.nodup_nil⟩
  | alternative _ _ _ _ _ _ _ ih => exact ih
  | @barrier _ _ _ _ _ _ path _ _ t _ _ hd _ _ _ _ _ hn _ _ _ _ hh h ih =>
    cases hd with
    | none => exact ih
    | some k =>
      obtain ⟨rfl, hmem, -⟩ := hh k rfl
      refine ⟨List.forall_mem_cons.mpr ⟨hmem, ih.1⟩, List.nodup_cons.mpr ⟨fun hk => ?_, ih.2⟩⟩
      -- the slot of the new barrier was not kept before
      have hk : k ∈ path.map Guard.handler := hk
      rw [h.handlers] at hk
      exact hn.2 (h.keeps_slot hk)

end Scoped

theorem Matches.weaken {slots : Array Slot} {Γ Γ' : Frame} {path : List Guard} {bs : List Block}
    {s : Workspace} (h : B.Matches slots Γ path bs s) (hw : Γ.Weakens Γ') :
    B.Matches slots Γ' path bs s := by
  refine ⟨h.tops, ?_, fun i hi => h.terms i (hw.terms i hi), h.size.trans hw.size.symm⟩
  rw [hw.marks]
  exact (h.marks.loosen hw.exact).widen hw.keeps

theorem Matches.of_slots {slots slots' : Array Slot} {Γ : Frame} {path : List Guard}
    {bs : List Block} {s : Workspace} (h : B.Matches slots Γ path bs s)
    (ht : ∀ i, Γ.terms i → Γ.keeps i) (hsize : slots'.size = slots.size)
    (hs : ∀ i, Γ.keeps i → slots'[i]? = slots[i]?) : B.Matches slots' Γ path bs s := by
  exact ⟨h.tops, h.marks.of_slots hsize hs, fun i hi => (h.terms i hi).of_slots (hs i (ht i hi)),
    hsize.trans h.size⟩

end Call

namespace Chain

variable {B : Call} {slots : Array Slot} {mem : Nat → List Guard} {keeps keeps' : Nat → Prop}

theorem widen {bs : List Block} (h : Chain B slots mem keeps bs) (hw : ∀ i, keeps i → keeps' i) :
    Chain B slots mem keeps' bs := by
  cases h with
  | nil => exact .nil
  | alternative below hk ht hm hr typed =>
    exact .alternative below (fun i hi => hw i (hk i hi)) ht hm hr typed
  | retry below hk ht hm hr typed handler covers fits later points suspended =>
    exact .retry below (fun i hi => hw i (hk i hi)) ht hm hr typed handler covers fits later points
      suspended

/-- Slots that are not kept may be written. -/
theorem of_slots {slots' : Array Slot} (hsize : slots'.size = slots.size) :
    ∀ {bs : List Block} {keeps : Nat → Prop}, Chain B slots mem keeps bs →
      (∀ i, keeps i → slots'[i]? = slots[i]?) → Chain B slots' mem keeps bs
  | [], _, _, _ => .nil
  | _ :: _, _, .alternative below hk ht hm hr typed, hs =>
    have hs' := fun i hi => hs i (hk i hi)
    .alternative (below.of_slots hsize hs') hk ht (hm.of_slots ht hsize hs') hr typed
  | _ :: _, _, .retry below hk ht hm hr typed handler covers fits later points suspended, hs =>
    have hs' := fun i hi => hs i (hk i hi)
    .retry (below.of_slots hsize hs') hk ht (hm.of_slots ht hsize hs') hr typed handler covers fits
      later points suspended

/-- The entry of the activation is on the choice stack, and what was bound since is on the trail. -/
theorem reaches : ∀ {bs : List Block} {keeps : Nat → Prop} {s : Workspace},
    Chain B slots mem keeps bs → B.Tops bs s →
      B.origin.Later s ∧ B.origin.points ++ [B.entry] <+: s.points
  | [], _, _, _, h => ⟨h.1, h.2 ▸ List.prefix_refl _⟩
  | _ :: _, _, _, .alternative below _ _ hm _ _, h => by
    obtain ⟨hl, hp⟩ := reaches below hm.tops
    exact ⟨hl.trans h.1, hp.trans (h.2 ▸ List.prefix_append _ _)⟩
  | _ :: _, _, _, .retry below _ _ hm _ _ _ _ _ later points _, h => by
    obtain ⟨hl, hp⟩ := reaches below hm.tops
    exact ⟨(hl.trans later).trans h.1, hp.trans (points.trans (h.2 ▸ List.prefix_append _ _))⟩

/-- The path is remembered for heights up to that of the choice stack. -/
theorem of_memory {mem' : Nat → List Guard} : ∀ {bs : List Block} {keeps : Nat → Prop}
    {s : Workspace}, Chain B slots mem keeps bs → B.Tops bs s →
      (∀ i, i < s.points.length → mem' i = mem i) → Chain B slots mem' keeps bs
  | [], _, _, _, _, _ => .nil
  | _ :: _, _, _, .alternative below hk ht hm hr typed, h, heq => by
    have hlen := congrArg List.length h.2
    rw [List.length_append, List.length_singleton] at hlen
    refine .alternative (below.of_memory hm.tops fun i hi => heq i (by dsimp only at hlen; omega)) hk ht hm
      (fun i hi hi' => ?_) typed
    rw [heq i (by dsimp only at hlen; omega)]
    exact hr i hi hi'
  | _ :: _, _, _, .retry below hk ht hm hr typed handler covers fits later points suspended, h,
      heq => by
    have hlen := congrArg List.length h.2
    have hle := points.length_le
    rw [List.length_append, List.length_singleton] at hlen
    refine .retry (below.of_memory hm.tops fun i hi => heq i (by dsimp only at hlen; omega)) hk ht hm
      (fun i hi hi' => ?_) typed handler covers fits later points suspended
    rw [heq i (by dsimp only at hlen; omega)]
    exact hr i hi hi'

/-- The newest block keeps no other slots. -/
theorem keeps_head {bs : List Block} (h : Chain B slots mem keeps bs) :
    ∀ b ∈ bs.head?, ∀ i, b.keeps i → keeps i := by
  intro b hb
  cases h with
  | nil => exact nomatch hb
  | alternative below hk =>
    obtain rfl := Option.some.inj hb
    exact hk
  | retry below hk =>
    obtain rfl := Option.some.inj hb
    exact hk

/-- Only the slots that the newest block keeps count. -/
theorem narrow {bs : List Block} (h : Chain B slots mem keeps bs)
    (hk' : ∀ b ∈ bs.head?, ∀ i, b.keeps i → keeps' i) : Chain B slots mem keeps' bs := by
  cases h with
  | nil => exact .nil
  | alternative below hk ht hm hr typed => exact .alternative below (hk' _ rfl) ht hm hr typed
  | retry below hk ht hm hr typed handler covers fits later points suspended =>
    exact .retry below (hk' _ rfl) ht hm hr typed handler covers fits later points suspended

/-- Older blocks. -/
theorem suffix {bs bs' : List Block} (h : Chain B slots mem keeps bs) (hs : bs' <:+ bs) :
    Chain B slots mem keeps bs' := by
  induction bs generalizing keeps with
  | nil =>
    rw [List.suffix_nil] at hs
    subst hs
    exact .nil
  | cons b bs ih =>
    obtain rfl | hs' := List.suffix_cons_iff.mp hs
    · exact h
    · cases h with
      | alternative below hk _ _ _ _ => exact (ih below hs').widen hk
      | retry below hk => exact (ih below hs').widen hk

end Chain

/-- The activation of a call has been left with blocks above its entry, for which `mem` remembers the
path. -/
def Call.Exited (B : Call) (mem : Nat → List Guard) (s : Workspace) : Prop :=
  ∃ slots keeps bs t, Chain B slots mem keeps bs ∧ B.Tops bs t ∧ bs ≠ [] ∧ t.Later s ∧
    s.points = t.points ++ [⟨t.mark, .exit slots B.bottom⟩]

theorem Call.Exited.suspended {B : Call} {mem : Nat → List Guard} {s : Workspace}
    (h : B.Exited mem s) : Suspended (.code B.code) B.args B.origin s := by
  obtain ⟨slots, keeps, bs, t, chain, tops, some, later, points⟩ := h
  exact .code chain tops some later points

theorem Call.Exited.later {B : Call} {mem : Nat → List Guard} {s u : Workspace}
    (h : B.Exited mem s) (hl : s.Later u) (hp : u.points = s.points) : B.Exited mem u := by
  obtain ⟨slots, keeps, bs, t, chain, tops, some, later, points⟩ := h
  exact ⟨slots, keeps, bs, t, chain, tops, some, later.trans hl, hp.trans points⟩

namespace Suspended

variable {callee : Callee} {args : Array Term} {s t u : Workspace}

theorem exited {code : Code} (h : Suspended (.code code) args s t) :
    ∃ mem, Call.Exited ⟨code, args, s⟩ mem t := by
  cases h with
  | code chain tops some later points => exact ⟨_, _, _, _, _, chain, tops, some, later, points⟩

theorem same (h : Suspended callee args s t) (hl : t.Later u) (hp : u.points = t.points) :
    Suspended callee args s u := by
  cases h with
  | code chain tops some later points =>
    exact .code chain tops some (later.trans hl) (hp.trans points)
  | range free later points => exact .range free (later.trans hl) (hp.trans points)
  | goal later₁ same points₁ fits suspended later₂ points₂ =>
    exact .goal later₁ same points₁ fits suspended (later₂.trans hl) (hp.trans points₂)

theorem reaches_code {code : Code} (h : Suspended (.code code) args s t) :
    s.Later t ∧ s.points <+: t.points := by
  cases h with
  | code chain tops some later points =>
    obtain ⟨hl, hp⟩ := chain.reaches tops
    exact ⟨hl.trans later, (List.prefix_append _ _).trans (hp.trans (points ▸ List.prefix_append _ _))⟩

/-- A suspended callee has left choice points on top of those of the caller. -/
theorem reaches (h : Suspended callee args s t) : s.Later t ∧ s.points <+: t.points := by
  cases h with
  | code chain tops some later points => exact reaches_code (.code chain tops some later points)
  | range free later points => exact ⟨later, points ▸ List.prefix_append _ _⟩
  | goal later₁ same points₁ fits suspended later₂ points₂ =>
    obtain ⟨hl, hp⟩ := suspended.reaches_code
    exact ⟨(later₁.trans hl).trans later₂, (points₁ ▸ List.prefix_append _ _).trans
      (hp.trans (points₂ ▸ List.prefix_append _ _))⟩

end Suspended

end Resolvent
