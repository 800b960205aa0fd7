import Resolvent.Proofs.Isolation
import Resolvent.Proofs.Layout

/-!
# What calls do to the choice stack

A call that answers leaves the choice stack as it was, or puts choice points on top that are
`Suspended`; one that fails or throws leaves the workspace as it was. `Context.Disciplined` says this
of all calls that an activation may make; it says besides that they do not depend on how faults are
reported, apart from too many operands.

`Live` is what a running activation keeps to, and `Breaks` what it is interrupted in.
-/

namespace Resolvent

namespace Callee

/-- How a callee leaves the workspace in which it was called, with an answer. -/
def Answered (callee : Callee) (args : Array Term) (s : Workspace) (depth : Nat) (a : Answer)
    (s' : Workspace) : Prop :=
  s'.engine.depth = depth ∧
    match a with
    | .more => Suspended callee args s s'
    | .last => s.Later s' ∧ s'.points = s.points
    | .fail => s.Same s'

theorem Answered.later {callee : Callee} {args : Array Term} {s s' : Workspace} {depth : Nat}
    {a : Answer} (h : callee.Answered args s depth a s') : s.Later s' := by
  cases a with
  | more => exact h.2.reaches.1
  | last => exact h.2.1
  | fail => exact h.2.toOwes

end Callee

/-- The callee makes an entry of its own on the choice stack. -/
def Callee.HasEntry : Callee → Prop
  | .code _ => True
  | .native _ => False

namespace Workspace

/-- The newest choice point is not a cleanup point. -/
def Topped (s : Workspace) : Prop :=
  ∃ p ∈ s.points.getLast?, p.cleanup? = none

theorem Topped.of_points {s s' : Workspace} (h : s.Topped) (hp : s'.points = s.points) : s'.Topped := by
  rwa [Topped, hp]

theorem topped_concat {s : Workspace} {l : List ChoicePoint} {p : ChoicePoint}
    (h : s.points = l ++ [p]) (hp : p.cleanup? = none) : s.Topped :=
  ⟨p, by rw [h, List.getLast?_concat]; rfl, hp⟩

/-- A cleanup goal has just asked for the end of the run. -/
def Asked (s : Workspace) : Prop :=
  ∃ goal l, s.chronicle = .halted goal :: l

/-- A goal with a cleanup goal has been interrupted. -/
theorem Ready.stays_interrupt {s : Workspace} (h : s.Ready) (htop : s.Topped ∨ s.Asked) :
    s.Stays s.interrupt := by
  refine h.stays_note ?_ ?_ ?_ <;> rw [Ghost.value_map]
  · intro hasker p hp
    obtain ⟨q, hq, hnone⟩ | ⟨goal, l, hl⟩ := htop
    · have hp : s.points.getLast? = some p := by
        rw [Workspace.points, Array.getLast?_toList]
        exact hp
      rw [hp] at hq
      cases hq
      exact hnone
    · rw [show s.engine.chronicle.value = .halted goal :: l from hl] at hasker
      cases hasker
  · rfl
  · rfl

/-- How a call leaves the workspace in which it was made, without an answer. A callee with an entry of
its own takes back what it has done before it throws an exception, or leaves no cleanup point on top.
When the end of the run has been asked for, no cleanup point comes to lie on top, unless the callee has
been undone and a cleanup goal asked for it then. -/
def Stopped (s : Workspace) (depth : Nat) (entered : Prop) (e : Stop) (s' : Workspace) : Prop :=
  match e with
  | .thrown x => s'.engine.depth = depth ∧ s.Later s' ∧ s.points <+: s'.points ∧
      x.Sealed s'.database.terms ∧ (entered → s'.Topped ∨ s.Same s')
  | .halted _ => s'.engine.depth = depth ∧ s.Later s' ∧ s.points <+: s'.points ∧
      (entered ∨ s.Topped → s'.Topped ∨ s'.Asked ∧ s'.points = s.points)
  | .spent => s.Tells s'

/-- How a run of code leaves the workspace in which it began, without an answer: what it has done
before it throws an exception is taken back. -/
def Undone (s : Workspace) (depth : Nat) (e : Stop) (s' : Workspace) : Prop :=
  s.Stopped depth True e s' ∧ ∀ x, e = .thrown x → s.Same s'

/-- An exception has been raised in a workspace like the one in which the call was made. -/
theorem Raised.same {ρ s t : Workspace} {e : Stop} (h : s.Raised e t) (hρ : ρ.Same s) : ρ.Same t := by
  obtain ⟨x, -, -, hs⟩ := h
  exact hρ.trans hs.same

theorem Raised.stopped {ρ s t : Workspace} {e : Stop} (h : s.Raised e t) (hρ : ρ.Same s)
    (entered : Prop) : ρ.Stopped s.engine.depth entered e t := by
  have hsame := h.same hρ
  obtain ⟨x, rfl, hx, hs⟩ := h
  exact ⟨hs.depth, hsame.toOwes, hsame.points ▸ List.prefix_refl _, hx, fun _ => .inr hsame⟩

end Workspace

/-- No cleanup point lies on top of what a callee has left to come back to. -/
theorem Suspended.topped {callee : Callee} {args : Array Term} {s s' : Workspace}
    (h : Suspended callee args s s') : s'.Topped := by
  cases h with
  | code _ _ _ _ points => exact Workspace.topped_concat points rfl
  | range _ _ points => exact Workspace.topped_concat points rfl
  | goal _ _ _ _ _ _ points => exact Workspace.topped_concat points rfl

/-- The calls of both contexts end alike and leave the choice stack as they should. -/
structure Context.Disciplined (ctx ctx' : Context) : Prop where
  /-- The fuel is the same. -/
  fuel : ctx'.fuel = ctx.fuel
  /-- Calls stay within the search. -/
  within : ctx'.Within
  /-- Calls. -/
  call : ∀ (callee : Callee) (args : Array Term) (s : Workspace), s.Ready →
    callee.Fits s.database args → Agree (ctx.invoke callee args false)
      (ctx'.invoke callee args false) s (callee.Answered args s s.engine.depth)
      (s.Stopped s.engine.depth callee.HasEntry)
  /-- Calls for another solution. -/
  redo : ∀ (callee : Callee) (args : Array Term) (s₀ s : Workspace),
    callee.Fits s₀.database args → Suspended callee args s₀ s → Agree (ctx.invoke callee args true)
      (ctx'.invoke callee args true) s (callee.Answered args s₀ s.engine.depth)
      (s₀.Stopped s.engine.depth callee.HasEntry)
  /-- Cleanup goals. -/
  cleanups : ∀ (goals : List Term) (s : Workspace), s.Ready → (∀ g ∈ goals, g.Fits s.symbols) →
    Agree (ctx.runCleanups goals) (ctx'.runCleanups goals) s (fun _ s' => s.Clears goals s')
      fun e s' => (e = .spent ∧ s.Tells s') ∨ ∃ n, e = .halted n ∧ s.Clears goals s' ∧ s'.Asked
  /-- Too many operands. -/
  report : ∀ s : Workspace, s.Ready → Agree (ctx.report .stackOverflow) (ctx'.report .stackOverflow) s
    (fun x s' => s.Stays s' ∧ x.Sealed s'.database.terms) fun _ _ => False

/-- What the run of an activation leaves unsaid: the guards that are open, and those that were open
when the choice stack had a height. -/
structure Trace where
  /-- The guards, the innermost first. -/
  path : List Guard
  /-- The guards for a height. -/
  memory : Nat → List Guard

/-- New choice points belong to the open guards. -/
def Trace.Covers (τ : Trace) (s : Workspace) : Prop :=
  ∀ i, s.points.length ≤ i → τ.memory i = τ.path

/-- The handlers are in force at the offset, and balls thrown there are brought to the first one. -/
structure Chunk.Faces (c : Chunk) (handlers : List Chunk.Handler) (pc : Nat) : Prop where
  /-- The first one is the innermost one. -/
  handler : c.handlerFor? pc = handlers.head?
  /-- All are in force. -/
  covers : ∀ k ∈ handlers, k.covers pc

namespace Activation

/-- The activation runs for the call, with calls nested so deep. -/
structure Runs (B : Call) (d : Nat) (m : Machine) : Prop where
  /-- The code. -/
  code : m.activation.code = B.code
  /-- The arguments. -/
  args : m.activation.args = B.args
  /-- Where it began. -/
  entry : m.activation.entry = B.bottom
  /-- The depth. -/
  depth : m.workspace.engine.depth = d
  /-- The code is typed. -/
  callee : (Callee.code B.code).Fits B.origin.database B.args

/-- The activation carries out the instruction at `pc`, or is about to go on at `next`, in a frame. -/
structure Live (B : Call) (d : Nat) (τ : Trace) (pc next : Nat) (Γ : Frame) (bs : List Block)
    (m : Machine) : Prop extends Runs B d m where
  /-- The current instruction. -/
  current : m.activation.current = pc
  /-- The next instruction. -/
  next : m.activation.next = next
  /-- The operands fit the symbols. -/
  operands : ∀ t ∈ m.activation.operands, t.Fits m.workspace.symbols
  /-- There are as many as the frame says. -/
  height : Γ.height ≤ m.activation.operands.size
  /-- The slots and the choice stack. -/
  frame : B.Matches m.activation.slots Γ τ.path bs m.workspace
  /-- The blocks. -/
  chain : Chain B m.activation.slots τ.memory Γ.keeps bs

/-- The activation can go back to the newest choice point. -/
def Backs (B : Call) (d : Nat) (τ : Trace) (m : Machine) : Prop :=
  Runs B d m ∧ ∃ keeps bs, Chain B m.activation.slots τ.memory keeps bs ∧ B.Tops bs m.workspace

/-- How the activation goes on. -/
def Goes (B : Call) (d : Nat) (τ : Trace) (c : Course) (m : Machine) : Prop :=
  match c with
  | .forward => ∃ pc next Γ bs, Live B d τ pc next Γ bs m ∧ B.Typed Γ next
  | .backward => Backs B d τ m
  | .answer a => (Callee.code B.code).Answered B.args B.origin d a m.workspace ∧
    (a = .more → B.Exited τ.memory m.workspace)

/-- Balls thrown by the current instruction can be brought to the innermost handler, and thrown on if
there is none. -/
structure Guarded (B : Call) (d : Nat) (τ : Trace) (m : Machine) : Prop extends Runs B d m where
  /-- What was bound since the call is on the trail. -/
  later : B.origin.Later m.workspace
  /-- The entry of the activation is on the choice stack. -/
  points : B.origin.points ++ [B.entry] <+: m.workspace.points
  /-- The guards are in force at the instruction. -/
  covers : ∀ g ∈ τ.path, g.handler.covers m.activation.current
  /-- The frame of the instruction, and a workspace in which the activation was in it. -/
  frame : match B.code.chunk.handlerFor? m.activation.current with
    | none => τ.path = []
    | some k => ∃ Γ bs t, B.Matches m.activation.slots Γ τ.path bs t ∧
        Chain B m.activation.slots τ.memory Γ.keeps bs ∧ t.Later m.workspace ∧
        t.points <+: m.workspace.points ∧ Γ.handlers.head? = some k

/-- How an activation is interrupted. -/
def Breaks (B : Call) (d : Nat) (τ : Trace) (i : Interrupt) (m : Machine) : Prop :=
  match i with
  | .fault f => f = .stackOverflow ∧ Guarded B d τ m
  | .stop (.thrown x) => x.Sealed m.workspace.database.terms ∧ Guarded B d τ m
  | .stop s => B.origin.Stopped d True s m.workspace

variable {B : Call} {d : Nat} {τ : Trace} {pc next : Nat} {Γ : Frame} {bs : List Block} {m : Machine}

namespace Runs

/-- The workspace may be another one. -/
theorem move {s : Workspace} (h : Runs B d m) (hd : s.engine.depth = m.workspace.engine.depth) :
    Runs B d { m with workspace := s } :=
  ⟨h.code, h.args, h.entry, hd.trans h.depth, h.callee⟩

end Runs

/-- The activation is interrupted after it has been in a frame. -/
theorem Guarded.of_matches {s : Workspace} (hr : Runs B d m)
    (hchain : Chain B m.activation.slots τ.memory Γ.keeps bs)
    (hm : B.Matches m.activation.slots Γ τ.path bs s) (hl : s.Later m.workspace)
    (hp : s.points <+: m.workspace.points)
    (hpc : B.code.chunk.Faces Γ.handlers m.activation.current) : Guarded B d τ m := by
  obtain ⟨horigin, hpoints⟩ := hchain.reaches hm.tops
  refine ⟨hr, horigin.trans hl, hpoints.trans hp, fun g hg => hpc.covers g.handler ?_, ?_⟩
  · rw [Frame.handlers, ← hm.marks.handlers]
    exact List.mem_map_of_mem hg
  rw [hpc.handler]
  split
  · rename_i hnone
    have hmap := hm.marks.handlers
    rw [← Frame.handlers, List.head?_eq_none_iff.mp hnone] at hmap
    exact List.map_eq_nil_iff.mp hmap
  · rename_i k hk
    exact ⟨Γ, bs, s, hm, hchain, hl, hp, hk⟩

/-- No cleanup point lies on top of the choice points of an activation. -/
theorem topped_of_chain {s : Workspace} {slots : Array Slot} {memory : Nat → List Guard}
    {keeps : Nat → Prop} (h : Chain B slots memory keeps bs) (ht : B.Tops bs s) : s.Topped := by
  cases h with
  | nil => exact Workspace.topped_concat ht.2 rfl
  | alternative => exact Workspace.topped_concat ht.2 rfl
  | retry => exact Workspace.topped_concat ht.2 rfl

/-- What a callee is stopped by interrupts the instruction. -/
theorem Breaks.of_stopped {s t : Workspace} {e : Stop} (hr : Runs B d m)
    (hchain : Chain B m.activation.slots τ.memory Γ.keeps bs)
    (hm : B.Matches m.activation.slots Γ τ.path bs s)
    (hpc : B.code.chunk.Faces Γ.handlers m.activation.current)
    {entered : Prop} (hs : s.Stopped m.workspace.engine.depth entered e t) :
    Breaks B d τ (.stop e) { m with workspace := t } := by
  cases e with
  | thrown x =>
    obtain ⟨hd, hl, hp, hx, -⟩ := hs
    exact ⟨hx, .of_matches (hr.move hd) hchain hm hl hp hpc⟩
  | halted n =>
    obtain ⟨hd, hl, hp, htop⟩ := hs
    obtain ⟨horigin, hpoints⟩ := hchain.reaches hm.tops
    have htopped := topped_of_chain hchain hm.tops
    refine ⟨hd.trans hr.depth, horigin.trans hl, (List.prefix_append _ _).trans (hpoints.trans hp),
      fun _ => .inl ?_⟩
    exact (htop (.inr htopped)).elim id fun h => htopped.of_points h.2
  | spent => exact ((hchain.reaches hm.tops).1.tells).trans hs

namespace Live

theorem ready (h : Live B d τ pc next Γ bs m) : m.workspace.Ready :=
  h.frame.tops.ready

/-- What was bound since the call is on the trail. -/
theorem origin (h : Live B d τ pc next Γ bs m) : B.origin.Later m.workspace :=
  (h.chain.reaches h.frame.tops).1

/-- The workspace may get later when the choice points stay. -/
theorem later {s : Workspace} (h : Live B d τ pc next Γ bs m) (hl : m.workspace.Later s)
    (hp : s.points = m.workspace.points) (hd : s.engine.depth = m.workspace.engine.depth) :
    Live B d τ pc next Γ bs { m with workspace := s } :=
  ⟨h.toRuns.move hd, h.current, h.next, fun t ht => (h.operands t ht).mono hl.symbols, h.height,
    ⟨h.frame.tops.later hl hp, h.frame.marks.same hl hp, fun i hi => (h.frame.terms i hi).later hl,
      h.frame.size⟩, h.chain⟩

theorem stays {s : Workspace} (h : Live B d τ pc next Γ bs m) (hs : m.workspace.Stays s) :
    Live B d τ pc next Γ bs { m with workspace := s } :=
  h.later hs.1.toOwes hs.1.points hs.2

theorem weaken {Γ' : Frame} (h : Live B d τ pc next Γ bs m) (hw : Γ.Weakens Γ') :
    Live B d τ pc next Γ' bs m :=
  { h with
    height := Nat.le_trans hw.height h.height
    frame := h.frame.weaken hw
    chain := h.chain.widen hw.keeps }

/-- The operands may be fewer than the frame says, and others. -/
theorem operate {ts : Array Term} {n : Nat} (h : Live B d τ pc next Γ bs m)
    (hts : ∀ t ∈ ts, t.Fits m.workspace.symbols) (hn : n ≤ ts.size) :
    Live B d τ pc next { Γ with height := n } bs
      { m with activation := { m.activation with operands := ts } } :=
  ⟨⟨h.code, h.args, h.entry, h.depth, h.callee⟩, h.current, h.next, hts, hn,
    ⟨h.frame.tops, h.frame.marks, h.frame.terms, h.frame.size⟩, h.chain⟩

theorem backs (h : Live B d τ pc next Γ bs m) : Backs B d τ m :=
  ⟨h.toRuns, Γ.keeps, bs, h.chain, h.frame.tops⟩

/-- What the instruction is interrupted in, after a step that has left the choice points below. -/
theorem guarded {s : Workspace} (h : Live B d τ pc next Γ bs m)
    (hpc : B.code.chunk.Faces Γ.handlers pc) (hl : m.workspace.Later s)
    (hp : m.workspace.points <+: s.points) (hd : s.engine.depth = m.workspace.engine.depth) :
    Guarded B d τ { m with workspace := s } :=
  .of_matches (h.toRuns.move hd) h.chain h.frame hl hp (h.current ▸ hpc)

theorem guarded_stays {s : Workspace} (h : Live B d τ pc next Γ bs m)
    (hpc : B.code.chunk.Faces Γ.handlers pc) (hs : m.workspace.Stays s) :
    Guarded B d τ { m with workspace := s } :=
  h.guarded hpc hs.1.toOwes (hs.1.points ▸ List.prefix_refl _) hs.2

theorem breaks_fault (h : Live B d τ pc next Γ bs m)
    (hpc : B.code.chunk.Faces Γ.handlers pc) :
    Breaks B d τ (.fault .stackOverflow) { m with workspace := m.workspace.note (.of .limited) } :=
  ⟨rfl, h.guarded_stays hpc (h.ready.stays_told trivial rfl rfl)⟩

theorem breaks_raised {e : Stop} {s : Workspace} (h : Live B d τ pc next Γ bs m)
    (hpc : B.code.chunk.Faces Γ.handlers pc) (hr : m.workspace.Raised e s) :
    Breaks B d τ (.stop e) { m with workspace := s } := by
  obtain ⟨x, rfl, hx, hs⟩ := hr
  exact ⟨hx, h.guarded_stays hpc hs⟩

theorem breaks_halted (h : Live B d τ pc next Γ bs m) (n : Int) :
    Breaks B d τ (.stop (.halted n)) m :=
  ⟨h.depth, h.origin, (List.prefix_append _ _).trans (h.chain.reaches h.frame.tops).2,
    fun _ => .inl (topped_of_chain h.chain h.frame.tops)⟩

theorem breaks_stopped {e : Stop} {s : Workspace} (h : Live B d τ pc next Γ bs m)
    (hpc : B.code.chunk.Faces Γ.handlers pc)
    {entered : Prop} (hs : m.workspace.Stopped m.workspace.engine.depth entered e s) :
    Breaks B d τ (.stop e) { m with workspace := s } :=
  .of_stopped h.toRuns h.chain h.frame (h.current ▸ hpc) hs

end Live

end Activation

end Resolvent
