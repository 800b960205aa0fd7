import Resolvent.Proofs.Tracing

/-!
# Engines that share a database

`Moves` are the steps in which an engine carries out activations, one in the other. A `World` is a
database with any number of engines, whose moves alternate with each other and with changes of the
database in any way. Every call finds what is in force when it is made, and every redo goes to a callee
that was found in this way (`World.Reached.in_force`).

A move leads the database on in the way that the engine's chronicle tells of (`Moves.traces`), so what
one step preserves is that the memories of the database are right and the engines honest
(`World.Sound.move`).
-/

namespace Resolvent

open Chronicle (lookups Orderly)
open Workspace (Traces)

/-! ### Engines over one database -/

/-- A handler belongs to the code that is run. -/
theorem Activation.code_settle (ctx : Context) (i : Interrupt) (a : Activation) (s : Workspace) :
    Yields (settle ctx i a) s (fun a' _ => a'.code = a.code) fun _ _ => True := by
  have hany {α : Type} {x : EngineM α} {s : Workspace} {Q : α → Workspace → Prop}
      (h : ∀ r t, Q r t) : Yields x s Q fun _ _ => True := by
    unfold Yields
    split
    · exact h _ _
    · trivial
  have hball (e : Exception) (s : Workspace) :
      Yields (handle ctx e a) s (fun a' _ => a'.code = a.code) fun _ _ => True := by
    rw [handle]
    split
    · rw [yields_bind]
      refine hany fun _ _ => ?_
      rw [yields_bind]
      refine hany fun _ _ => ?_
      rw [yields_bind]
      exact hany fun _ _ => rfl
    · rw [yields_bind, yields_get, yields_bind]
      refine hany fun _ _ => ?_
      rw [yields_bind]
      refine hany fun _ _ => ?_
      split
      · rw [yields_bind]
        exact hany fun _ _ => trivial
      · trivial
  rcases i with (x | n) | f
  · exact hball x s
  · trivial
  · trivial
  · rw [settle, yields_bind]
    exact hany fun x t => hball x t

/-- What an engine may be asked to do as a whole. -/
inductive Operation where
  /-- A goal is prepared. -/
  | prepare (goal : Term)
  /-- The next solution of a goal is searched for. -/
  | execute (fuel : Nat) (g : PreparedGoal)
  /-- What is left of a search is dropped. -/
  | stop (fuel : Nat) (g : PreparedGoal)
  /-- The solutions of a goal are collected. -/
  | collect (fuel : Nat) (template goal : Term) (limit : Option Nat)
  /-- A goal is run once. -/
  | runOnce (fuel : Nat) (goal : Term)
  /-- A callee is called, or asked for another solution. -/
  | invoke (fuel : Nat) (callee : Callee) (args : Array Term) (redo : Bool)
  /-- Cleanup goals are run. -/
  | runCleanups (fuel : Nat) (goals : List Term)

/-- The operation is carried out. -/
def Operation.run (host : Host) : Operation → EngineM Unit
  | prepare goal => discard (Engine.prepare goal)
  | execute n g => discard (Engine.execute (Solver.context host n) g)
  | stop n g => Engine.stop (Solver.context host n) g
  | collect n template goal limit => discard (Engine.collect (Solver.context host n) template goal limit)
  | runOnce n goal => discard (Engine.runOnce (Solver.context host n) goal)
  | invoke n callee args redo => discard ((Solver.context host n).invoke callee args redo)
  | runCleanups n goals => (Solver.context host n).runCleanups goals

/-- How far an activation has come. -/
inductive Stage where
  /-- It goes on. -/
  | goes (c : Course)
  /-- It waits for the answer of a callee, to go on at `resume` then. -/
  | waits (callee : Callee) (args : Array Term) (resume callAt : Nat)
  /-- It has been interrupted. -/
  | breaks (i : Interrupt)

/-- An activation that an engine carries out step by step. -/
structure Run where
  /-- The code that has been called. -/
  code : Code
  /-- How far it has come. -/
  stage : Stage
  /-- The activation. -/
  activation : Activation

/-- The code and the arguments are those that the innermost activation waits for, if it waits for the
answer of code. -/
def Awaited (code : Code) (args : Array Term) (runs : List Run) : Prop :=
  ∀ r ∈ runs.head?, ∀ c as resume callAt, r.stage = .waits (.code c) as resume callAt →
    code = c ∧ args = as

open Engine Activation in
/-- One step of an engine that carries out activations, the innermost first. Anything may be done as a
whole, and the calls that are active are counted. An activation is begun or taken up again for the
innermost one that waits, or for a goal; it is led on by an instruction or a step back, and waits for
callees, which may answer in any way. -/
inductive Moves (host : Host) (s : Workspace) : List Run → Workspace → List Run → Prop where
  | whole {runs : List Run} {t : Workspace} (x : Operation) (h : Ends (x.run host) s t) :
      Moves host s runs t runs
  | counted {runs : List Run} (n : Nat) : Moves host s runs (s.atDepth n) runs
  | start {runs : List Run} {t : Workspace} (code : Code) (args : Array Term)
      (hw : Awaited code args runs) (h : pushChoice (.entry code) s = .ok () t) :
      Moves host s runs t (⟨code, .goes .forward,
        ⟨code, args, 0, 0, #[], #[], t.engine.choices.size⟩⟩ :: runs)
  | resume {runs : List Run} {t : Workspace} {m entry : Nat} {slots : Array Slot} (code : Code)
      (args : Array Term) (hw : Awaited code args runs)
      (htop : s.engine.choices.top? = some ⟨m, .exit slots entry⟩)
      (h : (do pop; undoTo m : EngineM Unit) s = .ok () t) :
      Moves host s runs t (⟨code, .goes .backward,
        ⟨code, args, 0, 0, #[], slots, entry⟩⟩ :: runs)
  | step {r : Run} {runs : List Run} {c c' : Course} {m : Machine} (n : Nat) (hr : r.stage = .goes c)
      (h : step (Solver.context host n) c ⟨s.pass, r.activation⟩ = .ok c' m) :
      Moves host s (r :: runs) m.workspace (⟨r.code, .goes c', m.activation⟩ :: runs)
  | broken {r : Run} {runs : List Run} {c : Course} {i : Interrupt} {m : Machine} (n : Nat)
      (hr : r.stage = .goes c)
      (h : step (Solver.context host n) c ⟨s.pass, r.activation⟩ = .error i m) :
      Moves host s (r :: runs) m.workspace (⟨r.code, .breaks i, m.activation⟩ :: runs)
  | call {r : Run} {runs : List Run} {n : UInt16} {behind : Nat} {m : Machine} {callee : Callee}
      {args : Array Term} (hr : r.stage = .goes .forward)
      (hfetch : r.code.chunk.fetch r.activation.next = .ok (.call n, behind))
      (h : find n ⟨s.pass, { r.activation with current := r.activation.next, next := behind }⟩ =
        .ok (some (callee, args)) m) :
      Moves host s (r :: runs) (m.workspace.note (.of (.invoked callee args false)))
        (⟨r.code, .waits callee args m.activation.next m.activation.current, m.activation⟩ :: runs)
  | redo {r : Run} {runs : List Run} {t : Workspace} {m resume callAt : Nat} {callee : Callee}
      {args : Array Term} (hr : r.stage = .goes .backward)
      (htop : s.engine.choices.top? = some ⟨m, .retry callee args resume callAt⟩)
      (h : (do pop; undoTo m : EngineM Unit) s.pass = .ok () t) :
      Moves host s (r :: runs) (t.note (.of (.invoked callee args true)))
        (⟨r.code, .waits callee args resume callAt,
          { r.activation with operands := #[], next := resume, current := callAt }⟩ :: runs)
  | answered {r : Run} {runs : List Run} {callee : Callee} {args : Array Term} {resume callAt : Nat}
      {a : Answer} {c : Course} {m : Machine} (hr : r.stage = .waits callee args resume callAt)
      (h : proceed callee args resume callAt a ⟨s, r.activation⟩ = .ok c m) :
      Moves host s (r :: runs) m.workspace (⟨r.code, .goes c, m.activation⟩ :: runs)
  | refused {r : Run} {runs : List Run} {callee : Callee} {args : Array Term} {resume callAt : Nat}
      {a : Answer} {i : Interrupt} {m : Machine} (hr : r.stage = .waits callee args resume callAt)
      (h : proceed callee args resume callAt a ⟨s, r.activation⟩ = .error i m) :
      Moves host s (r :: runs) m.workspace (⟨r.code, .breaks i, m.activation⟩ :: runs)
  | stopped {r : Run} {runs : List Run} {callee : Callee} {args : Array Term} {resume callAt : Nat}
      (i : Interrupt) (hr : r.stage = .waits callee args resume callAt) :
      Moves host s (r :: runs) s (⟨r.code, .breaks i, r.activation⟩ :: runs)
  | caught {r : Run} {runs : List Run} {i : Interrupt} {a : Activation} {t : Workspace} (n : Nat)
      (hr : r.stage = .breaks i) (h : settle (Solver.context host n) i r.activation s = .ok a t) :
      Moves host s (r :: runs) t (⟨r.code, .goes .forward, a⟩ :: runs)
  | uncaught {r : Run} {runs : List Run} {i : Interrupt} {e : Stop} {t : Workspace} (n : Nat)
      (hr : r.stage = .breaks i) (h : settle (Solver.context host n) i r.activation s = .error e t) :
      Moves host s (r :: runs) t runs
  | ended {r : Run} {runs : List Run} {a : Answer} (hr : r.stage = .goes (.answer a)) :
      Moves host s (r :: runs) s runs

/-- The activations run the code that was called, the code of the callee that the next one waits
for; this callee has been called. -/
inductive Nested (l : Chronicle) : List Run → Prop where
  | nil : Nested l []
  | cons {r : Run} {runs : List Run} (code : r.activation.code = r.code)
      (called : ∀ callee args resume callAt, r.stage = .waits callee args resume callAt →
        .invoked callee args false ∈ l)
      (awaited : ∃ args, Awaited r.code args runs) (h : Nested l runs) : Nested l (r :: runs)

/-- Whatever an engine is asked for has an effect that all its steps have. -/
theorem Effect.Uniform.operation {F : Effect} (hF : F.Uniform)
    (hretries : ∀ ctx, F.Calls ctx → F.Retries ctx) {host : Host} (hhost : F.IsOf host) (x : Operation) :
    F.Allows (x.run host) := by
  have hlawful := hF.toLawful
  have hctx (n : Nat) := hF.context hretries hhost n
  cases x with
  | prepare goal => exact (hF.prepare goal).map hlawful _
  | execute n g => exact (hF.execute (hctx n) g).map hlawful _
  | stop n g => exact hF.stop (hctx n) g
  | collect n template goal limit => exact (hF.collect (hctx n) template goal limit).map hlawful _
  | runOnce n goal => exact (hF.runOnce (hctx n) goal).map hlawful _
  | invoke n callee args redo => exact ((hctx n).invoke callee args redo).map hlawful _
  | runCleanups n goals => exact (hctx n).runCleanups goals

/-- An operation leads the database on in the way that the chronicle tells of. -/
theorem Operation.traces_run {host : Host} (hhost : host.Tracing) (x : Operation) :
    Keeps Traces (x.run host) :=
  Effect.uniform_tracing.operation (fun _ hctx => Effect.retries_tracing hctx) hhost x

namespace Nested

variable {l l' : Chronicle} {r : Run} {runs : List Run}

/-- What has happened has happened for ever. -/
theorem mono (h : Nested l runs) (hl : l ⊆ l') : Nested l' runs := by
  induction h with
  | nil => exact .nil
  | cons code called awaited _ ih =>
    exact .cons code (fun callee args r c hr => hl (called callee args r c hr)) awaited ih

theorem tail (h : Nested l (r :: runs)) : Nested l runs := by
  cases h with
  | cons _ _ _ h => exact h

theorem code (h : Nested l (r :: runs)) : r.activation.code = r.code := by
  cases h with
  | cons code _ _ _ => exact code

theorem called (h : Nested l (r :: runs)) {callee : Callee} {args : Array Term} {resume callAt : Nat}
    (hr : r.stage = .waits callee args resume callAt) : .invoked callee args false ∈ l := by
  cases h with
  | cons _ called _ _ => exact called callee args resume callAt hr

/-- The innermost activation comes to another stage. -/
theorem goOn (h : Nested l (r :: runs)) {stage : Stage} {a : Activation} (hl : l ⊆ l')
    (hcode : a.code = r.activation.code)
    (hcalled : ∀ callee args resume callAt, stage = .waits callee args resume callAt →
      .invoked callee args false ∈ l') : Nested l' (⟨r.code, stage, a⟩ :: runs) := by
  cases h with
  | cons code _ awaited h => exact .cons (hcode.trans code) hcalled awaited (h.mono hl)

end Nested

/-- A step of an engine leads the database on in the way that the chronicle tells of, and every
activation keeps the code that it was called with. -/
theorem Moves.traces {host : Host} (hhost : host.Tracing) {s t : Workspace} {runs runs' : List Run}
    (h : Moves host s runs t runs') (hs : s.engine.Honest) (hruns : Nested s.chronicle runs) :
    s.Traces t ∧ Nested t.chronicle runs' := by
  have hF := Effect.lawful_tracing
  have hctx (n : Nat) := Solver.tracing_context hhost n
  have hpass : s.Traces s.pass := hF.pass s
  have hstep (n : Nat) (c : Course) (a : Activation) :=
    hF.step (hctx n) (Effect.retries_tracing (hctx n)) c ⟨s.pass, a⟩
  -- the chronicle only grows
  have hmem {t : Workspace} (ht : s.Traces t) : s.chronicle ⊆ t.chronicle := fun _ => ht.mem
  have hpopped {s t : Workspace} {m : Nat}
      (h : (do Engine.pop; Engine.undoTo m : EngineM Unit) s = .ok () t) : s.Traces t :=
    (yields_ok ((Engine.traces_pop.bind fun _ => Engine.traces_onBindings _) s) h :)
  cases h with
  | whole x h =>
    have ht := (x.traces_run hhost).ends h
    exact ⟨ht, hruns.mono (hmem ht)⟩
  | counted n =>
    have ht : s.Traces (s.atDepth n) := (Traces.refl _).atDepth
    exact ⟨ht, hruns.mono (hmem ht)⟩
  | start code args hw h =>
    have ht : s.Traces t := (yields_ok (hF.pushChoice id s) h :)
    refine ⟨ht, .cons rfl (fun _ _ _ _ hr => ?_) ⟨args, hw⟩ (hruns.mono (hmem ht))⟩
    cases hr
  | resume code args hw _ h =>
    have ht := hpopped h
    refine ⟨ht, .cons rfl (fun _ _ _ _ hr => ?_) ⟨args, hw⟩ (hruns.mono (hmem ht))⟩
    cases hr
  | step n hr h =>
    obtain ⟨hcode, ht⟩ := yields_ok (hstep n _ _) h
    have ht := hpass.trans ht
    exact ⟨ht, hruns.goOn (hmem ht) hcode fun _ _ _ _ hr => by cases hr⟩
  | broken n hr h =>
    obtain ⟨hcode, ht⟩ := yields_error (hstep n _ _) h
    have ht := hpass.trans (Effect.interrupts_tracing.mp ht)
    exact ⟨ht, hruns.goOn (hmem ht) hcode fun _ _ _ _ hr => by cases hr⟩
  | @call r runs n behind m callee args hr hfetch h =>
    obtain ⟨hcode, ht, hmay⟩ := yields_ok (Effect.tracing_find n _) h
    have ht := (hpass.trans ht).note (e := .of (.invoked callee args false)) (by rw [Ghost.value_of]; rfl)
      fun _ => by rw [Ghost.value_of]; exact hmay callee args rfl _
    refine ⟨ht, hruns.goOn (hmem ht) hcode fun _ _ _ _ hr => ?_⟩
    cases hr
    rw [Workspace.chronicle_note, Ghost.value_of]
    exact List.mem_cons_self ..
  | @redo r runs t m resume callAt callee args hr htop h =>
    have hcalled : .invoked callee args false ∈ s.chronicle :=
      hs.points _ (.inl (Array.mem_of_back? htop)) callee args resume callAt rfl
    have ht₁ := hpass.trans (hpopped h)
    have ht := ht₁.note (e := .of (.invoked callee args true)) (by rw [Ghost.value_of]; rfl)
      fun _ => by rw [Ghost.value_of]; exact ht₁.mem hcalled
    refine ⟨ht, hruns.goOn (hmem ht) rfl fun _ _ _ _ hr => ?_⟩
    cases hr
    exact ht.mem hcalled
  | answered hr h =>
    obtain ⟨hcode, ht⟩ := yields_ok (Activation.traces_proceed _ _ _ (m := ⟨s, _⟩) (.refl s)
      fun _ => hruns.called hr) h
    exact ⟨ht, hruns.goOn (hmem ht) hcode fun _ _ _ _ hr => by cases hr⟩
  | refused hr h =>
    obtain ⟨hcode, ht⟩ := yields_error (Activation.traces_proceed _ _ _ (m := ⟨s, _⟩) (.refl s)
      fun _ => hruns.called hr) h
    exact ⟨ht, hruns.goOn (hmem ht) hcode fun _ _ _ _ hr => by cases hr⟩
  | stopped i hr => exact ⟨.refl s, hruns.goOn (hmem (.refl s)) rfl fun _ _ _ _ hr => by cases hr⟩
  | @caught r runs i a t n hr h =>
    have ht := yields_ok (hF.settle (hctx n) r.activation (Effect.interrupts_tracing.mpr (.refl s))) h
    have hcode := yields_ok (Activation.code_settle _ i r.activation s) h
    exact ⟨ht, hruns.goOn (hmem ht) hcode fun _ _ _ _ hr => by cases hr⟩
  | @uncaught r runs i e t n hr h =>
    have ht : s.Traces t :=
      (yields_error (hF.settle (hctx n) r.activation (Effect.interrupts_tracing.mpr (.refl s))) h :)
    exact ⟨ht, hruns.tail.mono (hmem ht)⟩
  | ended hr => exact ⟨.refl s, hruns.tail⟩

/-- Engines over one database. -/
structure World (ι : Type) where
  /-- The database. -/
  database : Database
  /-- The engines. -/
  engines : ι → Engine
  /-- The activations that each engine carries out, the innermost first. -/
  runs : ι → List Run

namespace World

variable {ι : Type}

/-- The database and one of the engines. -/
def workspace (w : World ι) (i : ι) : Workspace :=
  ⟨w.database, w.engines i⟩

/-- Engines with these limits over a database in which only the predicates are given that every
database has. -/
def fresh (configs : ι → Config) : World ι :=
  ⟨.initial, fun i => .ofConfig (configs i), fun _ => []⟩

/-- The engines have called what was in force. -/
structure InForce (configs : ι → Config) (w : World ι) (L : List Lookup) : Prop where
  /-- Every lookup has found what was in force when it was made. -/
  right : ∀ L₂ x L₁, L = L₂ ++ x :: L₁ → x.Right L₁
  /-- A callee is called when a lookup has just found it, and asked for more when it was called. -/
  orderly : ∀ i, Orderly (configs i) (w.workspace i).chronicle
  /-- These are all lookups. -/
  looked : ∀ i x, .looked x ∈ (w.workspace i).chronicle → x ∈ L
  /-- An activation runs the code that it was called with, all the time. -/
  runs : ∀ i, Nested (w.workspace i).chronicle (w.runs i)

/-- What carries the induction: the memories are right, and the engines are honest. -/
structure Sound (configs : ι → Config) (w : World ι) (L : List Lookup) : Prop
    extends InForce configs w L where
  /-- What is remembered is in force. -/
  coherent : w.database.Coherent L
  /-- The engines have the limits that they were given. -/
  config : ∀ i, (w.engines i).config = configs i
  /-- The engines are honest. -/
  honest : ∀ i, (w.engines i).Honest

variable {configs : ι → Config} {w : World ι} {L : List Lookup}

theorem chronicle_fresh (i : ι) : ((fresh configs).workspace i).chronicle = [] := by
  unfold Workspace.chronicle workspace fresh Engine.ofConfig
  exact Ghost.value_of _

theorem sound_fresh : Sound configs (fresh configs) [] := by
  have horderly (i : ι) : Orderly (configs i) ((fresh configs).workspace i).chronicle :=
    chronicle_fresh i ▸ .nil
  have hcoherent : (fresh configs).database.Coherent [] := by
    dsimp only [fresh]
    exact Database.coherent_initial
  refine ⟨⟨fun L₂ x L₁ h => by simp at h, horderly, fun i x hx => ?_, fun _ => .nil⟩,
    hcoherent, fun _ => rfl, fun i => ⟨horderly i, fun p hp => ?_⟩⟩
  · rw [chronicle_fresh] at hx
    cases hx
  · obtain hp | ⟨r, hr, -⟩ := hp
    · cases hp with | mk hp => cases hp
    · cases hr

/-- The database has been led on without lookups. -/
theorem Sound.evolves (h : Sound configs w L) {d : Database} (hd : w.database.Evolves d) :
    Sound configs { w with database := d } L :=
  ⟨⟨h.right, h.orderly, h.looked, h.runs⟩, hd.coherent h.coherent, h.config, h.honest⟩

/-! ### Steps in any order -/

variable [DecidableEq ι] {host : Host}

/-- One of the engines has made a step. -/
def move (w : World ι) (i : ι) (t : Workspace) (runs : List Run) : World ι :=
  ⟨t.database, Function.update w.engines i t.engine, Function.update w.runs i runs⟩

/-- One of the engines makes a step. -/
theorem Sound.move (h : Sound configs w L) (hhost : host.Tracing) {i : ι} {t : Workspace}
    {runs : List Run} {l : Chronicle} (hm : Moves host (w.workspace i) (w.runs i) t runs)
    (hl : t.chronicle = l ++ (w.workspace i).chronicle)
    (hsteady : Database.Steady ((lookups l ++ L).map Lookup.database)) :
    Sound configs (w.move i t runs) (lookups l ++ L) := by
  obtain ⟨ht, hruns⟩ := hm.traces hhost (h.honest i) (h.runs i)
  obtain ⟨l', hl', hserves⟩ := ht.told
  obtain rfl := List.append_cancel_right (hl.symm.trans hl')
  obtain ⟨hright, hcoherent⟩ := hserves.coherent h.coherent hsteady
  have hhonest := ht.honest (h.honest i)
  have hconfig : t.engine.config = configs i := ht.config.trans (h.config i)
  -- what is said of the engine that has moved, and of the others
  have hsplit {P : (j : ι) → Engine → List Run → Prop} (hi : P i t.engine runs)
      (hj : ∀ j, P j (w.engines j) (w.runs j)) (j : ι) :
      P j ((w.move i t runs).engines j) ((w.move i t runs).runs j) := by
    by_cases hij : j = i
    · subst hij
      simpa [World.move] using hi
    · simpa [World.move, hij] using hj j
  refine ⟨⟨fun L₂ x L₁ heq => ?_, ?_, ?_, ?_⟩, hcoherent, ?_, ?_⟩
  · -- the lookup is one of this step or an earlier one
    obtain ⟨M, -, hM⟩ | ⟨M, hM, heq⟩ := List.append_eq_append_iff.mp heq
    · exact h.right M x L₁ hM
    · obtain _ | ⟨x', M⟩ := M
      · exact h.right [] x L₁ heq.symm
      · simp only [List.cons_append, List.cons.injEq] at heq
        obtain ⟨rfl, rfl⟩ := heq
        exact hright L₂ x M hM
  · exact hsplit (P := fun j e _ => Orderly (configs j) e.chronicle.value)
      (hconfig ▸ hhonest.orderly) h.orderly
  · refine hsplit (P := fun _ e _ => ∀ x, .looked x ∈ e.chronicle.value → x ∈ _)
      (fun x hx => ?_) fun j x hx => List.mem_append_right _ (h.looked j x hx)
    rw [show t.engine.chronicle.value = l ++ (w.workspace i).chronicle from hl] at hx
    obtain hx | hx := List.mem_append.mp hx
    · exact List.mem_append_left _ (List.mem_filterMap.mpr ⟨_, hx, rfl⟩)
    · exact List.mem_append_right _ (h.looked i x hx)
  · exact hsplit (P := fun _ e r => Nested e.chronicle.value r) hruns h.runs
  · exact hsplit (P := fun j e _ => e.config = configs j) hconfig h.config
  · exact hsplit (P := fun _ e _ => e.Honest) hhonest h.honest

/-- What engines with these limits can come to over one database, with the lookups that have been made,
the latest first. Any engine makes a step, or the database is changed, or terms are built and
variables bound or unbound; and so on, in any order. -/
inductive Reached (host : Host) (configs : ι → Config) : World ι → List Lookup → Prop where
  | fresh : Reached host configs (fresh configs) []
  | moved {w : World ι} {L : List Lookup} {i : ι} {t : Workspace} {runs : List Run} {l : Chronicle}
      (h : Reached host configs w L) (hm : Moves host (w.workspace i) (w.runs i) t runs)
      (hl : t.chronicle = l ++ (w.workspace i).chronicle) :
      Reached host configs (w.move i t runs) (lookups l ++ L)
  | changed {w : World ι} {L : List Lookup} {d : Database} (h : Reached host configs w L)
      (m : Database.Mutation) (hm : Ends m.run w.database d) :
      Reached host configs { w with database := d } L
  | bound {w : World ι} {L : List Lookup} {u : Universe} (h : Reached host configs w L)
      (hu : w.database.terms.symbols.Extends u.symbols) :
      Reached host configs { w with database := { w.database with terms := u } } L

/-- Whatever engines do over one database, and however their steps alternate with each other and with
changes of the database: a call finds what is in force at that moment, and code that has been called
is kept for all that is left of the activation and for every redo. -/
theorem Reached.in_force (hhost : host.Tracing) (h : Reached host configs w L)
    (hsteady : Database.Steady (L.map Lookup.database)) : InForce configs w L := by
  refine Sound.toInForce ?_
  induction h with
  | fresh => exact sound_fresh
  | moved _ hm hl ih =>
    exact (ih (hsteady.mono (List.map_subset _ (List.subset_append_right _ _)))).move hhost hm hl hsteady
  | changed _ m hm ih => exact (ih hsteady).evolves ((Database.evolves_mutation m).ends hm)
  | bound _ hu ih => exact (ih hsteady).evolves (.terms hu)

/-- Code that calls a predicate. -/
def callingCode (tag : Tag) : Code :=
  ⟨⟨"", 0, 0, #[0x60, 0, 0], #[tag], #[], #[]⟩, 0⟩

theorem fetch_callingCode : (callingCode ⟨28⟩).chunk.fetch 0 = .ok (.call 0, 3) := by
  decide +kernel

/-- A clause is added to `$query`, and it is called. -/
theorem call_added_runs : ∃ d s m callee args,
    Database.addClause (.atom .query) .initial = .ok () d ∧
    Engine.pushChoice (.entry (callingCode ⟨28⟩)) ⟨d, .ofConfig .standard⟩ = .ok () s ∧
    Activation.find 0 ⟨s.pass, ⟨callingCode ⟨28⟩, #[], 3, 0, #[], #[], s.engine.choices.size⟩⟩ =
      .ok (some (callee, args)) m := by
  have hrun : ((answer? (Database.addClause (.atom .query)) .initial).bind fun r =>
      (answer? (Engine.pushChoice (.entry (callingCode ⟨28⟩))) ⟨r.2, .ofConfig .standard⟩).bind fun r =>
        (answer? (Activation.find 0) ⟨r.2.pass,
          ⟨callingCode ⟨28⟩, #[], 3, 0, #[], #[], r.2.engine.choices.size⟩⟩).filter
            (·.1.isSome)).isSome = true := by
    decide +kernel
  obtain ⟨⟨o, m⟩, hrun⟩ := Option.isSome_iff_exists.mp hrun
  obtain ⟨⟨⟨⟩, d⟩, hadd, hrun⟩ := Option.bind_eq_some_iff.mp hrun
  obtain ⟨⟨⟨⟩, s⟩, hpush, hrun⟩ := Option.bind_eq_some_iff.mp hrun
  obtain ⟨hfind, hsome⟩ := Option.filter_eq_some_iff.mp hrun
  obtain ⟨⟨callee, args⟩, rfl⟩ := Option.isSome_iff_exists.mp hsome
  exact ⟨d, s, m, callee, args, answer?_eq_some.mp hadd, answer?_eq_some.mp hpush,
    answer?_eq_some.mp hfind⟩

/-- A call of the predicate `$query`, after a clause has been added to it. -/
theorem Reached.in_force_added :
    ∃ (w : World Unit) (x : Lookup) (callee : Callee) (args : Array Term),
      Reached .none (fun _ => .standard) w [x] ∧ x.found = .ok (some (callee, args)) ∧
      InForce (fun _ => .standard) w [x] := by
  obtain ⟨d, s, m, callee, args, hadd, hpush, hfind⟩ := call_added_runs
  -- what the steps tell of: the call makes the only lookup
  obtain ⟨x, hx, htold⟩ := yields_ok (Activation.tells_find 0 _) hfind
  have hpushed : s.chronicle = [] ++ Workspace.chronicle ⟨d, .ofConfig .standard⟩ :=
    (yields_ok (Engine.tells_pushChoice _ _) hpush :)
  have hnoted : (m.workspace.note (.of (.invoked callee args false))).chronicle =
      [.invoked callee args false, .looked x, .passed s.scene.value] ++ s.chronicle := by
    rw [Workspace.chronicle_note, Ghost.value_of, htold, Workspace.pass, Workspace.chronicle_note,
      Ghost.value_map]
    rfl
  have hadd : Ends (Database.Mutation.addClause (.atom .query)).run
      (World.fresh fun _ : Unit => .standard).database d := by
    dsimp only [World.fresh]
    exact .inl ⟨(), hadd⟩
  have hfresh : Reached .none _ (World.fresh fun _ : Unit => .standard) [] := .fresh
  have hadded := hfresh.changed (.addClause (.atom .query)) hadd
  have hstart : Moves .none ⟨d, .ofConfig .standard⟩ [] s _ :=
    .start (callingCode ⟨28⟩) #[] (fun _ hr => by cases hr) hpush
  have hcall : Moves .none s [⟨callingCode ⟨28⟩, .goes .forward,
      ⟨callingCode ⟨28⟩, #[], 0, 0, #[], #[], s.engine.choices.size⟩⟩] _ _ :=
    .call rfl fetch_callingCode hfind
  have h := (hadded.moved (i := ()) hstart hpushed).moved (i := ()) hcall hnoted
  refine ⟨_, x, callee, args, h, hx, h.in_force Host.tracing_none fun d hd d' hd' c _ _ => ?_⟩
  cases List.mem_singleton.mp hd
  cases List.mem_singleton.mp hd'
  rfl

end World

end Resolvent
