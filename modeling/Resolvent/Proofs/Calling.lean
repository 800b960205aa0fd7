import Resolvent.Proofs.Confining
import Resolvent.Proofs.Natives

/-!
# Calls with any fuel

Every call is counted while it is active, which changes the depth and nothing else. So a call of
typed code or of a predicate that every database has leaves the choice stack as it should when the
calls that it makes in turn do (`Solver.agree_call`, `Solver.agree_redo`), and by induction on the fuel
all calls do (`Solver.disciplined_contextWith`). Neither the host nor what faults are reported as
matters for this, except for the report of too many operands: two contexts that agree on that one make
the same calls.
-/

namespace Resolvent

namespace Workspace

/-- The workspace with another depth. -/
def atDepth (n : Nat) (s : Workspace) : Workspace :=
  { s with engine := { s.engine with depth := n } }

theorem Ready.same_atDepth {s : Workspace} (h : s.Ready) (n : Nat) : s.Same (s.atDepth n) :=
  ⟨⟨⟨⟨h.database, h.recording, h.active, h.cleanups, h.made⟩, .refl _, rfl, rfl, rfl, rfl,
    .refl h.recording⟩, .of_chronicle rfl _⟩, .refl h.recording, rfl⟩

theorem Stopped.of_same {ρ s t : Workspace} {d : Nat} {entered : Prop} {e : Stop}
    (h : s.Stopped d entered e t) (hρ : ρ.Same s) : ρ.Stopped d entered e t := by
  cases e with
  | thrown x =>
    obtain ⟨hd, hl, hp, hx, hs⟩ := h
    exact ⟨hd, hρ.toOwes.trans hl, hρ.points ▸ hp, hx, fun he => (hs he).imp_right hρ.trans⟩
  | halted n =>
    obtain ⟨hd, hl, hp, htop⟩ := h
    refine ⟨hd, hρ.toOwes.trans hl, hρ.points ▸ hp, fun he => ?_⟩
    exact (htop (he.imp_right (·.of_points hρ.points))).imp_right fun h => ⟨h.1, h.2.trans hρ.points⟩
  | spent => exact hρ.toOwes.tells.trans h

/-- A call that has been stopped is not counted any more. -/
theorem Stopped.leave {s t : Workspace} {d : Nat} {entered : Prop} {e : Stop}
    (h : s.Stopped (d + 1) entered e t) :
    s.Stopped d entered e (t.atDepth (t.engine.depth - 1)) := by
  cases e with
  | thrown x =>
    obtain ⟨hd, hl, hp, hx, hs⟩ := h
    have hsame := hl.ready.same_atDepth (t.engine.depth - 1)
    exact ⟨Nat.sub_eq_of_eq_add hd, hl.trans hsame.toOwes, hp, hx,
      fun he => (hs he).imp_right (·.trans hsame)⟩
  | halted n =>
    obtain ⟨hd, hl, hp, htop⟩ := h
    exact ⟨Nat.sub_eq_of_eq_add hd, hl.trans (hl.ready.same_atDepth _).toOwes, hp, htop⟩
  | spent => exact h

end Workspace

open Workspace

namespace Callee

variable {callee : Callee} {args : Array Term} {ρ s t : Workspace} {d d' : Nat} {a : Answer}

/-- A native predicate may have been called in a workspace like the one in which it began. -/
theorem Answered.of_same {n : Native} (h : (Callee.native n).Answered args s d a t)
    (hρ : ρ.Same s) : (Callee.native n).Answered args ρ d a t := by
  obtain ⟨hd, h⟩ := h
  refine ⟨hd, ?_⟩
  have hmark : s.mark = ρ.mark := hρ.moment.mark_eq
  cases a with
  | more =>
    cases h with
    | range free later points =>
      rw [hρ.points, hmark] at points
      exact .range ((hρ.moment.deref _).symm.trans free) (hρ.toOwes.trans later) points
    | goal later₁ same points₁ fits suspended later₂ points₂ =>
      rw [hρ.points, hmark] at points₁
      exact .goal (hρ.toOwes.trans later₁) (hρ.moment.trans same) points₁ fits suspended later₂
        points₂
  | last => exact ⟨hρ.toOwes.trans h.1, h.2.trans hρ.points⟩
  | fail => exact hρ.trans h

/-- A call that has answered is not counted any more. -/
theorem Answered.leave (h : callee.Answered args s (d + 1) a t) :
    callee.Answered args s d a (t.atDepth (t.engine.depth - 1)) := by
  have hready : t.Ready := h.later.ready
  have hsame := hready.same_atDepth (t.engine.depth - 1)
  refine ⟨Nat.sub_eq_of_eq_add h.1, ?_⟩
  cases a with
  | more => exact h.2.same hsame.toOwes rfl
  | last => exact ⟨h.2.1.trans hsame.toOwes, h.2.2⟩
  | fail => exact h.2.trans hsame

end Callee

namespace Solver

variable {host host' : Host} {ctx ctx' : Context} {callee : Callee} {args : Array Term}
  {s s₀ : Workspace}

theorem yields_checkDepth (hs : s.Ready) :
    Yields checkDepth s (fun _ s' => s' = s) s.Raised := by
  have hstack : Yields (if s.engine.config.maxStackBytes < s.engine.depth * bytesPerCall
      then Engine.exceed "stack" else pure () : EngineM Unit) s (fun _ s' => s' = s) s.Raised :=
    yields_ite.mpr ⟨fun _ => Engine.yields_exceed hs _ _, fun _ => rfl⟩
  rw [checkDepth, yields_bind, yields_get]
  dsimp only
  split
  · exact yields_bind.mpr (Engine.yields_exceed hs _ _)
  · exact hstack

/-- A call that is counted is made one level deeper. -/
theorem agree_nested {α : Type} {x y : EngineM α} {Q : α → Workspace → Prop}
    {E : Stop → Workspace → Prop} (h : Agree x y (s.atDepth (s.engine.depth + 1))
      (fun a t => Q a (t.atDepth (t.engine.depth - 1)))
      fun e t => E e (t.atDepth (t.engine.depth - 1))) :
    Agree (nested x) (nested y) s Q E := by
  obtain ⟨heq, hy⟩ := h
  unfold Workspace.atDepth at heq hy
  cases hx : x { s with engine := { s.engine with depth := s.engine.depth + 1 } } with
  | ok a t =>
    have ha := yields_ok hy hx
    rw [hx] at heq
    refine ⟨?_, ?_⟩
    · rw [nested, nested, hx, heq]
    · rw [Yields, nested, hx]
      exact ha
  | error e t =>
    have he := yields_error hy hx
    rw [hx] at heq
    refine ⟨?_, ?_⟩
    · rw [nested, nested, hx, heq]
    · rw [Yields, nested, hx]
      exact he

/-- A call. -/
theorem agree_call (hctx : ctx.Disciplined ctx') (hs : s.Ready) (hfits : callee.Fits s.database args) :
    Agree (invoke host ctx callee args false) (invoke host' ctx' callee args false) s
      (callee.Answered args s s.engine.depth) (s.Stopped s.engine.depth callee.HasEntry) := by
  unfold invoke
  refine .bind_same ((yields_checkDepth hs).imp (fun _ t ht => ?_) fun e t ht => ht.stopped hs.same _)
  subst ht
  have hsame := hs.same_atDepth (t.engine.depth + 1)
  refine agree_nested (.imp (Q := callee.Answered args t (t.engine.depth + 1))
    (E := t.Stopped (t.engine.depth + 1) callee.HasEntry) ?_ (fun _ _ ha => ha.leave) fun _ _ he => he.leave)
  rcases callee with code | b | id
  · exact (Activation.agree_start hctx hsame hfits).imp (fun _ _ ha => ha) fun _ _ he => he.1
  · have hargs : ∀ u ∈ args, u.Fits (t.atDepth (t.engine.depth + 1)).symbols := hfits.fits
    exact (Builtin.agree_call hctx b hsame.ready hargs).imp (fun _ _ ha => ha.of_same hsame)
      fun _ _ he => he.of_same hsame
  · exact hfits.sound.elim

/-- A call for another solution. -/
theorem agree_redo (hctx : ctx.Disciplined ctx') (hfits : callee.Fits s₀.database args)
    (hs : Suspended callee args s₀ s) :
    Agree (invoke host ctx callee args true) (invoke host' ctx' callee args true) s
      (callee.Answered args s₀ s.engine.depth) (s₀.Stopped s.engine.depth callee.HasEntry) := by
  obtain ⟨hl, hp⟩ := hs.reaches
  unfold invoke
  refine .bind_same ((yields_checkDepth hl.ready).imp (fun _ t ht => ?_) fun e t ht => ?_)
  · subst ht
    have hsame := hl.ready.same_atDepth (t.engine.depth + 1)
    have hsuspended := hs.same hsame.toOwes hsame.points
    refine agree_nested (.imp (Q := callee.Answered args s₀ (t.engine.depth + 1))
      (E := s₀.Stopped (t.engine.depth + 1) callee.HasEntry) ?_ (fun _ _ ha => ha.leave)
      fun _ _ he => he.leave)
    rcases callee with code | b | id
    · exact (Activation.agree_resume hctx hfits hsuspended).imp (fun _ _ ha => ha)
        fun _ _ he => he.1
    · have hargs : ∀ u ∈ args, u.Fits (t.atDepth (t.engine.depth + 1)).symbols :=
        fun u hu => (hfits.fits u hu).mono hl.symbols
      exact Builtin.agree_redo hctx b hargs hsuspended
    · exact hfits.sound.elim
  · obtain ⟨x, rfl, hx, ht⟩ := ht
    exact ⟨ht.depth, hl.trans ht.same.toOwes, ht.same.points ▸ hp, hx,
      fun _ => .inl (hs.topped.of_points ht.same.points)⟩

/-- All calls, with whatever fuel, leave the choice stack as they should; and they do not depend on the
host, or on how faults are reported apart from too many operands. -/
theorem disciplined_contextWith {report report' : Fault → EngineM Exception} (hhost : host'.Within)
    (hwithin : ∀ f, Engine.Within (report' f))
    (hreport : ∀ s : Workspace, s.Ready → Agree (report .stackOverflow) (report' .stackOverflow) s
      (fun x s' => s.Stays s' ∧ x.Sealed s'.database.terms) fun _ _ => False) (n : Nat) :
    (contextWith report host n).Disciplined (contextWith report' host' n) := by
  induction n with
  | zero =>
    have hspent {α : Type} {Q : α → Workspace → Prop} {E : Stop → Workspace → Prop} {s : Workspace}
        (h : E .spent s) : Agree (throw .spent : EngineM α) (throw .spent) s Q E :=
      .of_yields (yields_throw.mpr h)
    have hstopped {s₀ s : Workspace} {d : Nat} {entered : Prop} (h : s₀.Later s) :
        s₀.Stopped d entered .spent s := h.tells
    refine ⟨rfl, within_contextWith hhost hwithin 0, ?_, ?_, ?_, hreport⟩
    · exact fun callee args s hs _ => hspent (hstopped hs.later)
    · exact fun callee args s₀ s _ hs => hspent (hstopped hs.reaches.1)
    · exact fun goals s hs _ => hspent (.inl ⟨rfl, hs.later.tells⟩)
  | succ n ih =>
    exact ⟨rfl, within_contextWith hhost hwithin (n + 1), fun _ _ _ hs hfits => agree_call ih hs hfits,
      fun _ _ _ _ hfits hs => agree_redo ih hfits hs,
      fun _ _ hs hgoals => Engine.agree_runCleanups ih hs hgoals, hreport⟩

/-- All calls that a host makes leave the choice stack as they should. -/
theorem disciplined_context (hhost : host'.Within) (n : Nat) :
    (context host n).Disciplined (context host' n) :=
  disciplined_contextWith hhost
    (fun _ => .of_keeps (Engine.keeps_onTerms (Exception.extending_ofError _)))
    (fun _ hs => .of_yields (Engine.yields_faultException hs .stackOverflow)) n

end Solver

end Resolvent
