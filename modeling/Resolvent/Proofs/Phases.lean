import Resolvent.Proofs.Chronicle

/-!
# How the end of a run shows in its chronicle

The chronicle of a search tells when the end of the run was asked for. From then on the search is
`Phase.quitting`: it does nothing any more, and nothing is done but to drop what is left of the searches
it belongs to. Dropping may start cleanup goals, and each is a search of its own, with phases of its
own. `Chronicle.Shifts` reads the phases off a chronicle, the innermost first.

`Chronicle.Flow l φ ψ` says that what happens leads a search from one phase to another, whatever it is
part of. If a search begins by running and asks for the end of the run outside of cleanup goals, then
it is in that phase at its end, and in between nothing is done but by cleanup goals that are run by a
drop which has begun since (`Chronicle.Flow.quit`). A search that does not come to its end because its
fuel is spent `Chronicle.Breaks` off, behind such a request in one of these cleanup goals only
(`Chronicle.Breaks.quit`).
-/

namespace Resolvent

namespace Chronicle

/-- What is going on in a search. -/
inductive Phase where
  /-- Solutions are searched for. -/
  | running
  /-- The end of the run has been asked for, with an exit status. -/
  | quitting (status : Int)
  /-- A cleanup goal has asked for the end of the run. -/
  | lost
  /-- What is left of the search is dropped. -/
  | stopping
deriving DecidableEq

namespace Phase

/-- Cleanup goals may be started. -/
def Starts : Phase → Prop
  | .quitting _ => False
  | _ => True

/-- The phase after a cleanup goal has asked for the end of the run. A drop takes no notice of it. -/
def interrupted : Phase → Phase
  | .stopping => .stopping
  | _ => .lost

/-- The end of the run has been asked for. -/
def Quits : Phase → Prop
  | .quitting _ | .lost => True
  | _ => False

end Phase

/-- Only a search that is running does this. -/
def Event.Acts : Event → Prop
  | .passed _ | .looked _ | .invoked .. | .held _ | .limited | .quit _ => True
  | _ => False

/-- Something happens in the innermost of the phases, and leads to others. -/
inductive Event.Shifts : Event → List Phase → List Phase → Prop where
  | passed {x : Scene} {φs : List Phase} : Shifts (.passed x) (.running :: φs) (.running :: φs)
  | looked {x : Lookup} {φs : List Phase} : Shifts (.looked x) (.running :: φs) (.running :: φs)
  | invoked {callee : Callee} {args : Array Term} {redo : Bool} {φs : List Phase} :
      Shifts (.invoked callee args redo) (.running :: φs) (.running :: φs)
  | held {goal : Term} {φs : List Phase} : Shifts (.held goal) (.running :: φs) (.running :: φs)
  | limited {φs : List Phase} : Shifts .limited (.running :: φs) (.running :: φs)
  | quit {n : Int} {φs : List Phase} : Shifts (.quit n) (.running :: φs) (.quitting n :: φs)
  | interrupted {top : Option ChoicePoint} {asker : Option Term} {φ : Phase} {φs : List Phase} :
      Shifts (.interrupted top asker) (φ :: φs) (φ :: φs)
  | started {goal : Term} {φ : Phase} {φs : List Phase} (hφ : φ.Starts) :
      Shifts (.started goal) (φ :: φs) (.running :: φ :: φs)
  | ended {goal : Term} {φ : Phase} {φs : List Phase} :
      Shifts (.ended goal) (.running :: φ :: φs) (φ :: φs)
  | halted {goal : Term} {φ ψ : Phase} {φs : List Phase} (hψ : ψ.Quits) :
      Shifts (.halted goal) (ψ :: φ :: φs) (φ.interrupted :: φs)
  | stopping {φ : Phase} {φs : List Phase} (hφ : φ ≠ .stopping) :
      Shifts .stopping (φ :: φs) (.stopping :: φ :: φs)
  | stopped {φ : Phase} {φs : List Phase} : Shifts .stopped (.stopping :: φ :: φs) (φ :: φs)

theorem Event.Shifts.above {e : Event} {φs ψs : List Phase} (h : e.Shifts φs ψs) (χs : List Phase) :
    e.Shifts (φs ++ χs) (ψs ++ χs) := by
  cases h with
  | passed => exact .passed
  | looked => exact .looked
  | invoked => exact .invoked
  | held => exact .held
  | limited => exact .limited
  | quit => exact .quit
  | interrupted => exact .interrupted
  | started hφ => exact .started hφ
  | ended => exact .ended
  | halted hψ => exact .halted hψ
  | stopping hφ => exact .stopping hφ
  | stopped => exact .stopped

/-- What happens leads from the phases to others, the innermost first. -/
inductive Shifts : Chronicle → List Phase → List Phase → Prop where
  | nil {φs : List Phase} : Shifts [] φs φs
  | cons {e : Event} {l : Chronicle} {φs ψs χs : List Phase} (h : Shifts l φs ψs)
      (he : e.Shifts ψs χs) : Shifts (e :: l) φs χs

namespace Shifts

variable {l l' : Chronicle} {φs ψs χs : List Phase} {e : Event}

theorem trans (h : Shifts l φs ψs) (h' : Shifts l' ψs χs) : Shifts (l' ++ l) φs χs := by
  induction h' with
  | nil => exact h
  | cons _ he ih => exact .cons (ih h) he

theorem event (he : e.Shifts φs ψs) : Shifts [e] φs ψs :=
  .cons .nil he

/-- What happens in two parts leads through phases in between. -/
theorem split (h : Shifts (l' ++ l) φs χs) : ∃ ψs, Shifts l φs ψs ∧ Shifts l' ψs χs := by
  induction l' generalizing χs with
  | nil => exact ⟨χs, h, .nil⟩
  | cons e l' ih =>
    cases h with
    | cons h he =>
      obtain ⟨ψs, hl, hl'⟩ := ih h
      exact ⟨ψs, hl, .cons hl' he⟩

/-- What happens does not depend on what it is part of. -/
theorem above (h : Shifts l φs ψs) (χs : List Phase) : Shifts l (φs ++ χs) (ψs ++ χs) := by
  induction h with
  | nil => exact .nil
  | cons _ he ih => exact .cons ih (he.above χs)

end Shifts

/-- What happens leads a search from one phase to another. -/
def Flow (l : Chronicle) (φ ψ : Phase) : Prop :=
  ∀ φs, Shifts l (φ :: φs) (ψ :: φs)

namespace Flow

variable {l l' : Chronicle} {φ ψ χ : Phase} {goal : Term}

theorem nil : Flow [] φ φ :=
  fun _ => .nil

theorem trans (h : Flow l φ ψ) (h' : Flow l' ψ χ) : Flow (l' ++ l) φ χ :=
  fun φs => (h φs).trans (h' φs)

theorem event {e : Event} (h : ∀ φs, e.Shifts (φ :: φs) (ψ :: φs)) : Flow [e] φ ψ :=
  fun φs => .event (h φs)

/-- A cleanup goal is run to its end. -/
theorem cleanup (h : Flow l .running .running) (hφ : φ.Starts) :
    Flow (.ended goal :: (l ++ [.started goal])) φ φ :=
  fun φs => .cons ((Shifts.event (.started hφ)).trans (h (φ :: φs))) .ended

/-- A cleanup goal asks for the end of the run. -/
theorem asked (h : Flow l .running ψ) (hψ : ψ.Quits) (hφ : φ.Starts) :
    Flow (.halted goal :: (l ++ [.started goal])) φ φ.interrupted :=
  fun φs => .cons ((Shifts.event (.started hφ)).trans (h (φ :: φs))) (.halted hψ)

/-- What is left of a search is dropped. -/
theorem drop (h : Flow l .stopping .stopping) (hφ : φ ≠ .stopping) :
    Flow (.stopped :: (l ++ [.stopping])) φ φ :=
  fun φs => .cons ((Shifts.event (.stopping hφ)).trans (h (φ :: φs))) .stopped

/-- Where a cleanup goal asked for the end of the run last, the search is not one that asked itself. -/
theorem ne_quitting (h : Flow (.halted goal :: l) φ ψ) (n : Int) : ψ ≠ .quitting n := by
  rintro rfl
  obtain _ | ⟨-, he⟩ := h []
  generalize hχ : [Phase.quitting n] = χs at he
  cases he with
  | @halted _ φ' =>
    cases φ' <;> cases hχ

end Flow

/-! ### What has begun and not yet ended -/

/-- Something that has begun and will end. -/
inductive Task where
  /-- A cleanup goal is run. -/
  | cleanup
  /-- What is left of a search is dropped. -/
  | drop
deriving DecidableEq

/-- What has not yet ended after something has happened. -/
def Event.open : Event → List Task → List Task
  | .started _, ts => .cleanup :: ts
  | .ended _, ts | .halted _, ts => ts.tail
  | .stopping, ts => .drop :: ts
  | .stopped, ts => ts.tail
  | _, ts => ts

/-- What has begun in a chronicle and not yet ended, the latest first. -/
def tasks : Chronicle → List Task
  | [] => []
  | e :: l => e.open (tasks l)

/-- What a phase other than the outermost one is a part of. -/
def Phase.task : Phase → Task
  | .stopping => .drop
  | _ => .cleanup

@[simp] theorem Phase.task_interrupted (φ : Phase) : φ.interrupted.task = φ.task := by
  cases φ <;> rfl

theorem Phase.eq_stopping {φ : Phase} (h : φ.task = .drop) : φ = .stopping := by
  cases φ <;> first | rfl | cases h

/-- Something that happens lets the innermost phase go on, begins one in it or ends it. What a phase
is a part of stays the same. -/
theorem Event.Shifts.step {e : Event} {φ : Phase} {φs ψs : List Phase} (he : e.Shifts (φ :: φs) ψs) :
    (∃ φ', ψs = φ' :: φs ∧ φ'.task = φ.task ∧ (φ' = φ ∨ φ = .running) ∧ ∀ ts, e.open ts = ts) ∨
      (∃ χ, ψs = χ :: φ :: φs ∧ (χ = .stopping ∧ φ ≠ .stopping ∨ χ = .running ∧ φ.Starts) ∧
        ∀ ts, e.open ts = χ.task :: ts) ∨
      ∃ χ χ' χs, φs = χ :: χs ∧ ψs = χ' :: χs ∧ χ'.task = χ.task ∧
        (χ' = χ ∨ φ ≠ .stopping) ∧ ∀ ts, e.open ts = ts.tail := by
  cases he with
  | passed => exact .inl ⟨_, rfl, rfl, .inl rfl, fun _ => rfl⟩
  | looked => exact .inl ⟨_, rfl, rfl, .inl rfl, fun _ => rfl⟩
  | invoked => exact .inl ⟨_, rfl, rfl, .inl rfl, fun _ => rfl⟩
  | held => exact .inl ⟨_, rfl, rfl, .inl rfl, fun _ => rfl⟩
  | limited => exact .inl ⟨_, rfl, rfl, .inl rfl, fun _ => rfl⟩
  | quit => exact .inl ⟨_, rfl, rfl, .inr rfl, fun _ => rfl⟩
  | interrupted => exact .inl ⟨_, rfl, rfl, .inl rfl, fun _ => rfl⟩
  | started hφ => exact .inr (.inl ⟨_, rfl, .inr ⟨rfl, hφ⟩, fun _ => rfl⟩)
  | stopping hφ => exact .inr (.inl ⟨_, rfl, .inl ⟨rfl, hφ⟩, fun _ => rfl⟩)
  | ended => exact .inr (.inr ⟨_, _, _, rfl, rfl, rfl, .inl rfl, fun _ => rfl⟩)
  | stopped => exact .inr (.inr ⟨_, _, _, rfl, rfl, rfl, .inl rfl, fun _ => rfl⟩)
  | halted hψ =>
    refine .inr (.inr ⟨_, _, _, rfl, rfl, Phase.task_interrupted _, .inr ?_, fun _ => rfl⟩)
    rintro rfl
    exact hψ

/-- Every phase but the outermost one belongs to something that has not ended yet. -/
theorem Shifts.tasks_eq {l : Chronicle} {φ : Phase} {ψs : List Phase} (h : Shifts l [φ] ψs) :
    ∃ χs χ, ψs = χs ++ [χ] ∧ tasks l = χs.map Phase.task := by
  generalize hφs : [φ] = φs at h
  induction h with
  | nil => exact ⟨[], φ, hφs.symm, rfl⟩
  | @cons e l _ ψs ωs _ he ih =>
    obtain ⟨χs, χ, rfl, htasks⟩ := ih hφs
    rw [tasks, htasks]
    obtain _ | ⟨ψ, χs⟩ := χs
    · -- the outermost phase is the only one
      obtain ⟨φ', rfl, -, -, hopen⟩ | ⟨χ', rfl, -, hopen⟩ | ⟨_, _, _, hnil, -⟩ := he.step
      · exact ⟨[], φ', rfl, hopen _⟩
      · exact ⟨[χ'], χ, rfl, hopen _⟩
      · cases hnil
    · obtain ⟨φ', rfl, htask, -, hopen⟩ | ⟨χ', rfl, -, hopen⟩ | ⟨ξ, ξ', rest, heq, rfl, htask, -, hopen⟩ :=
        he.step
      · exact ⟨φ' :: χs, χ, rfl, by rw [hopen, List.map_cons, List.map_cons, htask]⟩
      · exact ⟨χ' :: ψ :: χs, χ, rfl, hopen _⟩
      · obtain _ | ⟨ξ₀, χs⟩ := χs
        · cases heq
          exact ⟨[], ξ', rfl, hopen _⟩
        · cases heq
          exact ⟨ξ' :: χs, χ, rfl, by rw [hopen, List.map_cons, List.tail_cons, List.map_cons,
            List.map_cons, htask]⟩

/-- After the end of the run has been asked for in the outermost phase, nothing is done before a drop
has begun, and then only by the cleanup goals that it starts. -/
inductive Quitting (n : Int) : List Phase → List Task → Prop where
  | idle : Quitting n [.quitting n] []
  | drop : Quitting n [.stopping, .quitting n] [.drop]
  | cleanup (φs : List Phase) {φ : Phase} (hφ : φ.task = .cleanup) :
      Quitting n (φs ++ [φ, .stopping, .quitting n]) (φs.map Phase.task ++ [.cleanup, .drop])

namespace Quitting

variable {n : Int} {φs ψs : List Phase} {ts : List Task} {e : Event}

/-- Whatever happens then. -/
theorem shift (h : Quitting n φs ts) (he : e.Shifts φs ψs) : Quitting n ψs (e.open ts) := by
  cases h with
  | idle =>
    obtain ⟨φ', rfl, -, hφ, hopen⟩ | ⟨χ, rfl, hχ, hopen⟩ | ⟨_, _, _, hnil, -⟩ := he.step
    · obtain rfl | hφ := hφ
      · exact hopen _ ▸ .idle
      · cases hφ
    · obtain ⟨rfl, -⟩ | ⟨-, hstarts⟩ := hχ
      · exact hopen _ ▸ .drop
      · exact hstarts.elim
    · cases hnil
  | drop =>
    obtain ⟨φ', rfl, -, hφ, hopen⟩ | ⟨χ, rfl, hχ, hopen⟩ | ⟨χ, χ', χs, heq, rfl, -, hχ, hopen⟩ := he.step
    · obtain rfl | hφ := hφ
      · exact hopen _ ▸ .drop
      · cases hφ
    · obtain ⟨-, hne⟩ | ⟨rfl, -⟩ := hχ
      · exact absurd rfl hne
      · rw [hopen]
        exact .cleanup (φ := .running) [] rfl
    · cases heq
      obtain rfl | hne := hχ
      · exact hopen _ ▸ .idle
      · exact absurd rfl hne
  | @cleanup φs φ hφ =>
    obtain _ | ⟨ψ, φs⟩ := φs
    · obtain ⟨φ', rfl, htask, -, hopen⟩ | ⟨χ, rfl, -, hopen⟩ | ⟨χ, χ', χs, heq, rfl, htask, -, hopen⟩ :=
        he.step
      · exact hopen _ ▸ .cleanup [] (htask.trans hφ)
      · exact hopen _ ▸ .cleanup [χ] hφ
      · cases heq
        obtain rfl := Phase.eq_stopping htask
        exact hopen _ ▸ .drop
    · obtain ⟨φ', rfl, htask, -, hopen⟩ | ⟨χ, rfl, -, hopen⟩ | ⟨χ, χ', χs, heq, rfl, htask, -, hopen⟩ :=
        he.step
      · rw [hopen, List.map_cons, ← htask]
        exact .cleanup (φ' :: φs) hφ
      · rw [hopen]
        exact .cleanup (χ :: ψ :: φs) hφ
      · rw [hopen]
        obtain _ | ⟨ξ, φs⟩ := φs
        · cases heq
          exact .cleanup [] (htask.trans hφ)
        · cases heq
          rw [List.map_cons, List.map_cons, ← htask]
          exact .cleanup (χ' :: φs) hφ

theorem shifts {l : Chronicle} (h : Quitting n φs []) (hl : Shifts l φs ψs) :
    Quitting n ψs (tasks l) := by
  induction hl with
  | nil => exact h
  | cons _ he ih => exact (ih h).shift he

/-- Where there is one phase only, nothing goes on. -/
theorem single {ψ : Phase} (h : Quitting n [ψ] ts) : ψ = .quitting n := by
  generalize hψ : [ψ] = ψs at h
  cases h with
  | idle => exact List.singleton_injective hψ
  | drop => cases hψ
  | @cleanup φs φ =>
    have hlength := congrArg List.length hψ
    simp at hlength

/-- Something is done by a cleanup goal that a drop has started. -/
theorem acts (h : Quitting n φs ts) (he : e.Shifts φs ψs) (ha : e.Acts) :
    ∃ ts', ts = ts' ++ [.cleanup, .drop] := by
  cases h with
  | idle => cases he <;> cases ha
  | drop => cases he <;> cases ha
  | cleanup => exact ⟨_, rfl⟩

end Quitting

/-- Something is done in a phase that is running. -/
theorem Event.Shifts.running {e : Event} {φ : Phase} {φs ψs : List Phase} (he : e.Shifts (φ :: φs) ψs)
    (ha : e.Acts) : φ = .running := by
  cases he <;> first | rfl | cases ha

/-- When a search that has begun by running asks for the end of the run outside of cleanup goals, nothing
is done since then but by the cleanup goals of drops that have begun after that. -/
theorem Shifts.quit {before after : Chronicle} {n : Int} {ψs : List Phase}
    (h : Shifts (after ++ .quit n :: before) [.running] ψs) (hbefore : .cleanup ∉ tasks before) :
    Quitting n ψs (tasks after) ∧ ∀ a e b, after = b ++ e :: a → e.Acts →
      ∃ ts, tasks a = ts ++ [.cleanup, .drop] := by
  obtain ⟨φs, hquit, hafter⟩ := h.split
  obtain _ | ⟨hbegin, hshift⟩ := hquit
  obtain ⟨χs, χ, rfl, htasks⟩ := hbegin.tasks_eq
  obtain _ | ⟨χ', χs⟩ := χs
  · obtain rfl := hshift.running trivial
    have hquitting : Quitting n φs [] := by
      cases hshift
      exact .idle
    refine ⟨hquitting.shifts hafter, fun a e b heq ha => ?_⟩
    subst heq
    obtain ⟨ψs, hdone, -⟩ := hafter.split
    obtain _ | ⟨hpast, he⟩ := hdone
    exact (hquitting.shifts hpast).acts he ha
  · -- the search asks as a cleanup goal
    obtain rfl := hshift.running trivial
    exact absurd (htasks ▸ List.mem_cons_self) hbefore

/-- When such a search has come to its end, it is in the phase in which it asked. -/
theorem Flow.quit {before after : Chronicle} {n : Int} {ψ : Phase}
    (h : Flow (after ++ .quit n :: before) .running ψ) (hbefore : .cleanup ∉ tasks before) :
    ψ = .quitting n ∧ ∀ a e b, after = b ++ e :: a → e.Acts →
      ∃ ts, tasks a = ts ++ [.cleanup, .drop] := by
  obtain ⟨hquitting, hacts⟩ := (h []).quit hbefore
  exact ⟨hquitting.single, hacts⟩

/-! ### Where fuel is spent -/

/-- What happens breaks off within something that has begun in the phase. -/
def BreaksWithin (l : Chronicle) (φ : Phase) : Prop :=
  ∃ ψs, ψs ≠ [] ∧ Shifts l [φ] (ψs ++ [φ])

/-- What happens breaks off in a search that has not asked for the end of the run, or within what a drop
of that search has begun. -/
def Breaks (l : Chronicle) (φ : Phase) : Prop :=
  ∃ ψs χ, Shifts l [φ] (ψs ++ [χ]) ∧ (χ.Starts ∨ 2 ≤ ψs.length)

section Breaks

variable {l l' : Chronicle} {φ ψ : Phase} {e : Event}

theorem Breaks.here (hφ : φ.Starts) : Breaks [] φ :=
  ⟨[], φ, .nil, .inl hφ⟩

theorem Flow.breaks (h : Flow l φ ψ) (h' : Breaks l' ψ) : Breaks (l' ++ l) φ := by
  obtain ⟨ψs, χ, hl', hχ⟩ := h'
  exact ⟨ψs, χ, (h []).trans hl', hχ⟩

theorem Flow.breaksWithin (h : Flow l φ φ) (h' : BreaksWithin l' φ) : BreaksWithin (l' ++ l) φ := by
  obtain ⟨ψs, hne, hl'⟩ := h'
  exact ⟨ψs, hne, (h []).trans hl'⟩

/-- What has begun in a phase breaks off. -/
theorem Breaks.within (h : Breaks l ψ) (he : e.Shifts [φ] [ψ, φ]) : BreaksWithin (l ++ [e]) φ := by
  obtain ⟨ψs, χ, hl, -⟩ := h
  exact ⟨ψs ++ [χ], List.append_ne_nil_of_right_ne_nil _ (List.cons_ne_nil _ _),
    (Shifts.event he).trans (hl.above [φ])⟩

theorem BreaksWithin.breaks (h : BreaksWithin l φ) (hφ : φ.Starts) : Breaks l φ := by
  obtain ⟨ψs, -, hl⟩ := h
  exact ⟨ψs, φ, hl, .inl hφ⟩

/-- A drop breaks off within what it has begun. -/
theorem BreaksWithin.dropped (h : BreaksWithin l .stopping) (hφ : φ ≠ .stopping) :
    Breaks (l ++ [.stopping]) φ := by
  obtain ⟨ψs, hne, hl⟩ := h
  refine ⟨ψs ++ [Phase.stopping], φ, (Shifts.event (.stopping hφ)).trans (hl.above [φ]), .inr ?_⟩
  rw [List.length_append, List.length_singleton]
  exact Nat.succ_le_succ (List.length_pos_iff.mpr hne)

/-- Behind the request for the end of the run, what happens breaks off in a cleanup goal only. -/
theorem Quitting.breaks {n : Int} {ψs : List Phase} {χ : Phase} {ts : List Task}
    (h : Quitting n (ψs ++ [χ]) ts) (hχ : χ.Starts ∨ 2 ≤ ψs.length) :
    ∃ ts', ts = ts' ++ [.cleanup, .drop] := by
  generalize hφs : ψs ++ [χ] = φs at h
  cases h with
  | idle =>
    obtain ⟨rfl, hlast⟩ := List.append_inj' (hφs.trans (List.nil_append _).symm) rfl
    cases hlast
    exact hχ.elim False.elim fun h => absurd h (by simp)
  | drop =>
    obtain ⟨rfl, hlast⟩ := List.append_inj' (show ψs ++ [χ] = [_] ++ [_] from hφs) rfl
    cases hlast
    exact hχ.elim False.elim fun h => absurd h (by simp)
  | cleanup => exact ⟨_, rfl⟩

/-- When a search that has begun by running breaks off after it asked for the end of the run outside of
cleanup goals, it does so in a cleanup goal of a drop that has begun since. -/
theorem Breaks.quit {before after : Chronicle} {n : Int}
    (h : Breaks (after ++ .quit n :: before) .running) (hbefore : .cleanup ∉ tasks before) :
    (∃ ts, tasks after = ts ++ [.cleanup, .drop]) ∧ ∀ a e b, after = b ++ e :: a → e.Acts →
      ∃ ts, tasks a = ts ++ [.cleanup, .drop] := by
  obtain ⟨ψs, χ, hl, hχ⟩ := h
  obtain ⟨hquitting, hacts⟩ := hl.quit hbefore
  exact ⟨hquitting.breaks hχ, hacts⟩

end Breaks

end Chronicle

end Resolvent
