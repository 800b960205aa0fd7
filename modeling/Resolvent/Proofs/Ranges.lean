import Resolvent.Proofs.Easing
import Resolvent.Proofs.Restoring
import Resolvent.Proofs.Undoing

/-!
# Ranges of integers

A call of `between/3` with an unbound variable as its third argument, and the redos that follow it,
bind that variable to the integers of the range one after the other. Between an answer and the next redo
the search may go anywhere, as long as what it binds is recorded and it comes back to the choice points
that the answer has left (`Workspace.Returns`). The invariant is `Workspace.Paused`: on top of the choice
points of the call lies the next integer, with the mark of the call, so that taking it back gives all
variables their bindings at the call again (`Builtin.yields_resume_range`).

`Builtin.between_enumerates` says which answer has which number.
-/

namespace Resolvent

variable {s t u : Workspace} {ctx : Context} {args : Array Term} {low n : Int64} {v : Var}
  {last : Option Int64}

/-! ### A variable bound to a constant -/

/-- What reads as an unbound variable reads as the constant that this variable gets bound to. -/
theorem Store.Ordered.deref_of_bound {σ σ' : Store} (h : σ.Ordered) {t : Term} {c : Constant}
    (hd : σ.deref t = .var v) (hv : σ'.value? v = some (.const c))
    (hother : ∀ w, w ≠ v → σ'.value? w = σ.value? w) : σ'.deref t = .const c := by
  have hwithin : ∀ (n m : Nat) (t : Term), (∀ w, t = .var w → w.id < m) →
      σ.derefWithin n t = .var v → σ'.derefWithin m t = .const c := by
    intro n
    induction n with
    | zero =>
      intro m t ht hd
      cases t with
      | var w =>
        obtain rfl : w = v := by simpa [derefWithin] using hd
        obtain ⟨m, rfl⟩ : ∃ k, m = k + 1 := ⟨m - 1, by have := ht w rfl; omega⟩
        cases m <;> simp [derefWithin, hv]
      | _ => simp [derefWithin] at hd
    | succ n ih =>
      intro m t ht hd
      cases t with
      | var w =>
        obtain ⟨m, rfl⟩ : ∃ k, m = k + 1 := ⟨m - 1, by have := ht w rfl; omega⟩
        by_cases hwv : w = v
        · subst hwv
          cases m <;> simp [derefWithin, hv]
        · cases hw : σ.value? w with
          | none => simp [derefWithin, hw, hwv] at hd
          | some u =>
            have hu : ∀ w', u = .var w' → w'.id < m := fun w' hw' => by
              have := h w w' (hw' ▸ hw)
              have := ht w rfl
              omega
            simpa [derefWithin, hother w hwv, hw] using ih m u hu (by simpa [derefWithin, hw] using hd)
      | _ => simp [derefWithin] at hd
  refine hwithin σ.size σ'.size t (fun w hw => ?_) hd
  by_cases hwv : w = v
  · subst hwv
    exact lt_size_of_value? (by rw [hv]; exact Option.some_ne_none _)
  · refine lt_size_of_value? fun hnone => ?_
    -- an unbound variable reads as itself
    rw [hother w hwv] at hnone
    subst hw
    have hself : σ.deref (.var w) = .var w := by
      unfold deref
      cases σ.size <;> simp [derefWithin, hnone]
    rw [hself] at hd
    exact hwv (Term.var.inj hd)

/-- An unbound variable is unified with a constant in two steps. -/
theorem unify_var_const {σ : Store} {τ : Trail Empty} {k : Nat} (hk : 2 ≤ k) {t : Term}
    (hd : σ.deref t = .var v) (c : Constant) :
    unify k t (.const c) σ τ = (some true, (τ.mark.2.bind v (.const c) σ)) := by
  obtain ⟨k, rfl⟩ : ∃ m, k = m + 2 := ⟨k - 2, by omega⟩
  have hc : σ.deref (.const c) = .const c := by
    unfold Store.deref
    cases σ.size <;> rfl
  have hpairs : unifyInPlace (k + 2) t (.const c) σ τ.mark.2 =
      (some true, τ.mark.2.bind v (.const c) σ) := by
    simp only [unifyInPlace, unifyPairs, hd, hc]
  rw [unify]
  simp only [hpairs]
  rfl

/-! ### The ends of a range -/

namespace Builtin

/-- The integer with which a range ends. -/
def rangeLast (last : Option Int64) : Int64 :=
  last.getD Int64.maxValue

theorem le_maxValue (n : Int64) : n ≤ Int64.maxValue := by
  rw [Int64.le_iff_toInt_le]
  exact n.toInt_le

theorem inRange_iff : inRange n last = true ↔ n ≤ rangeLast last := by
  cases last with
  | none => exact iff_of_true rfl (le_maxValue n)
  | some h => exact decide_eq_true_iff

/-- The last integer of a range is recognized. -/
theorem atEnd_iff (h : n ≤ rangeLast last) :
    (n = Int64.maxValue || last = some n) = true ↔ n = rangeLast last := by
  rw [Bool.or_eq_true, decide_eq_true_iff, decide_eq_true_iff]
  cases last with
  | none => simp [rangeLast]
  | some m =>
    rw [rangeLast, Option.getD_some, Option.some.injEq] at *
    refine ⟨fun hn => hn.elim (fun hn => ?_) Eq.symm, fun hn => .inr hn.symm⟩
    -- nothing is greater than the greatest integer
    exact Int64.le_antisymm h (hn ▸ le_maxValue m)

/-- The next integer of a range is greater by one. -/
theorem toInt_next (h : n < rangeLast last) : (n + 1).toInt = n.toInt + 1 := by
  have hmax := Int64.lt_iff_toInt_lt.mp (Int64.lt_of_lt_of_le h (le_maxValue _))
  have hone : (1 : Int64).toInt = 1 := rfl
  have hmaxValue : Int64.maxValue.toInt = 2 ^ 63 - 1 := rfl
  have hmin := n.le_toInt
  rw [Int64.toInt_add, hone, Int.bmod_eq_of_le] <;> omega

theorem next_le (h : n < rangeLast last) : n + 1 ≤ rangeLast last := by
  rw [Int64.le_iff_toInt_le, toInt_next h]
  exact Int64.lt_iff_toInt_lt.mp h

end Builtin

/-! ### What stands between an answer and the next redo -/

namespace Workspace

/-- The search has gone on, and has come back to the choice points. -/
structure Returns (t u : Workspace) : Prop where
  /-- What has been bound since is recorded. -/
  before : t.moment.Before u.moment
  /-- The choice points. -/
  points : u.points = t.points
  /-- How many choice points there may be. -/
  limit : u.engine.choices.limit = t.engine.choices.limit

/-- The variable has been bound to the integer, and no other variable since the first workspace. -/
structure Reports (s : Workspace) (v : Var) (n : Int64) (t : Workspace) : Prop where
  /-- The binding is recorded. -/
  before : s.moment.Before t.moment
  /-- The variable is bound to the integer. -/
  value : v.id < s.database.terms.store.size → t.database.terms.store.value? v = some (.int n)
  /-- The other variables have kept their bindings. -/
  others : ∀ w, w ≠ v → t.database.terms.store.value? w = s.database.terms.store.value? w
  /-- How many choice points there may be. -/
  limit : t.engine.choices.limit = s.engine.choices.limit

/-- The next integer of a range lies on top of the choice points of the call. -/
structure Paused (s : Workspace) (n : Int64) (last : Option Int64) (t : Workspace) : Prop where
  /-- What has been bound since the call is recorded. -/
  before : s.moment.Before t.moment
  /-- The choice points. -/
  points : t.points = s.points ++ [⟨s.mark, .native (.range n last)⟩]
  /-- How many choice points there may be. -/
  limit : t.engine.choices.limit = s.engine.choices.limit
  /-- There was room for one more. -/
  room : s.engine.choices.hasRoom
  /-- The next integer is in the range. -/
  next : n ≤ Builtin.rangeLast last

theorem Paused.returns (h : s.Paused n last t) (h' : t.Returns u) : s.Paused n last u :=
  ⟨h.before.trans h'.before, h'.points.trans h.points, h'.limit.trans h.limit, h.room, h.next⟩

/-- The third argument reads as the integer that has been reported. -/
theorem Reports.deref (h : s.Reports v n t) (hs : s.moment.Recording) {x : Term}
    (hx : s.database.terms.store.deref x = .var v) (hv : v.id < s.database.terms.store.size) :
    t.database.terms.store.deref x = .int n :=
  hs.ordered.deref_of_bound hx (h.value hv) h.others

/-- What differs in the search only from the beginning of a report differs so from what it reports. -/
theorem Reports.of_same (hst : s.moment.Same t.moment) (hl : t.engine.choices.limit = s.engine.choices.limit)
    (h : t.Reports v n u) : s.Reports v n u :=
  ⟨hst.before.trans h.before, fun hv => h.value (hv.trans_le hst.size),
    fun w hw => (h.others w hw).trans (hst.value w), h.limit.trans hl⟩

/-- Going back to a choice point that was made after an answer is such a return. -/
theorem yields_returns {w : Workspace} {kind : ChoiceKind} (h : t.Later w)
    (hp : w.points = t.points ++ [⟨t.mark, kind⟩]) (hkind : (ChoicePoint.mk t.mark kind).cleanup? = none) :
    Yields (do Engine.pop; Engine.undoTo t.mark) w (fun _ u => t.Returns u) fun _ _ => False :=
  (Engine.yields_pop_undoTo h hp hkind).imp (fun _ _ hu => ⟨hu.2.1.before, hu.2.2.1, hu.1.limit⟩)
    fun _ _ h => h

theorem hasRoom_of_points (hp : t.points = s.points)
    (hl : t.engine.choices.limit = s.engine.choices.limit) (h : s.engine.choices.hasRoom) :
    t.engine.choices.hasRoom := by
  have hsize : t.engine.choices.size = s.engine.choices.size := congrArg List.length hp
  rwa [ChoiceStack.hasRoom, hsize, hl]

end Workspace

namespace Builtin

open Workspace

/-! ### Reports -/

/-- An unbound variable is bound to an integer. -/
theorem yields_unify_int (hctx : 2 ≤ ctx.fuel) (hs : s.moment.Recording) {x : Term}
    (hx : s.database.terms.store.deref x = .var v) (n : Int64) :
    Yields (Engine.unify ctx.fuel x (.int n)) s
      (fun b t => b = true ∧ s.Reports v n t ∧ t.points = s.points) fun _ _ => False := by
  have hv := hs.ordered.value?_of_deref hx
  have hbefore := Moment.before_bind (τ := s.engine.trail.mark.2) (t := .int n)
    (Moment.same_mark s.engine.trail hs.ordered).recording hv (by rintro w ⟨⟩)
  rw [Engine.unify, yields_bind, Engine.yields_onBindings, unify_var_const hctx hx]
  refine ⟨rfl, ⟨(Moment.same_mark s.engine.trail hs.ordered).before.trans hbefore, fun hlt => ?_,
    fun w hw => ?_, rfl⟩, rfl⟩
  · exact (Store.value?_bind ..).trans (if_pos ⟨rfl, hlt⟩)
  · exact (Store.value?_bind ..).trans (if_neg fun h => hw h.1.symm)

/-- Where there is room, what a native predicate keeps is put on top. -/
theorem yields_pushNativeState (hs : s.moment.Recording) (h : s.engine.choices.hasRoom)
    (state : NativeState) : Yields (Engine.pushNativeState state) s
      (fun _ t => s.moment.Same t.moment ∧ t.points = s.points ++ [⟨s.mark, .native state⟩] ∧
        t.engine.choices.limit = s.engine.choices.limit) fun _ _ => False := by
  rw [Engine.pushNativeState, Yields, Engine.pushChoice_of_hasRoom h]
  exact ⟨Moment.same_mark s.engine.trail hs.ordered, Array.toList_push, rfl⟩

/-- Where there is no room for a choice point, none is made. -/
theorem points_of_refused (h : ¬s.engine.choices.hasRoom) (kind : ChoiceKind)
    (Q : Unit → Workspace → Prop) :
    Yields (Engine.pushChoice kind) s Q fun _ t => t.points = s.points := by
  rw [Engine.yields_pushChoice_full h, Engine.exceed, yields_bind, Engine.note, yields_modify,
    Engine.raise, Engine.yields_onDatabase]
  rfl

/-- An integer of a range is reported. If it is not the last one the next one is kept, for which there must
be room. -/
theorem yields_reportRange_next (hctx : 2 ≤ ctx.fuel) (hs : s.moment.Recording) {x : Term}
    (hx : s.database.terms.store.deref x = .var v) (hn : n ≤ rangeLast last) :
    Yields (reportRange ctx x n last) s
      (fun a t => s.Reports v n t ∧ (n = rangeLast last ∧ a = .last ∧ t.points = s.points ∨
        n < rangeLast last ∧ a = .more ∧ s.Paused (n + 1) last t))
      fun _ t => n < rangeLast last ∧ ¬s.engine.choices.hasRoom ∧ t.points = s.points := by
  rw [reportRange, inRange_iff.mpr hn, if_neg (by simp)]
  by_cases hend : n = rangeLast last
  · rw [(atEnd_iff hn).mpr hend]
    simp only [if_true]
    rw [yields_bind]
    refine (yields_unify_int hctx hs hx n).imp (fun b t ht => ?_) fun _ _ h => h.elim
    obtain ⟨rfl, hreports, hpoints⟩ := ht
    exact ⟨hreports, .inl ⟨hend, rfl, hpoints⟩⟩
  · have hlt : n < rangeLast last := Int64.lt_of_le_of_ne hn hend
    rw [Bool.eq_false_iff.mpr (mt (atEnd_iff hn).mp hend)]
    simp only [Bool.false_eq_true, if_false]
    rw [yields_bind]
    by_cases hroom : s.engine.choices.hasRoom
    · refine (yields_pushNativeState hs hroom _).imp (fun _ u hu => ?_) fun _ _ h => h.elim
      obtain ⟨hsame, hpoints, hlimit⟩ := hu
      rw [yields_bind]
      refine (yields_unify_int hctx hsame.recording ((hsame.deref x).trans hx) n).imp (fun b t ht => ?_)
        fun _ _ h => h.elim
      obtain ⟨rfl, hreports, hpoints'⟩ := ht
      have hreports : s.Reports v n t := .of_same hsame hlimit hreports
      exact ⟨hreports, .inr ⟨hlt, rfl, hreports.before, hpoints'.trans hpoints, hreports.limit, hroom,
        next_le hlt⟩⟩
    · rw [Engine.pushNativeState]
      exact (points_of_refused hroom _ _).imp (fun _ _ h => h) fun _ _ h => ⟨hlt, hroom, h⟩

/-- What a range has kept is taken back, and all bindings since the call are undone. -/
theorem yields_resume_range (h : s.Paused n last t) : Yields Engine.popNativeState t
    (fun r u => r = some (.range n last) ∧ s.moment.Same u.moment ∧ u.points = s.points ∧
      u.engine.choices.limit = s.engine.choices.limit) fun _ _ => False := by
  rw [Engine.popNativeState, yields_bind, Engine.yields_top?, h.points, List.getLast?_concat]
  dsimp only
  rw [yields_bind, Engine.pop, Engine.yields_onChoices, yields_bind, Engine.yields_undoTo_iff]
  refine ⟨rfl, h.before.same_undoTo, ?_, h.limit⟩
  have hpop : (t.engine.choices.points.pop).toList = s.points := by
    rw [Array.toList_pop, show t.engine.choices.points.toList = t.points from rfl, h.points,
      List.dropLast_concat]
  exact hpop

/-- A redo reports the next integer of the range, in place of the one before. -/
theorem yields_between_next (hctx : 2 ≤ ctx.fuel)
    (hx : s.database.terms.store.deref (argument args 2) = .var v) (h : s.Paused n last t) :
    Yields (runBetween ctx true args) t
      (fun a u => s.Reports v n u ∧ (n = rangeLast last ∧ a = .last ∧ u.points = s.points ∨
        n < rangeLast last ∧ a = .more ∧ s.Paused (n + 1) last u)) fun _ _ => False := by
  rw [runBetween, if_pos rfl, yields_bind]
  refine (yields_resume_range h).imp (fun r u hu => ?_) fun _ _ h => h
  obtain ⟨rfl, hsame, hpoints, hlimit⟩ := hu
  have hroom := hasRoom_of_points hpoints hlimit h.room
  refine (yields_reportRange_next hctx hsame.recording ((hsame.deref _).trans hx) h.next).imp
    (fun a w hw => ?_) fun _ _ he => he.2.1 hroom
  obtain ⟨hreports, hlast | ⟨hlt, rfl, hpaused⟩⟩ := hw
  · exact ⟨.of_same hsame hlimit hreports, .inl ⟨hlast.1, hlast.2.1, hlast.2.2.trans hpoints⟩⟩
  · have hreports : s.Reports v n w := .of_same hsame hlimit hreports
    refine ⟨hreports, .inr ⟨hlt, rfl, hreports.before, ?_, hreports.limit, h.room, hpaused.next⟩⟩
    rw [hpaused.points, hpoints, mark, hsame.mark_eq]

/-! ### Calls -/

theorem integer_eq {x : Term} (hx : s.database.terms.store.deref x = .int n) :
    integer x s = .ok n s := by
  have hderef : Engine.deref x s = .ok (.int n) s := congrArg (EStateM.Result.ok · s) hx
  simp only [integer, Bind.bind, EStateM.bind, hderef]
  rfl

theorem points_of_integer (x : Term) (s : Workspace) :
    Yields (integer x) s (fun _ t => t = s) fun _ t => t.points = s.points := by
  rw [integer, yields_bind, Engine.yields_deref]
  split <;> rfl

theorem points_of_rangeEnd (x : Term) (s : Workspace) :
    Yields (rangeEnd x) s (fun _ t => t = s) fun _ t => t.points = s.points := by
  rw [rangeEnd, yields_bind, Engine.yields_deref]
  split
  · rw [yields_bind, yields_get]
    dsimp only
    split
    · rfl
    · exact yields_bind.mpr ((points_of_integer x s).imp (fun _ _ h => h) fun _ _ h => h)
  · exact yields_bind.mpr ((points_of_integer x s).imp (fun _ _ h => h) fun _ _ h => h)

end Builtin

/-- The term is the end of a range, by its value or by a name of the unbounded one. -/
def Workspace.EndsAt (s : Workspace) (x : Term) (last : Int64) : Prop :=
  s.database.terms.store.deref x = .int last ∨
    last = Int64.maxValue ∧ ∃ a, s.database.terms.store.deref x = .atom a ∧
      (s.symbols.name a = "inf" ∨ s.symbols.name a = "infinite")

namespace Builtin

theorem rangeEnd_eq {x : Term} {high : Int64} (h : s.EndsAt x high) :
    ∃ last, rangeEnd x s = .ok last s ∧ rangeLast last = high := by
  have hyields : Yields (rangeEnd x) s (fun last t => t = s ∧ rangeLast last = high)
      fun _ _ => False := by
    rw [rangeEnd, yields_bind, Engine.yields_deref]
    obtain hx | ⟨rfl, a, hx, hname⟩ := h
    · rw [hx]
      refine yields_bind.mpr ?_
      rw [Yields, integer_eq hx]
      exact ⟨rfl, rfl⟩
    · rw [hx]
      dsimp only
      rw [yields_bind, yields_get, if_pos hname]
      exact ⟨rfl, rfl⟩
  obtain ⟨last, t, heq, rfl, hlast⟩ := hyields.exists_ok
  exact ⟨last, heq, hlast⟩

/-- The ends of the range are read first. -/
theorem runBetween_eq (ctx : Context) {high : Int64}
    (hlow : s.database.terms.store.deref (argument args 0) = .int low)
    (hhigh : s.EndsAt (argument args 1) high) : ∃ last, rangeLast last = high ∧
      (∀ v, s.database.terms.store.deref (argument args 2) = .var v →
        runBetween ctx false args s = reportRange ctx (argument args 2) low last s) ∧
      ∀ n, s.database.terms.store.deref (argument args 2) = .int n →
        runBetween ctx false args s = .ok (if low ≤ n ∧ n ≤ high then .last else .fail) s := by
  obtain ⟨last, hend, rfl⟩ := rangeEnd_eq hhigh
  have hderef : Engine.deref (argument args 2) s =
    .ok (s.database.terms.store.deref (argument args 2)) s := rfl
  refine ⟨last, rfl, fun v hv => ?_, fun n hn => ?_⟩
  · rw [runBetween, if_neg Bool.false_ne_true]
    simp only [Bind.bind, EStateM.bind, integer_eq hlow, hend, hderef, hv]
  · rw [runBetween, if_neg Bool.false_ne_true]
    simp only [Bind.bind, EStateM.bind, integer_eq hlow, hend, hderef, hn, Bool.and_eq_true,
      decide_eq_true_iff, inRange_iff]
    split <;> rfl

/-- Whatever the arguments are, a call leaves a range on top of the choice points or leaves these as they
were. -/
theorem yields_between_first (hctx : 2 ≤ ctx.fuel) (hs : s.moment.Recording) (args : Array Term) :
    Yields (runBetween ctx false args) s
      (fun a t => a ≠ .more ∧ t.points = s.points ∨ a = .more ∧ ∃ n last v,
        s.database.terms.store.deref (argument args 2) = .var v ∧ s.Paused n last t)
      fun _ t => t.points = s.points := by
  rw [runBetween, if_neg Bool.false_ne_true, yields_bind]
  refine (points_of_integer _ s).imp (fun low t ht => ?_) fun _ _ h => h
  subst ht
  rw [yields_bind]
  refine (points_of_rangeEnd _ t).imp (fun last u hu => ?_) fun _ _ h => h
  subst hu
  rw [yields_bind, Engine.yields_deref]
  split
  · rename_i v hv
    by_cases hle : low ≤ rangeLast last
    · refine (yields_reportRange_next hctx hs hv hle).imp (fun a w hw => ?_) fun _ _ h => h.2.2
      obtain ⟨-, ⟨-, rfl, hpoints⟩ | ⟨-, rfl, hpaused⟩⟩ := hw
      · exact .inl ⟨by simp, hpoints⟩
      · exact .inr ⟨rfl, _, _, v, hv, hpaused⟩
    · rw [reportRange, Bool.eq_false_iff.mpr (mt inRange_iff.mp hle), if_pos (by simp)]
      exact .inl ⟨by simp, rfl⟩
  · rw [yields_pure]
    refine .inl ⟨?_, rfl⟩
    split <;> simp
  · rfl

/-! ### Enumerations -/

/-- The answers of a call in the workspace and of the redos that follow it, by their numbers. -/
inductive Enumerated (ctx : Context) (args : Array Term) (s : Workspace) : Nat → Answer → Workspace → Prop
  | call {a : Answer} {t : Workspace} (h : execute ctx false args .between s = .ok a t) :
    Enumerated ctx args s 0 a t
  | redo {k : Nat} {t u w : Workspace} {a : Answer} (h : Enumerated ctx args s k .more t)
    (hu : t.Returns u) (ha : execute ctx true args .between u = .ok a w) :
    Enumerated ctx args s (k + 1) a w

variable {k : Nat} {a : Answer}

/-- After an answer with more to come the next integer is on top of the choice points of the call, and
after any other answer these are there. -/
theorem Enumerated.points (hctx : 2 ≤ ctx.fuel) (hs : s.moment.Recording)
    (h : Enumerated ctx args s k a t) : a ≠ .more ∧ t.points = s.points ∨ a = .more ∧ ∃ n last v,
      s.database.terms.store.deref (argument args 2) = .var v ∧ s.Paused n last t := by
  induction h with
  | call h => exact yields_ok (x := runBetween ctx false args) (yields_between_first hctx hs args) h
  | redo _ hu ha ih =>
    obtain ⟨hne, -⟩ | ⟨-, n, last, v, hx, hpaused⟩ := ih
    · exact absurd rfl hne
    obtain ⟨-, ⟨-, rfl, hpoints⟩ | ⟨-, rfl, hnext⟩⟩ :=
      yields_ok (yields_between_next hctx hx (hpaused.returns hu)) ha
    · exact .inl ⟨by simp, hpoints⟩
    · exact .inr ⟨rfl, _, _, v, hx, hnext⟩

/-- Answers report the integers of the range in their order. -/
theorem Enumerated.reports (hctx : 2 ≤ ctx.fuel) (hs : s.moment.Recording) {high : Int64}
    (hlow : s.database.terms.store.deref (argument args 0) = .int low)
    (hhigh : s.EndsAt (argument args 1) high)
    (hx : s.database.terms.store.deref (argument args 2) = .var v) (hle : low ≤ high)
    (h : Enumerated ctx args s k a t) : ∃ n : Int64, n.toInt = low.toInt + k ∧ s.Reports v n t ∧
      (n = high ∧ a = .last ∨ n < high ∧ a = .more ∧ ∃ last, rangeLast last = high ∧
        s.Paused (n + 1) last t) := by
  induction h with
  | call h =>
    obtain ⟨last, rfl, hcall, -⟩ := runBetween_eq ctx hlow hhigh
    have hreport := yields_reportRange_next hctx hs hx hle
    rw [execute, hcall v hx] at h
    obtain ⟨hreports, ⟨rfl, rfl, -⟩ | ⟨hlt, rfl, hpaused⟩⟩ := yields_ok hreport h
    · exact ⟨_, by simp, hreports, .inl ⟨rfl, rfl⟩⟩
    · exact ⟨low, by simp, hreports, .inr ⟨hlt, rfl, last, rfl, hpaused⟩⟩
  | @redo k _ _ _ _ _ hu ha ih =>
    obtain ⟨n, hn, -, ⟨-, hne⟩ | ⟨hlt, -, last, rfl, hpaused⟩⟩ := ih
    · cases hne
    have hnext : (n + 1).toInt = low.toInt + ((k + 1 : Nat) : Int) := by
      rw [toInt_next hlt, hn]
      omega
    obtain ⟨hreports, ⟨heq, rfl, -⟩ | ⟨hlt, rfl, hnextPaused⟩⟩ :=
      yields_ok (yields_between_next hctx hx (hpaused.returns hu)) ha
    · exact ⟨n + 1, hnext, hreports, .inl ⟨heq, rfl⟩⟩
    · exact ⟨n + 1, hnext, hreports, .inr ⟨hlt, rfl, last, rfl, hnextPaused⟩⟩

/-- A range is enumerated in its order, every integer once, as far as it is asked for, and between two
answers the search may go anywhere and come back. -/
theorem between_enumerates (hctx : 2 ≤ ctx.fuel) (hs : s.moment.Recording) (args : Array Term) :
    (∀ low high, s.database.terms.store.deref (argument args 0) = .int low →
      s.EndsAt (argument args 1) high →
      (∀ v, s.database.terms.store.deref (argument args 2) = .var v →
        -- where the range is empty the call fails at once
        (high < low → execute ctx false args .between s = .ok .fail s) ∧
        -- else it gives an answer, unless there is no room for the next integer
        (low ≤ high → (low < high → s.engine.choices.hasRoom) →
          ∃ a t, execute ctx false args .between s = .ok a t) ∧
        -- the answers are the integers of the range, and the last one is told from the others
        (low ≤ high → ∀ k a t, Enumerated ctx args s k a t → ∃ n : Int64,
          n.toInt = low.toInt + k ∧ n ≤ high ∧ a = (if n = high then .last else .more) ∧
          s.Reports v n t ∧ (v.id < s.database.terms.store.size →
            t.database.terms.store.deref (argument args 2) = .int n))) ∧
      -- an integer is compared with the ends of the range
      ∀ n, s.database.terms.store.deref (argument args 2) = .int n →
        execute ctx false args .between s = .ok (if low ≤ n ∧ n ≤ high then .last else .fail) s) ∧
    -- a redo gives an answer
    (∀ k t u, Enumerated ctx args s k .more t → t.Returns u →
      ∃ a w, execute ctx true args .between u = .ok a w) ∧
    -- without more to come the choice points are those of before
    (∀ k a t, Enumerated ctx args s k a t → a ≠ .more → t.points = s.points) ∧
    (∀ e t, execute ctx false args .between s = .error e t → t.points = s.points) ∧
    -- when the search has gone back to a choice point above an answer, a redo gives the next one
    ∀ k t u kind, Enumerated ctx args s k .more t → t.Later u →
      u.points = t.points ++ [⟨t.mark, kind⟩] → (ChoicePoint.mk t.mark kind).cleanup? = none →
        ∃ w a w', (do Engine.pop; Engine.undoTo t.mark) u = .ok () w ∧ t.Returns w ∧
          execute ctx true args .between w = .ok a w' := by
  -- a redo
  have hredo (k : Nat) (t u : Workspace) (h : Enumerated ctx args s k .more t) (hu : t.Returns u) :
      ∃ a w, execute ctx true args .between u = .ok a w := by
    obtain ⟨hne, -⟩ | ⟨-, n, last, v, hx, hpaused⟩ := h.points hctx hs
    · exact absurd rfl hne
    obtain ⟨a, w, h, -⟩ := (yields_between_next hctx hx (hpaused.returns hu)).exists_ok
    exact ⟨a, w, h⟩
  refine ⟨fun low high hlow hhigh => ?_, hredo, fun k a t h hne => ?_, fun e t h => ?_,
    fun k t u kind h hu hpoints hkind => ?_⟩
  · obtain ⟨last, rfl, hvar, hint⟩ := runBetween_eq ctx hlow hhigh
    refine ⟨fun v hx => ⟨fun hlt => ?_, fun hle hroom => ?_, fun hle k a t h => ?_⟩, hint⟩
    · have hout : inRange low last = false :=
        Bool.eq_false_iff.mpr fun h => Int64.not_le.mpr hlt (inRange_iff.mp h)
      rw [execute, hvar v hx, reportRange, hout, if_pos (by simp)]
      rfl
    · rw [execute, hvar v hx]
      obtain ⟨a, t, h, -⟩ := ((yields_reportRange_next hctx hs hx hle).imp (fun _ _ h => h)
        fun _ _ h => h.2.1 (hroom h.1)).exists_ok
      exact ⟨a, t, h⟩
    · obtain ⟨n, hn, hreports, hcases⟩ := h.reports hctx hs hlow hhigh hx hle
      refine ⟨n, hn, ?_, ?_, hreports, hreports.deref hs hx⟩
      · exact hcases.elim (fun h => Int64.le_of_eq h.1) fun h => Int64.le_of_lt h.1
      · obtain ⟨heq, rfl⟩ | ⟨hlt, rfl, -⟩ := hcases
        · rw [if_pos heq]
        · rw [if_neg (Int64.ne_of_lt hlt)]
  · obtain ⟨-, hpoints⟩ | ⟨rfl, -⟩ := h.points hctx hs
    · exact hpoints
    · exact absurd rfl hne
  · exact yields_error (x := runBetween ctx false args) (yields_between_first hctx hs args) h
  · obtain ⟨⟨⟩, w, hback, hw⟩ := (Workspace.yields_returns hu hpoints hkind).exists_ok
    obtain ⟨a, w', ha⟩ := hredo k t w h hw
    exact ⟨w, a, w', hback, hw, ha⟩

/-- A workspace with one variable, in which a mark has been taken. -/
def rangeWorkspace : Workspace :=
  { Workspace.initial with
    database := { Workspace.initial.database with
      terms := { Workspace.initial.database.terms with store := ⟨#[none], 0⟩ } }
    engine := { Workspace.initial.engine with trail := Trail.empty.mark.2 } }

/-- The call of a range of two integers gives the first one, and a redo the second one. -/
theorem between_enumerates_pair : rangeWorkspace.moment.Recording ∧ ∃ t u,
    execute (Solver.context .none 3) false #[.int 8, .int 9, .var ⟨0⟩] .between rangeWorkspace =
      .ok .more t ∧
    execute (Solver.context .none 3) true #[.int 8, .int 9, .var ⟨0⟩] .between t = .ok .last u ∧
    u.database.terms.store.deref (.var ⟨0⟩) = .int 9 ∧ u.points = rangeWorkspace.points := by
  have hs : rangeWorkspace.moment.Recording := by
    refine ⟨rfl, fun v w h => ?_⟩
    obtain ⟨_ | i⟩ := v <;> cases h
  have hctx : 2 ≤ (Solver.context .none 3).fuel := by decide
  obtain ⟨hrange, hredo, hpoints, -⟩ := between_enumerates hctx hs #[.int 8, .int 9, .var ⟨0⟩]
  obtain ⟨-, hcall, hanswer⟩ := (hrange 8 9 rfl (.inl rfl)).1 ⟨0⟩ rfl
  obtain ⟨a, t, ht⟩ := hcall (by decide) fun _ => by decide
  have hfirst := Enumerated.call ht
  obtain ⟨n, hn, -, rfl, hreports, -⟩ := hanswer (by decide) 0 a t hfirst
  have hne : n ≠ 9 := by rintro rfl; cases hn
  rw [if_neg hne] at ht hfirst
  have hreturns : t.Returns t := ⟨.refl hreports.before.recording, rfl, rfl⟩
  obtain ⟨a, u, hu⟩ := hredo 0 t t hfirst hreturns
  have hsecond := hfirst.redo hreturns hu
  obtain ⟨n, hn, -, rfl, -, hderef⟩ := hanswer (by decide) 1 a u hsecond
  obtain rfl : n = 9 := Int64.toInt_inj.mp hn
  exact ⟨hs, t, u, ht, hu, hderef (by decide), hpoints 1 _ u hsecond (by decide)⟩

end Builtin

end Resolvent
