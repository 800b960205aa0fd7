import Resolvent.Proofs.Moment
import Resolvent.Proofs.Unifiers

/-!
# Undoing is exact

What is recorded after a mark can be taken back. `Trail.Since` lists what may happen after a mark:
bindings of unbound variables, unification, actions, further marks, undoing to marks that are not older,
and searches of their own for which the trail is set aside, to any depth. Whatever has happened,
`Trail.undoTo_exact` says that undoing to the mark gives every variable its binding back and that
every action recorded since has been run once.

`Store.Binds` lists the bindings that unification makes, in their order. So a failed `unify` leaves all
bindings and the entries of the trail as they were, and one that succeeds adds an entry for every
variable that it has bound (`unify_exact`).

Reading a term ends unless variables are bound to each other in a circle, so this is asked of the terms
that unification reads (`Store.ReadsPairs`).
-/

namespace Resolvent

variable {α : Type}

namespace Store

variable {σ σ' σ'' : Store} {v w : Var} {t : Term} {l l' : List (Var × Term)}

/-- The variable has been made and has no binding. -/
structure Unbound (σ : Store) (v : Var) : Prop where
  /-- It has been made. -/
  lt : v.id < σ.size
  /-- It has no binding. -/
  value : σ.value? v = none

/-- The reading of the term ends, at an unbound variable if at a variable. -/
def Reads (σ : Store) (t : Term) : Prop :=
  ∀ v, σ.deref t = .var v → σ.Unbound v

/-- Unbound variables get bindings, one after the other. -/
inductive Binds : Store → List (Var × Term) → Store → Prop
  | nil (σ : Store) : Binds σ [] σ
  | cons {σ σ' : Store} {v : Var} {t : Term} {l : List (Var × Term)} (hv : σ.Unbound v)
    (h : Binds (σ.bind v t) l σ') : Binds σ ((v, t) :: l) σ'

namespace Binds

theorem size (h : σ.Binds l σ') : σ'.size = σ.size := by
  induction h with
  | nil => rfl
  | cons _ _ ih => rw [ih, size_bind]

theorem value_of_not_mem (h : σ.Binds l σ') (hv : v ∉ l.map (·.1)) : σ'.value? v = σ.value? v := by
  induction h with
  | nil => rfl
  | cons _ _ ih =>
    rw [List.map_cons, List.mem_cons, not_or] at hv
    rw [ih hv.2, value?_bind, if_neg fun h => hv.1 h.1.symm]

theorem value_ne_none (h : σ.Binds l σ') (hv : v ∈ l.map (·.1) ∨ σ.value? v ≠ none) :
    σ'.value? v ≠ none := by
  induction h with
  | nil => simpa using hv
  | @cons σ σ' w t l hw _ ih =>
    refine ih (or_iff_not_imp_left.mpr fun hmem => ?_)
    rw [value?_bind]
    split
    · exact Option.some_ne_none t
    · rename_i hne
      have hvw : v ≠ w := fun h => hne ⟨h.symm, hw.lt⟩
      simpa [hvw, hmem] using hv

theorem value_of_mem (h : σ.Binds l σ') (hv : v ∈ l.map (·.1)) : σ.value? v = none := by
  induction h with
  | nil => cases hv
  | @cons σ σ' w t l hw _ ih =>
    obtain rfl | hv := List.mem_cons.mp hv
    · exact hw.value
    · have hnone := ih hv
      rw [value?_bind] at hnone
      split at hnone
      · cases hnone
      · exact hnone

/-- The variables bound are those that had no binding and have one now. -/
theorem mem_iff (h : σ.Binds l σ') :
    v ∈ l.map (·.1) ↔ σ.value? v = none ∧ σ'.value? v ≠ none := by
  refine ⟨fun hv => ⟨h.value_of_mem hv, h.value_ne_none (.inl hv)⟩, fun ⟨hnone, hsome⟩ => ?_⟩
  by_contra hv
  exact hsome ((h.value_of_not_mem hv).trans hnone)

theorem nodup (h : σ.Binds l σ') : (l.map (·.1)).Nodup := by
  induction h with
  | nil => exact List.nodup_nil
  | @cons σ σ' v t l hv h ih =>
    refine List.nodup_cons.mpr ⟨fun hmem => ?_, ih⟩
    have hnone := h.value_of_mem hmem
    rw [value?_bind, if_pos ⟨rfl, hv.lt⟩] at hnone
    cases hnone

end Binds

end Store

namespace Trail

variable {σ σ' : Store} {τ τ' : Trail α} {v : Var} {s t : Term} {n : Nat}

/-- The action of an entry, if it is one. -/
def Entry.action? : Entry α → Option α
  | .binding _ => none
  | .action a => some a

/-! ### Undoing changes -/

/-- Undoing the newest changes takes them off the trail, unbinds what they bound and gives their actions,
that of the newest change first. -/
theorem undoNewest_eq {older : List (Entry α)} : ∀ (n : Nat) {newer : List (Entry α)} {σ : Store}
    {τ : Trail α} {f : List α}, newer.length = n → τ.entries.toList = older ++ newer →
      (τ.undoNewest n σ f).2.1.entries.toList = older ∧
      (τ.undoNewest n σ f).2.1.marked = τ.marked ∧
      (τ.undoNewest n σ f).1.size = σ.size ∧
      (∀ v, .binding v ∈ newer → (τ.undoNewest n σ f).1.value? v = none) ∧
      (∀ v, .binding v ∉ newer → (τ.undoNewest n σ f).1.value? v = σ.value? v) ∧
      (τ.undoNewest n σ f).2.2 = f.reverse ++ (newer.filterMap Entry.action?).reverse
  | 0, newer, σ, τ, f, hn, he => by
    obtain rfl := List.length_eq_zero_iff.mp hn
    simpa [undoNewest] using he
  | n + 1, newer, σ, τ, f, hn, he => by
    obtain rfl | ⟨rest, e, rfl⟩ := List.eq_nil_or_concat newer
    · cases hn
    rw [List.concat_eq_append] at hn he ⊢
    rw [List.length_append, List.length_singleton, Nat.add_right_cancel_iff] at hn
    rw [← List.append_assoc] at he
    have hback : τ.entries.back? = some e := by
      rw [← Array.getLast?_toList, he, List.getLast?_concat]
    have hpop : τ.entries.pop.toList = older ++ rest := by
      rw [Array.toList_pop, he, List.dropLast_concat]
    cases e with
    | binding v =>
      obtain ⟨hentries, hmarked, hsize, hnew, hold, hactions⟩ :=
        undoNewest_eq n (σ := σ.unbind v) (τ := { τ with entries := τ.entries.pop }) (f := f) hn hpop
      simp only [undoNewest, hback]
      refine ⟨hentries, hmarked, by rw [hsize, Store.size_unbind], fun w hw => ?_, fun w hw => ?_, ?_⟩
      · by_cases hrest : .binding w ∈ rest
        · exact hnew w hrest
        · obtain rfl : w = v := by simpa [hrest] using hw
          rw [hold w hrest, Store.value?_unbind, if_pos rfl]
      · rw [List.mem_append, not_or, List.mem_singleton, Entry.binding.injEq] at hw
        rw [hold w hw.1, Store.value?_unbind, if_neg (Ne.symm hw.2)]
      · simp [hactions, Entry.action?]
    | action a =>
      obtain ⟨hentries, hmarked, hsize, hnew, hold, hactions⟩ :=
        undoNewest_eq n (σ := σ) (τ := { τ with entries := τ.entries.pop }) (f := a :: f) hn hpop
      simp only [undoNewest, hback]
      refine ⟨hentries, hmarked, hsize, fun w hw => hnew w (by simpa using hw),
        fun w hw => hold w fun h => hw (List.mem_append_left _ h), ?_⟩
      simp [hactions, Entry.action?]

/-- What is left after undoing to a mark: the changes recorded since are undone. -/
structure Undone (τ : Trail α) (σ : Store) (m : Nat) (r : Store × Trail α × List α) : Prop where
  /-- The older entries are left. -/
  entries : r.2.1.entries.toList = τ.entries.toList.take m
  /-- The trail records as before. -/
  marked : r.2.1.marked = τ.marked
  /-- No variable is lost. -/
  size : r.1.size = σ.size
  /-- The variables bound since are unbound. -/
  unbound : ∀ v, .binding v ∈ τ.entries.toList.drop m → r.1.value? v = none
  /-- The others keep their bindings. -/
  kept : ∀ v, .binding v ∉ τ.entries.toList.drop m → r.1.value? v = σ.value? v
  /-- The actions recorded since are run, the newest first. -/
  actions : r.2.2 = ((τ.entries.toList.drop m).filterMap Entry.action?).reverse

theorem undone_undoTo (τ : Trail α) (σ : Store) (m : Nat) : Undone τ σ m (τ.undoTo m σ) := by
  have hsize : (τ.entries.toList.drop m).length = τ.size - m := by
    rw [List.length_drop, Array.length_toList, size]
  obtain ⟨hentries, hmarked, hsize, hnew, hold, hactions⟩ := undoNewest_eq (τ.size - m) (σ := σ)
    (f := []) hsize (List.take_append_drop m τ.entries.toList).symm
  exact ⟨hentries, hmarked, hsize, hnew, hold, hactions⟩

theorem length_toList_entries (τ : Trail α) : τ.entries.toList.length = τ.size :=
  Array.length_toList

/-! ### Unification -/

/-- The trail after bindings have been recorded. -/
def recordAll (τ : Trail α) (l : List (Var × Term)) : Trail α :=
  l.foldl (fun τ b => τ.record (.binding b.1)) τ

@[simp] theorem marked_recordAll (τ : Trail α) (l : List (Var × Term)) :
    (τ.recordAll l).marked = τ.marked := by
  induction l generalizing τ with
  | nil => rfl
  | cons b l ih => rw [recordAll, List.foldl_cons, ← recordAll, ih, marked_record]

theorem entries_record (hτ : τ.marked = true) (e : Entry α) :
    (τ.record e).entries.toList = τ.entries.toList ++ [e] := by
  rw [record, if_pos hτ, Array.toList_push]

theorem entries_recordAll (hτ : τ.marked = true) (l : List (Var × Term)) :
    (τ.recordAll l).entries.toList = τ.entries.toList ++ l.map fun b => .binding b.1 := by
  induction l generalizing τ with
  | nil => simp [recordAll]
  | cons b l ih =>
    rw [recordAll, List.foldl_cons, ← recordAll, ih ((marked_record _ τ).trans hτ), entries_record hτ,
      List.map_cons, List.append_assoc, List.singleton_append]

end Trail

section Unification

variable {σ σ' : Store} {τ τ' : Trail α} {v : Var} {s t : Term} {n : Nat}
  {pairs rest : List (Term × Term)}

/-- The readings that unification does in at most `n` steps end. -/
def Store.ReadsPairs : Nat → List (Term × Term) → Store → Trail α → Prop
  | n + 1, (s, t) :: rest, σ, τ => σ.Reads s ∧ σ.Reads t ∧
    ∀ x, unifyStep s t rest σ τ = some x → ReadsPairs n x.1 x.2.1 x.2.2
  | _, _, _, _ => True

/-- A step of unification binds an unbound variable, and records that, or nothing. -/
theorem binds_of_unifyStep (hs : σ.Reads s) (ht : σ.Reads t) {x : List (Term × Term) × Store × Trail α}
    (hstep : unifyStep s t rest σ τ = some x) :
    ∃ l, σ.Binds l x.2.1 ∧ x.2.2 = τ.recordAll l := by
  have hmove := move_unifyStep s t rest σ τ
  rw [hstep] at hmove
  generalize hs' : σ.deref s = s' at hmove
  generalize ht' : σ.deref t = t' at hmove
  cases hmove with
  | @left v u => exact ⟨[(v, t')], .cons (hs v hs') (.nil _), rfl⟩
  | @right v u => exact ⟨[(v, s')], .cons (ht v ht') (.nil _), rfl⟩
  | _ => exact ⟨[], .nil σ, rfl⟩

theorem Store.Binds.append {σ'' : Store} {l l' : List (Var × Term)} (h : σ.Binds l σ')
    (h' : σ'.Binds l' σ'') : σ.Binds (l ++ l') σ'' := by
  induction h with
  | nil => exact h'
  | cons hv _ ih => exact .cons hv (ih h')

/-! ### Where reading ends -/

/-- All variables in the term have been made. -/
def Store.Knows (σ : Store) (t : Term) : Prop :=
  ∀ v, t.Occurs v → v.id < σ.size

/-- All variables in bindings have been made. -/
def Store.Closed (σ : Store) : Prop :=
  ∀ v t, σ.value? v = some t → σ.Knows t

theorem Store.Closed.deref (hσ : σ.Closed) (ht : σ.Knows t) : σ.Knows (σ.deref t) := by
  have hwithin : ∀ (n : Nat) (t : Term), σ.Knows t → σ.Knows (σ.derefWithin n t) := by
    intro n
    induction n with
    | zero =>
      intro t ht
      cases t <;> simpa [Store.derefWithin] using ht
    | succ n ih =>
      intro t ht
      cases t with
      | var v =>
        cases hv : σ.value? v with
        | none => simpa [Store.derefWithin, hv] using ht
        | some t => simpa [Store.derefWithin, hv] using ih t (hσ v t hv)
      | _ => simpa [Store.derefWithin] using ht
  exact hwithin _ t ht

theorem Store.Closed.bind (hσ : σ.Closed) (ht : σ.Knows t) (v : Var) : (σ.bind v t).Closed := by
  intro w u hw x hx
  rw [Store.size_bind]
  rw [Store.value?_bind] at hw
  split at hw
  · cases hw
    exact ht x hx
  · exact hσ w u hw x hx

theorem Store.Rooted.reads (h : σ.Rooted) (hσ : σ.Closed) (ht : σ.Knows t) : σ.Reads t :=
  fun v hv => ⟨hσ.deref ht v (hv ▸ .var), h.value?_of_deref hv⟩

/-- Readings end unless variables are bound to each other in a circle. -/
theorem Store.Rooted.readsPairs : ∀ (n : Nat) {pairs : List (Term × Term)} {σ : Store} {τ : Trail α},
    σ.Rooted → σ.Closed → (∀ p ∈ pairs, σ.Knows p.1 ∧ σ.Knows p.2) → σ.ReadsPairs n pairs τ
  | 0, _, _, _, _, _, _ => trivial
  | _ + 1, [], _, _, _, _, _ => trivial
  | n + 1, (s, t) :: rest, σ, τ, h, hσ, hpairs => by
    rw [List.forall_mem_cons] at hpairs
    obtain ⟨⟨hs, ht⟩, hrest⟩ := hpairs
    refine ⟨h.reads hσ hs, h.reads hσ ht, fun x hstep => ?_⟩
    have hrooted := (grown_of_unifyStep h hstep).2
    have hmove := move_unifyStep s t rest σ τ
    have hs := hσ.deref hs
    have ht := hσ.deref ht
    rw [hstep] at hmove
    generalize σ.deref s = s' at *
    generalize σ.deref t = t' at *
    have hbind {v : Var} {u : Term} (hu : σ.Knows u) :
        (σ.bind v u).Closed ∧ ∀ p ∈ rest, (σ.bind v u).Knows p.1 ∧ (σ.bind v u).Knows p.2 := by
      refine ⟨hσ.bind hu v, fun p hp => ?_⟩
      unfold Store.Knows
      rw [Store.size_bind]
      exact hrest p hp
    cases hmove with
    | left => exact Store.Rooted.readsPairs n hrooted (hbind ht).1 (hbind ht).2
    | right => exact Store.Rooted.readsPairs n hrooted (hbind hs).1 (hbind hs).2
    | arguments i j f ss ts =>
      refine Store.Rooted.readsPairs n hrooted hσ fun p hp => ?_
      obtain hp | hp := List.mem_append.mp hp
      · exact ⟨fun v hv => hs v (.compound (List.of_mem_zip hp).1 hv),
          fun v hv => ht v (.compound (List.of_mem_zip hp).2 hv)⟩
      · exact hrest p hp
    | _ => exact Store.Rooted.readsPairs n hrooted hσ hrest

/-- In so many steps unification makes these bindings, in their order, and records them. -/
structure Makes (k : Nat) (pairs : List (Term × Term)) (σ : Store) (τ : Trail α)
    (l : List (Var × Term)) : Prop where
  /-- They are made. -/
  binds : σ.Binds l (unifyPairs k pairs σ τ).2.1
  /-- They are recorded. -/
  trail : (unifyPairs k pairs σ τ).2.2 = τ.recordAll l

theorem makes_nil {k : Nat} (h : (unifyPairs k pairs σ τ).2 = (σ, τ)) : Makes k pairs σ τ [] where
  binds := by rw [h]; exact .nil σ
  trail := by rw [h]; rfl

theorem Makes.cons {x : List (Term × Term) × Store × Trail α} {first l : List (Var × Term)} {k : Nat}
    (hstep : unifyStep s t rest σ τ = some x) (hfirst : σ.Binds first x.2.1)
    (hrecord : x.2.2 = τ.recordAll first) (hl : Makes k x.1 x.2.1 x.2.2 l) :
    Makes (k + 1) ((s, t) :: rest) σ τ (first ++ l) where
  binds := by
    rw [unifyPairs_cons, hstep, Option.elim_some]
    exact hfirst.append hl.binds
  trail := by
    rw [unifyPairs_cons, hstep, Option.elim_some, hl.trail, hrecord, Trail.recordAll, Trail.recordAll,
      Trail.recordAll, List.foldl_append]

/-- Unification binds unbound variables and records them, and the bindings it has made after some of its
steps are the first ones of all. -/
theorem makes_unifyPairs (n : Nat) {pairs : List (Term × Term)} {σ : Store} {τ : Trail α}
    (h : σ.ReadsPairs n pairs τ) :
    ∃ l, Makes n pairs σ τ l ∧ ∀ k ≤ n, ∃ l', l' <+: l ∧ Makes k pairs σ τ l' := by
  have hnone {n : Nat} {pairs : List (Term × Term)} {σ : Store} {τ : Trail α}
      (h : ∀ k, (unifyPairs k pairs σ τ).2 = (σ, τ)) :
      ∃ l, Makes n pairs σ τ l ∧ ∀ k ≤ n, ∃ l', l' <+: l ∧ Makes k pairs σ τ l' :=
    ⟨[], makes_nil (h n), fun k _ => ⟨[], List.prefix_rfl, makes_nil (h k)⟩⟩
  induction n generalizing pairs σ τ with
  | zero =>
    refine ⟨[], makes_nil (by rw [unifyPairs]), fun k hk => ⟨[], List.prefix_rfl, makes_nil ?_⟩⟩
    rw [Nat.le_zero.mp hk, unifyPairs]
  | succ n ih =>
    cases pairs with
    | nil => exact hnone fun k => by cases k <;> simp [unifyPairs]
    | cons pair rest =>
      obtain ⟨s, t⟩ := pair
      obtain ⟨hs, ht, hrest⟩ := h
      cases hstep : unifyStep s t rest σ τ with
      | none =>
        refine hnone fun k => ?_
        cases k with
        | zero => rw [unifyPairs]
        | succ k => rw [unifyPairs_cons, hstep, Option.elim_none]
      | some x =>
        obtain ⟨first, hfirst, hrecord⟩ := binds_of_unifyStep hs ht hstep
        obtain ⟨l, hl, hprefixes⟩ := ih (hrest x hstep)
        refine ⟨first ++ l, hl.cons hstep hfirst hrecord, fun k hk => ?_⟩
        cases k with
        | zero => exact ⟨[], List.nil_prefix, makes_nil (by rw [unifyPairs])⟩
        | succ k =>
          obtain ⟨l', hprefix, hl'⟩ := hprefixes k (Nat.le_of_succ_le_succ hk)
          exact ⟨first ++ l', (List.prefix_append_right_inj first).mpr hprefix,
            hl'.cons hstep hfirst hrecord⟩

/-- Undoing what unification has recorded takes its bindings back, and runs no action. -/
theorem Makes.undone {k : Nat} {l : List (Var × Term)} (h : Makes k pairs σ τ l) (hτ : τ.marked = true) :
    (∀ v, ((unifyPairs k pairs σ τ).2.2.undoTo τ.size (unifyPairs k pairs σ τ).2.1).1.value? v =
      σ.value? v) ∧
    ((unifyPairs k pairs σ τ).2.2.undoTo τ.size (unifyPairs k pairs σ τ).2.1).2.1.entries = τ.entries ∧
    ((unifyPairs k pairs σ τ).2.2.undoTo τ.size (unifyPairs k pairs σ τ).2.1).2.2 = [] := by
  have hundone := Trail.undone_undoTo (unifyPairs k pairs σ τ).2.2 (unifyPairs k pairs σ τ).2.1 τ.size
  have hentries := Trail.entries_recordAll hτ l
  rw [← h.trail] at hentries
  have hdrop : (unifyPairs k pairs σ τ).2.2.entries.toList.drop τ.size = l.map fun b => .binding b.1 := by
    rw [hentries, ← Trail.length_toList_entries, List.drop_left]
  refine ⟨fun v => ?_, Array.toList_inj.mp ?_, ?_⟩
  · by_cases hv : v ∈ l.map (·.1)
    · rw [h.binds.value_of_mem hv]
      refine hundone.unbound v ?_
      rw [hdrop]
      simpa using hv
    · rw [← h.binds.value_of_not_mem hv]
      refine hundone.kept v ?_
      rw [hdrop]
      simpa using hv
  · rw [hundone.entries, hentries, ← Trail.length_toList_entries, List.take_left]
  · rw [hundone.actions, hdrop]
    simp [List.filterMap_map, Trail.Entry.action?, Function.comp_def]

/-- If unification fails, no variable has got or lost a binding, the entries of the trail are the same and
no action has been run. If it succeeds, the new entries of the trail are those of the variables that have
got a binding, each once, and in the order in which they got it: after any number of steps the first
ones have. -/
theorem unify_exact (n : Nat) (s t : Term) (σ : Store) (τ : Trail α)
    (h : σ.ReadsPairs n [(s, t)] τ.mark.2) :
    ((unify n s t σ τ).1 = some false → (∀ v, (unify n s t σ τ).2.1.value? v = σ.value? v) ∧
      (unify n s t σ τ).2.2.entries = τ.entries ∧
      ((unifyInPlace n s t σ τ.mark.2).2.2.undoTo τ.mark.1 (unifyInPlace n s t σ τ.mark.2).2.1).2.2 = []) ∧
    ((unify n s t σ τ).1 = some true → ∃ vs : List Var,
      (unify n s t σ τ).2.2.entries.toList = τ.entries.toList ++ vs.map .binding ∧ vs.Nodup ∧
      (∀ v, v ∈ vs ↔ σ.value? v = none ∧ (unify n s t σ τ).2.1.value? v ≠ none) ∧
      (∀ v, v ∉ vs → (unify n s t σ τ).2.1.value? v = σ.value? v) ∧
      ∀ k ≤ n, ∃ j, ∀ v, v ∈ vs.take j ↔
        σ.value? v = none ∧ (unifyInPlace k s t σ τ.mark.2).2.1.value? v ≠ none) := by
  obtain ⟨l, hl, hprefixes⟩ := makes_unifyPairs n h
  obtain ⟨hvalue, hentries, hactions⟩ := hl.undone (Trail.marked_mark τ)
  constructor
  · intro hfalse
    unfold unify at hfalse ⊢
    dsimp only at hfalse ⊢
    split at hfalse
    · rename_i hanswer
      rw [if_pos hanswer]
      exact ⟨hvalue, hentries, hactions⟩
    · rename_i hanswer
      exact absurd hfalse hanswer
  · intro htrue
    unfold unify at htrue ⊢
    dsimp only at htrue ⊢
    split at htrue
    · cases htrue
    · rename_i hanswer
      rw [if_neg hanswer]
      refine ⟨l.map (·.1), ?_, hl.binds.nodup, fun v => hl.binds.mem_iff,
        fun v hv => hl.binds.value_of_not_mem hv, fun k hk => ?_⟩
      · rw [unifyInPlace, hl.trail, Trail.entries_recordAll (Trail.marked_mark τ), List.map_map]
        rfl
      · obtain ⟨l', ⟨rest, rfl⟩, hl'⟩ := hprefixes k hk
        refine ⟨(l'.map (·.1)).length, fun v => ?_⟩
        rw [List.map_append, List.take_left]
        exact hl'.binds.mem_iff

end Unification

/-- Two compounds whose last arguments differ. -/
def sampleClash : Term × Term :=
  (.compound 4 ⟨2⟩ [.var ⟨0⟩, .var ⟨2⟩, .int 1], .compound 5 ⟨2⟩ [.int 7, .var ⟨0⟩, .int 2])

theorem closed_sampleBindings : sampleBindings.Closed := by
  intro v t hv w hw
  obtain ⟨rfl, rfl⟩ := value?_sampleBindings hv
  cases hw with | compound hmem hw =>
  obtain rfl := List.mem_singleton.mp hmem
  cases hw
  exact Nat.zero_lt_succ _

theorem knows_sampleClash : sampleBindings.Knows sampleClash.1 ∧ sampleBindings.Knows sampleClash.2 := by
  have hlast : ∀ n, sampleBindings.Knows (.int n) := fun n v hv => by cases hv
  have hvar : ∀ i < 3, sampleBindings.Knows (.var ⟨i⟩) := fun i hi v hv => by cases hv; exact hi
  have hargs {stamp : Nat} {tag : Tag} {args : List Term} (h : ∀ t ∈ args, sampleBindings.Knows t) :
      sampleBindings.Knows (.compound stamp tag args) := fun v hv => by
    cases hv with | compound hmem hv => exact h _ hmem v hv
  exact ⟨hargs (by simp [hlast, hvar]), hargs (by simp [hlast, hvar])⟩

/-- Before the last arguments clash, two variables have been bound, and nothing had been recorded. -/
theorem unify_exact_clash : sampleBindings.ReadsPairs 9 [sampleClash] (Trail.empty : Trail Nat).mark.2 ∧
    (unifyInPlace 9 sampleClash.1 sampleClash.2 sampleBindings (Trail.empty : Trail Nat)).2.1.value? ⟨2⟩ =
      some (.int 7) ∧
    (∀ v, (unify 9 sampleClash.1 sampleClash.2 sampleBindings (Trail.empty : Trail Nat)).2.1.value? v =
      sampleBindings.value? v) ∧
    (unify 9 sampleClash.1 sampleClash.2 sampleBindings (Trail.empty : Trail Nat)).2.2.entries = #[] := by
  have hreads : sampleBindings.ReadsPairs 9 [sampleClash] (Trail.empty : Trail Nat).mark.2 :=
    acyclic_sampleBindings.rooted.readsPairs 9 closed_sampleBindings
      (List.forall_mem_singleton.mpr knows_sampleClash)
  obtain ⟨hvalue, hentries, -⟩ :=
    (unify_exact 9 sampleClash.1 sampleClash.2 sampleBindings Trail.empty hreads).1 rfl
  exact ⟨hreads, rfl, hvalue, hentries⟩

namespace Trail

/-! ### What may happen after a mark -/

/-- What may happen from a state on, with the actions recorded, in order, and the actions that each
undoing has run. A mark that is taken on the way is not below the first one, so undoing is to any
position that is not. -/
inductive Since : Store × Trail α → List α → List (List α) → Store × Trail α → Prop
  /-- Nothing happens. -/
  | start (x : Store × Trail α) : Since x [] [] x
  /-- An unbound variable is bound. -/
  | bind {x : Store × Trail α} {acts : List α} {runs : List (List α)} {σ : Store} {τ : Trail α} {v : Var}
    (h : Since x acts runs (σ, τ)) (hv : σ.Unbound v) (t : Term) : Since x acts runs (τ.bind v t σ)
  /-- Variables and compounds are made. -/
  | make {x : Store × Trail α} {acts : List α} {runs : List (List α)} {σ σ' : Store} {τ : Trail α}
    (h : Since x acts runs (σ, τ)) (hσ : σ.Extends σ') : Since x acts runs (σ', τ)
  /-- Two terms are unified, or not, and the bindings of a failed attempt stay. -/
  | unifyInPlace {x : Store × Trail α} {acts : List α} {runs : List (List α)} {σ : Store} {τ : Trail α}
    {n : Nat} {s t : Term} (h : Since x acts runs (σ, τ)) (hreads : σ.ReadsPairs n [(s, t)] τ) :
    Since x acts runs (unifyInPlace n s t σ τ).2
  /-- Two terms are unified, or not, and the bindings of a failed attempt are undone. -/
  | unify {x : Store × Trail α} {acts : List α} {runs : List (List α)} {σ : Store} {τ : Trail α}
    {n : Nat} {s t : Term} (h : Since x acts runs (σ, τ)) (hreads : σ.ReadsPairs n [(s, t)] τ.mark.2) :
    Since x acts runs (unify n s t σ τ).2
  /-- An action is recorded. -/
  | action {x : Store × Trail α} {acts : List α} {runs : List (List α)} {σ : Store} {τ : Trail α}
    (h : Since x acts runs (σ, τ)) (a : α) : Since x (acts ++ [a]) runs (σ, τ.record (.action a))
  /-- A mark is taken. -/
  | mark {x : Store × Trail α} {acts : List α} {runs : List (List α)} {σ : Store} {τ : Trail α}
    (h : Since x acts runs (σ, τ)) : Since x acts runs (σ, τ.mark.2)
  /-- What has been recorded since a mark is undone. -/
  | undo {x : Store × Trail α} {acts : List α} {runs : List (List α)} {σ : Store} {τ : Trail α} {k : Nat}
    (h : Since x acts runs (σ, τ)) (hk : x.2.size ≤ k) :
    Since x acts (runs ++ [(τ.undoTo k σ).2.2]) ((τ.undoTo k σ).1, (τ.undoTo k σ).2.1)
  /-- The trail is set aside, and taken up again after all that has been recorded meanwhile has been
  undone. -/
  | aside {x : Store × Trail α} {acts acts' : List α} {runs runs' : List (List α)} {σ σ' : Store}
    {τ τ' : Trail α} (h : Since x acts runs (σ, τ)) (h' : Since (σ, τ.setAside.2) acts' runs' (σ', τ')) :
    Since x (acts ++ acts') (runs ++ (runs' ++ [(τ'.undoTo 0 σ').2.2]))
      ((τ'.undoTo 0 σ').1, τ.setAside.1)

/-- What can be undone after a state: the entries recorded since tell what has been bound and which
actions have not been run. -/
structure Undoable (x : Store × Trail α) (acts : List α) (runs : List (List α)) (newer : List (Entry α))
    (y : Store × Trail α) : Prop where
  /-- They are recorded behind the older ones. -/
  entries : y.2.entries.toList = x.2.entries.toList ++ newer
  /-- The trail records. -/
  marked : y.2.marked = true
  /-- What has been recorded was unbound. -/
  fresh : ∀ v, .binding v ∈ newer → x.1.value? v = none
  /-- What has not been recorded has kept its binding. -/
  kept : ∀ v, .binding v ∉ newer → y.1.value? v = x.1.value? v
  /-- Each action is still recorded or has been run. -/
  perm : (runs.flatten ++ newer.filterMap Entry.action?).Perm acts
  /-- Those that are still recorded are in order. -/
  pending : (newer.filterMap Entry.action?).Sublist acts
  /-- Each undoing has run later ones before earlier ones. -/
  reversed : ∀ r ∈ runs, r.reverse.Sublist acts

/-- All that has happened since a state has been undone. -/
structure Exact (x : Store × Trail α) (acts : List α) (runs : List (List α)) (y : Store × Trail α) : Prop
    where
  /-- The length of the trail is what it was. -/
  size : y.2.size = x.2.size
  /-- The entries of the trail are those that it had. -/
  entries : y.2.entries = x.2.entries
  /-- Every variable has the binding that it had. -/
  value : ∀ v, y.1.value? v = x.1.value? v
  /-- Every action recorded since has been run once, and no other one. -/
  perm : runs.flatten.Perm acts
  /-- Each undoing has run them in reverse order of recording. -/
  reversed : ∀ r ∈ runs, r.reverse.Sublist acts

section

variable {x y : Store × Trail α} {acts : List α} {runs : List (List α)} {newer : List (Entry α)}

/-- Undoing leaves the entries below a position, and runs the actions above it. -/
theorem Undoable.undo (h : Undoable x acts runs newer (σ, τ)) {k : Nat} (hk : x.2.size ≤ k) :
    Undoable x acts (runs ++ [(τ.undoTo k σ).2.2]) (newer.take (k - x.2.size))
      ((τ.undoTo k σ).1, (τ.undoTo k σ).2.1) := by
  have hundone := undone_undoTo τ σ k
  have hlength : x.2.entries.toList.length = x.2.size := length_toList_entries x.2
  have hdrop : τ.entries.toList.drop k = newer.drop (k - x.2.size) := by
    rw [h.entries, List.drop_append, hlength, List.drop_eq_nil_of_le (by omega), List.nil_append]
  have hactions : (τ.undoTo k σ).2.2.reverse =
      (newer.drop (k - x.2.size)).filterMap Entry.action? := by
    rw [hundone.actions, hdrop, List.reverse_reverse]
  have hsplit : newer.filterMap Entry.action? =
      (newer.take (k - x.2.size)).filterMap Entry.action? ++ (τ.undoTo k σ).2.2.reverse := by
    rw [hactions, ← List.filterMap_append, List.take_append_drop]
  have hpending := hsplit ▸ h.pending
  refine ⟨?_, hundone.marked.trans h.marked, fun v hv => h.fresh v (List.mem_of_mem_take hv),
    fun v hv => ?_, ?_, (List.sublist_append_left _ _).trans hpending, fun r hr => ?_⟩
  · rw [hundone.entries, h.entries, List.take_append, hlength, List.take_of_length_le (by omega)]
  · by_cases hdropped : .binding v ∈ newer.drop (k - x.2.size)
    · rw [h.fresh v (List.mem_of_mem_drop hdropped)]
      exact hundone.unbound v (hdrop ▸ hdropped)
    · rw [hundone.kept v (hdrop ▸ hdropped)]
      refine h.kept v ?_
      rw [← List.take_append_drop (k - x.2.size) newer, List.mem_append, not_or]
      exact ⟨hv, hdropped⟩
  · refine List.Perm.trans ?_ h.perm
    rw [hsplit, List.flatten_append, List.flatten_singleton, List.append_assoc]
    refine List.Perm.append_left _ ?_
    exact List.perm_append_comm.trans (List.Perm.append_left _ (List.reverse_perm _).symm)
  · obtain hr | hr := List.mem_append.mp hr
    · exact h.reversed r hr
    · obtain rfl := List.mem_singleton.mp hr
      exact (List.sublist_append_right _ _).trans hpending

/-- Undoing to the state makes it as it was. -/
theorem Undoable.exact (h : Undoable x acts runs newer (σ, τ)) :
    Exact x acts (runs ++ [(τ.undoTo x.2.size σ).2.2])
      ((τ.undoTo x.2.size σ).1, (τ.undoTo x.2.size σ).2.1) := by
  have hundo := h.undo (Nat.le_refl _)
  rw [Nat.sub_self, List.take_zero] at hundo
  have hentries := hundo.entries
  rw [List.append_nil] at hentries
  have hentries := Array.toList_inj.mp hentries
  refine ⟨by rw [size, hentries, size], hentries, fun v => hundo.kept v (by simp), ?_, hundo.reversed⟩
  simpa using hundo.perm

/-- Bindings are made and recorded. -/
theorem Undoable.binds (h : Undoable x acts runs newer (σ, τ)) {l : List (Var × Term)}
    (hbinds : σ.Binds l σ') :
    Undoable x acts runs (newer ++ l.map fun b => .binding b.1) (σ', τ.recordAll l) := by
  have hactions : (newer ++ l.map fun b : Var × Term => Entry.binding b.1).filterMap Entry.action? =
      newer.filterMap Entry.action? := by
    simp [List.filterMap_append, List.filterMap_map, Entry.action?, Function.comp_def]
  have hmem {v : Var} : Entry.binding v ∈ (newer ++ l.map fun b => .binding b.1) ↔
      .binding v ∈ newer ∨ v ∈ l.map (·.1) := by
    simp
  refine ⟨?_, ?_, fun v hv => ?_, fun v hv => ?_, hactions ▸ h.perm, hactions ▸ h.pending, h.reversed⟩
  · rw [entries_recordAll h.marked, h.entries, List.append_assoc]
  · rw [marked_recordAll, h.marked]
  · by_cases hnewer : .binding v ∈ newer
    · exact h.fresh v hnewer
    · rw [← h.kept v hnewer]
      exact hbinds.value_of_mem ((hmem.mp hv).resolve_left hnewer)
  · rw [hmem, not_or] at hv
    exact (hbinds.value_of_not_mem hv.2).trans (h.kept v hv.1)

theorem Undoable.same (h : Undoable x acts runs newer (σ, τ)) (hσ : ∀ v, σ'.value? v = σ.value? v)
    (hτ : τ'.entries = τ.entries) (hmarked : τ'.marked = true) :
    Undoable x acts runs newer (σ', τ') :=
  ⟨hτ ▸ h.entries, hmarked, h.fresh, fun v hv => (hσ v).trans (h.kept v hv), h.perm, h.pending,
    h.reversed⟩

theorem Undoable.action (h : Undoable x acts runs newer (σ, τ)) (a : α) :
    Undoable x (acts ++ [a]) runs (newer ++ [.action a]) (σ, τ.record (.action a)) := by
  have hactions : (newer ++ [Entry.action a]).filterMap Entry.action? =
      newer.filterMap Entry.action? ++ [a] := by
    simp [List.filterMap_append, Entry.action?]
  have hmem {v : Var} : Entry.binding v ∈ newer ++ [.action a] ↔ .binding v ∈ newer := by
    simp
  refine ⟨?_, (marked_record _ τ).trans h.marked, fun v hv => h.fresh v (hmem.mp hv),
    fun v hv => h.kept v (fun hnewer => hv (hmem.mpr hnewer)), ?_, ?_, fun r hr => ?_⟩
  · rw [entries_record h.marked, h.entries, List.append_assoc]
  · rw [hactions, ← List.append_assoc]
    exact h.perm.append_right [a]
  · rw [hactions]
    exact h.pending.append_right [a]
  · exact (h.reversed r hr).trans (List.sublist_append_left _ _)

/-- A search of its own is over, and all that it has recorded is undone. -/
theorem Undoable.aside (h : Undoable x acts runs newer (σ, τ)) {acts' : List α} {runs' : List (List α)}
    (h' : Exact (σ, τ.setAside.2) acts' runs' y) :
    Undoable x (acts ++ acts') (runs ++ runs') newer (y.1, τ) := by
  refine ⟨h.entries, h.marked, h.fresh, fun v hv => (h'.value v).trans (h.kept v hv), ?_,
    h.pending.trans (List.sublist_append_left _ _), fun r hr => ?_⟩
  · rw [List.flatten_append, List.append_assoc]
    refine List.Perm.trans ?_ (h.perm.append h'.perm)
    rw [List.append_assoc]
    exact List.Perm.append_left _ List.perm_append_comm
  · obtain hr | hr := List.mem_append.mp hr
    · exact (h.reversed r hr).trans (List.sublist_append_left _ _)
    · exact (h'.reversed r hr).trans (List.sublist_append_right _ _)

/-- Whatever has happened since a trail recorded can be undone. -/
theorem Since.undoable (h : Since x acts runs y) (hx : x.2.marked = true) :
    ∃ newer, Undoable x acts runs newer y := by
  induction h with
  | start x =>
    exact ⟨[], by simp, hx, by simp, by simp, by simp, by simp, by simp⟩
  | bind _ hv t ih =>
    obtain ⟨newer, h⟩ := ih hx
    exact ⟨_, h.binds (.cons hv (.nil _))⟩
  | make _ hσ ih =>
    obtain ⟨newer, h⟩ := ih hx
    exact ⟨newer, h.same hσ.value rfl h.marked⟩
  | unifyInPlace _ hreads ih =>
    obtain ⟨newer, h⟩ := ih hx
    obtain ⟨l, hl, -⟩ := makes_unifyPairs _ hreads
    have hrecorded := h.binds hl.binds
    rw [← hl.trail] at hrecorded
    exact ⟨_, hrecorded⟩
  | @unify _ _ _ σ τ n s t _ hreads ih =>
    obtain ⟨newer, h⟩ := ih hx
    obtain ⟨l, hl, -⟩ := makes_unifyPairs _ hreads
    obtain ⟨hvalue, hentries, -⟩ := hl.undone (marked_mark τ)
    have hmark : Undoable _ _ _ newer (σ, τ.mark.2) := h.same (fun _ => rfl) rfl (marked_mark τ)
    have hrecorded := hmark.binds hl.binds
    rw [← hl.trail] at hrecorded
    unfold Resolvent.unify
    dsimp only
    split
    · exact ⟨newer, hmark.same hvalue hentries ((undone_undoTo _ _ _).marked.trans hrecorded.marked)⟩
    · exact ⟨_, hrecorded⟩
  | action _ a ih =>
    obtain ⟨newer, h⟩ := ih hx
    exact ⟨_, h.action a⟩
  | mark _ ih =>
    obtain ⟨newer, h⟩ := ih hx
    exact ⟨newer, h.same (fun _ => rfl) rfl (marked_mark _)⟩
  | undo _ hk ih =>
    obtain ⟨newer, h⟩ := ih hx
    exact ⟨_, h.undo hk⟩
  | aside _ _ ih ih' =>
    obtain ⟨newer, h⟩ := ih hx
    obtain ⟨newer', h'⟩ := ih' rfl
    exact ⟨newer, h.aside h'.exact⟩

/-- Undoing to a mark, whatever has happened since, gives the trail the length and the entries that it
had, and every variable its binding, or none. All in all every action recorded since has been run once,
and none recorded before; and each undoing has run them in reverse order of recording. -/
theorem undoTo_exact {σ σ' : Store} {τ τ' : Trail α} (h : Since (σ, τ.mark.2) acts runs (σ', τ')) :
    (τ'.undoTo τ.mark.1 σ').2.1.size = τ.mark.1 ∧
    (τ'.undoTo τ.mark.1 σ').2.1.entries = τ.entries ∧
    (∀ v, (τ'.undoTo τ.mark.1 σ').1.value? v = σ.value? v) ∧
    (runs ++ [(τ'.undoTo τ.mark.1 σ').2.2]).flatten.Perm acts ∧
    ∀ r ∈ runs ++ [(τ'.undoTo τ.mark.1 σ').2.2], r.reverse.Sublist acts := by
  obtain ⟨newer, hundoable⟩ := h.undoable rfl
  obtain ⟨hsize, hentries, hvalue, hperm, hreversed⟩ := hundoable.exact
  exact ⟨hsize, hentries, hvalue, hperm, hreversed⟩

end

/-- An action, a binding, a search of its own with an action and a binding, and another action: the
binding is undone first, and in the end the other actions are run. -/
theorem undoTo_exact_sample : ∃ (σ' : Store) (τ' : Trail Nat),
    Since (sampleBindings, empty.mark.2) [1, 2, 3] [[2], []] (σ', τ') ∧
    (τ'.undoTo 0 σ').2.1.size = 0 ∧ (τ'.undoTo 0 σ').2.1.entries = #[] ∧
    (∀ v, (τ'.undoTo 0 σ').1.value? v = sampleBindings.value? v) ∧
    ([[2], []] ++ [(τ'.undoTo 0 σ').2.2]).flatten.Perm [1, 2, 3] ∧
    ∀ r ∈ [[2], []] ++ [(τ'.undoTo 0 σ').2.2], r.reverse.Sublist [1, 2, 3] := by
  have hfirst : sampleBindings.Unbound ⟨0⟩ := ⟨by decide, rfl⟩
  have hlast : (sampleBindings.bind ⟨0⟩ (.int 7)).Unbound ⟨2⟩ := ⟨by decide, rfl⟩
  have houter := ((Since.start (sampleBindings, (empty : Trail Nat).mark.2)).action 1).bind hfirst (.int 7)
  have hinner (τ : Trail Nat) := ((Since.start (_, τ.setAside.2)).action 2).bind hlast (.var ⟨0⟩)
  have h := ((houter.aside (hinner _)).undo (k := 1) (by decide)).action 3
  exact ⟨_, _, h, undoTo_exact h⟩

end Trail

end Resolvent
