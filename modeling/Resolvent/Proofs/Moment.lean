import Resolvent.Unify

/-!
# Moments of a search

A `Moment` is the part of a search that backtracking takes back: the bindings and the trail.
`Moment.Before m m'` says that `m'` is reached from `m` by steps that record what they bind, so that
undoing the trail of `m'` to the mark of `m` gives every variable the binding it had at `m`
(`Moment.Before.same_undoTo`). Variables made since `m` count as unbound at `m`, so the bindings of
all variables can be compared.

Every operation on bindings leads to a later moment: binding an unbound variable, making a variable
or a compound, unification whatever its outcome, and undoing to a mark taken since. This needs that
reading a variable ends at an unbound one, so a moment is required to be `Recording`: its trail
records, and its variables are bound to older variables only.
-/

namespace Resolvent

namespace Store

/-- Variables are bound to older variables only. -/
def Ordered (σ : Store) : Prop :=
  ∀ v w, σ.value? v = some (.var w) → w.id < v.id

theorem value?_of_size_le {σ : Store} {v : Var} (h : σ.size ≤ v.id) : σ.value? v = none := by
  have hnone : σ.bindings[v.id]? = none := Array.getElem?_eq_none h
  simp [value?, hnone]

/-- A variable that is read with enough steps is unbound. -/
theorem Ordered.value?_of_derefWithin {σ : Store} (h : σ.Ordered) {v : Var} :
    ∀ {n : Nat} {t : Term}, (∀ w, t = .var w → w.id < n ∨ σ.value? w = none) →
      σ.derefWithin n t = .var v → σ.value? v = none
  | 0, .var w, hn, hd => by
    obtain rfl : w = v := by simpa [derefWithin] using hd
    exact (hn w rfl).resolve_left (Nat.not_lt_zero _)
  | n + 1, .var w, hn, hd => by
    cases hw : σ.value? w with
    | none =>
      obtain rfl : w = v := by simpa [derefWithin, hw] using hd
      exact hw
    | some t =>
      have hwn : w.id < n + 1 := (hn w rfl).resolve_right (by simp [hw])
      refine h.value?_of_derefWithin (n := n) (t := t) (fun u hu => ?_) ?_
      · subst hu
        have := h w u hw
        exact .inl (by omega)
      · simpa [derefWithin, hw] using hd
  | 0, .const c, _, hd => by simp [derefWithin] at hd
  | n + 1, .const c, _, hd => by simp [derefWithin] at hd
  | 0, .compound .., _, hd => by simp [derefWithin] at hd
  | n + 1, .compound .., _, hd => by simp [derefWithin] at hd

theorem Ordered.value?_of_deref {σ : Store} (h : σ.Ordered) {v : Var} {t : Term}
    (hd : σ.deref t = .var v) : σ.value? v = none := by
  refine h.value?_of_derefWithin (fun w _ => ?_) hd
  by_cases hw : w.id < σ.size
  · exact .inl hw
  · exact .inr (value?_of_size_le (Nat.le_of_not_lt hw))

/-- Reading with enough steps depends on the bindings only. -/
theorem Ordered.derefWithin_eq {σ σ' : Store} (h : σ.Ordered) (hv : ∀ v, σ'.value? v = σ.value? v) :
    ∀ {n m : Nat} {t : Term}, (∀ w, t = .var w → w.id < n ∨ σ.value? w = none) →
      (∀ w, t = .var w → w.id < m ∨ σ.value? w = none) → σ'.derefWithin m t = σ.derefWithin n t := by
  intro n
  induction n with
  | zero =>
    intro m t hn hm
    cases t with
    | var w =>
      have hw := (hn w rfl).resolve_left (Nat.not_lt_zero _)
      cases m <;> simp [derefWithin, hv, hw]
    | _ => cases m <;> simp [derefWithin]
  | succ n ih =>
    intro m t hn hm
    cases t with
    | var w =>
      cases hw : σ.value? w with
      | none => cases m <;> simp [derefWithin, hv, hw]
      | some u =>
        have hwn := (hn w rfl).resolve_right (by simp [hw])
        have hwm := (hm w rfl).resolve_right (by simp [hw])
        obtain ⟨m, rfl⟩ : ∃ k, m = k + 1 := ⟨m - 1, by omega⟩
        simp only [derefWithin, hv, hw]
        have hu (w' : Var) (hw' : u = .var w') : w'.id < w.id := h w w' (hw' ▸ hw)
        exact ih (fun w' hw' => .inl (by have := hu w' hw'; omega))
          fun w' hw' => .inl (by have := hu w' hw'; omega)
    | _ => cases m <;> simp [derefWithin]

/-- Reading depends on the bindings only. -/
theorem Ordered.deref_eq {σ σ' : Store} (h : σ.Ordered) (hv : ∀ v, σ'.value? v = σ.value? v)
    (t : Term) : σ'.deref t = σ.deref t := by
  have hsize {ρ : Store} (hρ : ∀ v, ρ.value? v = σ.value? v) (w : Var) :
      w.id < ρ.size ∨ σ.value? w = none := by
    by_cases hw : w.id < ρ.size
    · exact .inl hw
    · exact .inr (hρ w ▸ value?_of_size_le (Nat.le_of_not_lt hw))
  exact h.derefWithin_eq hv (fun w _ => hsize (fun _ => rfl) w) fun w _ => hsize hv w

/-- An unbound variable may be bound to what is no variable, or to an older one. -/
theorem Ordered.bind {σ : Store} (h : σ.Ordered) {v : Var} {t : Term}
    (ht : ∀ w, t = .var w → w.id < v.id) : (σ.bind v t).Ordered := by
  intro u w hu
  rw [value?_bind] at hu
  split at hu
  · rename_i huv
    rw [← huv.1]
    exact ht w (Option.some.inj hu)
  · exact h u w hu

theorem Ordered.unbind {σ : Store} (h : σ.Ordered) (v : Var) : (σ.unbind v).Ordered := by
  intro u w hu
  rw [value?_unbind] at hu
  split at hu
  · simp at hu
  · exact h u w hu

/-- Nothing is bound or unbound between two stores; variables may have been made. -/
structure Extends (σ σ' : Store) : Prop where
  /-- No variable is lost. -/
  size : σ.size ≤ σ'.size
  /-- The bindings agree. -/
  value : ∀ v, σ'.value? v = σ.value? v

namespace Extends

theorem refl (σ : Store) : σ.Extends σ :=
  ⟨Nat.le_refl _, fun _ => rfl⟩

theorem trans {σ₁ σ₂ σ₃ : Store} (h : σ₁.Extends σ₂) (h' : σ₂.Extends σ₃) : σ₁.Extends σ₃ :=
  ⟨Nat.le_trans h.size h'.size, fun v => (h'.value v).trans (h.value v)⟩

theorem ordered {σ σ' : Store} (h : σ.Extends σ') (ho : σ.Ordered) : σ'.Ordered :=
  fun v w hv => ho v w (h.value v ▸ hv)

theorem fresh (σ : Store) : σ.Extends σ.fresh.2 :=
  ⟨by simp, fun v => by simp⟩

theorem compound (tag : Tag) (args : List Term) (σ : Store) :
    σ.Extends (σ.compound tag args).2 :=
  ⟨by simp, fun v => by simp⟩

theorem copyNodes (nodes : List Node) :
    ∀ (stack : List Term) (ρ : Renaming) (σ : Store),
      σ.Extends (Store.copyNodes nodes stack ρ σ).2.2 := by
  induction nodes with
  | nil => exact fun _ _ σ => refl σ
  | cons node rest ih =>
    intro stack ρ σ
    cases node with
    | var v =>
      rw [Store.copyNodes]
      split
      · exact ih ..
      · exact (fresh σ).trans (ih ..)
    | const c => exact ih ..
    | functor tag arity => exact (compound tag (stack.take arity).reverse σ).trans (ih ..)

theorem copyWith (t : Term) (ρ : Renaming) (σ : Store) : σ.Extends (σ.copyWith t ρ).2.2 :=
  copyNodes ..

theorem copy (t : Term) (σ : Store) : σ.Extends (σ.copy t).2 :=
  copyWith ..

end Extends

end Store

namespace Moment

/-- The mark that would be taken now. -/
def mark (m : Moment) : Nat :=
  m.trail.size

/-- The entries of the trail, oldest first. -/
def entries (m : Moment) : List (Trail.Entry Empty) :=
  m.trail.entries.toList

@[simp] theorem length_entries (m : Moment) : m.entries.length = m.mark := rfl

/-- The entries recorded since an earlier moment. -/
def since (m m' : Moment) : List (Trail.Entry Empty) :=
  m'.entries.drop m.mark

/-- Changes are recorded, and variables are bound to older variables only. -/
structure Recording (m : Moment) : Prop where
  /-- The trail records. -/
  marked : m.trail.marked = true
  /-- Reading a variable ends. -/
  ordered : m.store.Ordered

/-- Nothing has been bound or recorded between two moments; variables may have been made. -/
structure Same (m m' : Moment) : Prop where
  /-- The later moment records. -/
  recording : m'.Recording
  /-- No variable is lost. -/
  size : m.store.size ≤ m'.store.size
  /-- The trails agree. -/
  entries : m'.entries = m.entries
  /-- The bindings agree. -/
  value : ∀ v, m'.store.value? v = m.store.value? v

/-- The second moment is reached from the first one by recorded bindings. -/
structure Before (m m' : Moment) : Prop where
  /-- The later moment records. -/
  recording : m'.Recording
  /-- No variable is lost. -/
  size : m.store.size ≤ m'.store.size
  /-- The trail has grown. -/
  entries : m.entries <+: m'.entries
  /-- What has been recorded since was unbound. -/
  fresh : ∀ v, .binding v ∈ m.since m' → m.store.value? v = none
  /-- What has not been recorded since has kept its binding. -/
  kept : ∀ v, .binding v ∉ m.since m' → m'.store.value? v = m.store.value? v

theorem Before.mark_le {m m' : Moment} (h : m.Before m') : m.mark ≤ m'.mark := by
  simpa using h.entries.length_le

theorem Before.entries_eq {m m' : Moment} (h : m.Before m') :
    m'.entries = m.entries ++ m.since m' := by
  obtain ⟨new, hnew⟩ := h.entries
  rw [since, ← hnew, ← length_entries, List.drop_left]

theorem since_of_append {m m' : Moment} {new : List (Trail.Entry Empty)}
    (h : m'.entries = m.entries ++ new) : m.since m' = new := by
  rw [since, h, ← length_entries, List.drop_left]

/-- A later moment from what has been recorded in between. -/
theorem Before.of_append {m m' : Moment} {l : List (Trail.Entry Empty)} (hm : m'.Recording)
    (hs : m.store.size ≤ m'.store.size) (he : m'.entries = m.entries ++ l)
    (hf : ∀ v, .binding v ∈ l → m.store.value? v = none)
    (hk : ∀ v, .binding v ∉ l → m'.store.value? v = m.store.value? v) : m.Before m' := by
  rw [← since_of_append he] at hf hk
  exact ⟨hm, hs, he ▸ List.prefix_append .., hf, hk⟩

theorem Same.before {m m' : Moment} (h : m.Same m') : m.Before m' := by
  refine .of_append (l := []) h.recording h.size (by simpa using h.entries) ?_ ?_
  · simp
  · exact fun v _ => h.value v

theorem Same.mark_eq {m m' : Moment} (h : m.Same m') : m'.mark = m.mark := by
  rw [← length_entries, h.entries, length_entries]

theorem Same.deref {m m' : Moment} (h : m.Same m') (t : Term) :
    m'.store.deref t = m.store.deref t :=
  have ho : m.store.Ordered := fun v w hv => h.recording.ordered v w ((h.value v).trans hv)
  ho.deref_eq h.value t

theorem Same.refl {m : Moment} (h : m.Recording) : m.Same m :=
  ⟨h, Nat.le_refl _, rfl, fun _ => rfl⟩

theorem Same.trans {m₁ m₂ m₃ : Moment} (h : m₁.Same m₂) (h' : m₂.Same m₃) : m₁.Same m₃ :=
  ⟨h'.recording, Nat.le_trans h.size h'.size, h'.entries.trans h.entries,
    fun v => (h'.value v).trans (h.value v)⟩

/-- A variable that is unbound later has been unbound before. -/
theorem Before.free {m m' : Moment} (h : m.Before m') {v : Var} (hv : m'.store.value? v = none) :
    m.store.value? v = none := by
  by_cases hm : .binding v ∈ m.since m'
  · exact h.fresh v hm
  · exact (h.kept v hm).symm.trans hv

theorem Before.refl {m : Moment} (h : m.Recording) : m.Before m :=
  (Same.refl h).before

theorem Before.trans {m₁ m₂ m₃ : Moment} (h : m₁.Before m₂) (h' : m₂.Before m₃) :
    m₁.Before m₃ := by
  refine .of_append (l := m₁.since m₂ ++ m₂.since m₃) h'.recording
    (Nat.le_trans h.size h'.size) ?_ ?_ ?_
  · rw [h'.entries_eq, h.entries_eq, List.append_assoc]
  · intro v hv
    by_cases h₂ : .binding v ∈ m₁.since m₂
    · exact h.fresh v h₂
    · rw [← h.kept v h₂]
      exact h'.fresh v (by simpa [h₂] using hv)
  · intro v hv
    rw [List.mem_append, not_or] at hv
    rw [h'.kept v hv.2, h.kept v hv.1]

/-! ### Operations on bindings -/

/-- A step that binds nothing. -/
theorem same_of_extends {σ σ' : Store} {τ : Trail Empty} (h : σ.Extends σ')
    (hm : Recording ⟨σ, τ⟩) : Same ⟨σ, τ⟩ ⟨σ', τ⟩ :=
  ⟨⟨hm.marked, h.ordered hm.ordered⟩, h.size, rfl, h.value⟩

/-- Taking a mark binds nothing. -/
theorem same_mark {σ : Store} (τ : Trail Empty) (h : σ.Ordered) : Same ⟨σ, τ⟩ ⟨σ, τ.mark.2⟩ :=
  ⟨⟨rfl, h⟩, Nat.le_refl _, rfl, fun _ => rfl⟩

/-- An unbound variable gets a binding, to what is no variable or to an older one. -/
theorem before_bind {σ : Store} {τ : Trail Empty} {v : Var} {t : Term}
    (hm : Recording ⟨σ, τ⟩) (hv : σ.value? v = none) (ht : ∀ w, t = .var w → w.id < v.id) :
    Before ⟨σ, τ⟩ ⟨(τ.bind v t σ).1, (τ.bind v t σ).2⟩ := by
  have hmarked : τ.marked = true := hm.marked
  refine .of_append (l := [.binding v]) ⟨?_, ?_⟩ ?_ ?_ ?_ ?_
  · simpa [Trail.bind] using hm.marked
  · exact hm.ordered.bind ht
  · simp [Trail.bind]
  · simp [Trail.bind, Trail.record, hmarked, entries]
  · intro w hw
    rw [List.mem_singleton, Trail.Entry.binding.injEq] at hw
    rwa [hw]
  · intro w hw
    have hne : v ≠ w := fun h => hw (by simp [h])
    simp [Trail.bind, Store.value?_bind, hne]

/-- Unification leads to a later moment, whatever its outcome. -/
theorem before_unifyPairs (n : Nat) :
    ∀ (pairs : List (Term × Term)) (σ : Store) (τ : Trail Empty), Recording ⟨σ, τ⟩ →
      Before ⟨σ, τ⟩ ⟨(unifyPairs n pairs σ τ).2.1, (unifyPairs n pairs σ τ).2.2⟩ := by
  induction n with
  | zero => exact fun _ _ _ hm => .refl hm
  | succ n ih =>
    intro pairs σ τ hm
    -- a binding made first, and then the rest
    have step {v : Var} {t : Term} (rest : List (Term × Term)) (hv : σ.value? v = none)
        (ht : ∀ w, t = .var w → w.id < v.id) :
        Before ⟨σ, τ⟩ ⟨(unifyPairs n rest (τ.bind v t σ).1 (τ.bind v t σ).2).2.1,
          (unifyPairs n rest (τ.bind v t σ).1 (τ.bind v t σ).2).2.2⟩ :=
      (before_bind hm hv ht).trans (ih _ _ _ (before_bind hm hv ht).recording)
    match pairs with
    | [] => exact .refl hm
    | (s, t) :: rest =>
      rw [unifyPairs]
      split
      · rename_i v w hv hw
        have hv := hm.ordered.value?_of_deref hv
        have hw := hm.ordered.value?_of_deref hw
        split
        · exact ih _ _ _ hm
        · rename_i hne
          have hid : v.id ≠ w.id := fun h => hne (by cases v; cases w; simpa using h)
          by_cases hlt : w.id < v.id
          · simp only [if_pos hlt]
            exact step rest hv (by simpa using hlt)
          · simp only [if_neg hlt]
            exact step rest hw (by simpa using by omega)
      · rename_i v hv hne
        exact step rest (hm.ordered.value?_of_deref hv) (fun w hw => absurd hw (hne w))
      · rename_i w hw hne
        exact step rest (hm.ordered.value?_of_deref hw) (fun u hu => absurd hu (hne u))
      · split
        · exact ih _ _ _ hm
        · exact .refl hm
      · split
        · exact ih _ _ _ hm
        · split
          · exact ih _ _ _ hm
          · exact .refl hm
      · exact .refl hm
      · exact .refl hm

/-! ### Undoing -/

/-- Undoing the newest changes removes them and unbinds what they bound. -/
theorem undoNewest_append {l : List (Trail.Entry Empty)} :
    ∀ (n : Nat) {new : List (Trail.Entry Empty)} {σ : Store} {τ : Trail Empty}
      {f : List Empty}, new.length = n → τ.entries.toList = l ++ new →
      ((τ.undoNewest n σ f).2.1.entries.toList = l ∧
        (τ.undoNewest n σ f).2.1.marked = τ.marked) ∧
      ((τ.undoNewest n σ f).1.size = σ.size ∧
        (σ.Ordered → (τ.undoNewest n σ f).1.Ordered)) ∧
      (∀ v, .binding v ∈ new → (τ.undoNewest n σ f).1.value? v = none) ∧
      ∀ v, .binding v ∉ new → (τ.undoNewest n σ f).1.value? v = σ.value? v := by
  intro n
  induction n with
  | zero =>
    intro new σ τ f hn he
    rw [List.length_eq_zero_iff] at hn
    subst hn
    simpa [Trail.undoNewest] using he
  | succ n ih =>
    intro new σ τ f hn he
    obtain rfl | ⟨older, ⟨v⟩ | ⟨⟨⟩⟩, rfl⟩ := List.eq_nil_or_concat new
    · simp at hn
    rw [List.concat_eq_append] at hn he ⊢
    rw [List.length_append, List.length_singleton, Nat.add_right_cancel_iff] at hn
    rw [← List.append_assoc] at he
    have hback : τ.entries.back? = some (.binding v) := by
      rw [← Array.getLast?_toList, he, List.getLast?_concat]
    have hpop : τ.entries.pop.toList = l ++ older := by
      rw [Array.toList_pop, he, List.dropLast_concat]
    obtain ⟨hl, ⟨hsize, hordered⟩, hnew, hold⟩ :=
      ih (σ := σ.unbind v) (τ := { τ with entries := τ.entries.pop }) (f := f) hn hpop
    simp only [Trail.undoNewest, hback]
    refine ⟨hl, ⟨by simpa using hsize, fun h => hordered (h.unbind v)⟩, fun w hw => ?_,
      fun w hw => ?_⟩
    · by_cases ho : .binding w ∈ older
      · exact hnew w ho
      · rw [hold w ho, Store.value?_unbind]
        obtain rfl : v = w := by simpa [ho, eq_comm] using hw
        simp
    · rw [List.mem_append, not_or, List.mem_singleton, Trail.Entry.binding.injEq] at hw
      rw [hold w hw.1, Store.value?_unbind, if_neg (Ne.symm hw.2)]

/-- The moment after the changes since a mark have been undone. -/
def undoTo (m : Moment) (n : Nat) : Moment :=
  ⟨(m.trail.undoTo n m.store).1, (m.trail.undoTo n m.store).2.1⟩

/-- Undoing to the mark of an earlier moment brings its bindings back. -/
theorem Before.same_undoTo {m m' : Moment} (h : m.Before m') : m.Same (m'.undoTo m.mark) := by
  have hlen : (m.since m').length = m'.trail.size - m.mark := by
    simp [since, mark]
  have hu := undoNewest_append (l := m.entries) (m'.trail.size - m.mark) (f := []) hlen
    (σ := m'.store) h.entries_eq
  obtain ⟨⟨he, hmarked⟩, ⟨hsize, hordered⟩, hnew, hold⟩ := hu
  refine ⟨⟨?_, ?_⟩, ?_, he, fun v => ?_⟩
  · exact hmarked.trans h.recording.marked
  · exact hordered h.recording.ordered
  · exact Nat.le_trans h.size (Nat.le_of_eq hsize.symm)
  · by_cases hv : .binding v ∈ m.since m'
    · rw [h.fresh v hv]
      exact hnew v hv
    · rw [← h.kept v hv]
      exact hold v hv

/-- Undoing to a mark that is not older leads to a later moment. -/
theorem Before.undoTo {m m' : Moment} (h : m.Before m') {n : Nat} (hn : m.mark ≤ n) :
    m.Before (m'.undoTo n) := by
  -- what has been recorded since splits into what stays and what is undone
  let kept := (m.since m').take (n - m.mark)
  let undone := (m.since m').drop (n - m.mark)
  have hsplit : m'.entries = (m.entries ++ kept) ++ undone := by
    rw [List.append_assoc, List.take_append_drop]
    exact h.entries_eq
  have hcount : undone.length = m'.trail.size - n := by
    have hsize : m'.trail.size = m.mark + (m.since m').length := by
      rw [← length_entries, ← List.length_append, ← h.entries_eq]
      rfl
    rw [List.length_drop, hsize]
    omega
  obtain ⟨⟨hentries, hmarked⟩, ⟨hsize, hordered⟩, hnew, hold⟩ :=
    undoNewest_append (m'.trail.size - n) (f := []) (σ := m'.store) hcount hsplit
  refine .of_append (l := kept) ⟨hmarked.trans h.recording.marked, hordered h.recording.ordered⟩
    (Nat.le_trans h.size (Nat.le_of_eq hsize.symm)) hentries ?_ ?_
  · intro v hv
    exact h.fresh v (List.mem_of_mem_take hv)
  · intro v hv
    by_cases hu : .binding v ∈ undone
    · rw [h.fresh v (List.mem_of_mem_drop hu)]
      exact hnew v hu
    · have hsince : .binding v ∉ m.since m' := by
        rw [← List.take_append_drop (n - m.mark) (m.since m'), List.mem_append, not_or]
        exact ⟨hv, hu⟩
      rw [← h.kept v hsince]
      exact hold v hu

/-- Undoing to a mark keeps the entries below it. -/
theorem entries_undoTo (m : Moment) (n : Nat) : (m.undoTo n).entries = m.entries.take n := by
  have hsize : (m.entries.drop n).length = m.trail.size - n := by
    rw [List.length_drop, length_entries]
    rfl
  exact (undoNewest_append (m.trail.size - n) (f := []) (σ := m.store) (τ := m.trail) hsize
    (List.take_append_drop n m.entries).symm).1.1

@[simp] theorem mark_undoTo (m : Moment) (n : Nat) : (m.undoTo n).mark = min n m.mark := by
  rw [← length_entries, entries_undoTo, List.length_take, length_entries]

theorem Recording.undoTo {m : Moment} (h : m.Recording) (n : Nat) : (m.undoTo n).Recording := by
  have hsize : (m.entries.drop n).length = m.trail.size - n := by
    rw [List.length_drop, length_entries]
    rfl
  obtain ⟨⟨-, hmarked⟩, ⟨-, hordered⟩, -⟩ := undoNewest_append (m.trail.size - n) (f := [])
    (σ := m.store) (τ := m.trail) hsize (List.take_append_drop n m.entries).symm
  exact ⟨hmarked.trans h.marked, hordered h.ordered⟩

/-! ### Unification that undoes a failed attempt -/

section

variable {σ : Store} {τ : Trail Empty} (n : Nat) (t t' : Term) (hm : Recording ⟨σ, τ⟩)

include hm

theorem before_unify : Before ⟨σ, τ⟩ ⟨(unify n t t' σ τ).2.1, (unify n t t' σ τ).2.2⟩ := by
  have hmark := same_mark τ hm.ordered
  have hbefore := before_unifyPairs n [(t, t')] σ τ.mark.2 hmark.recording
  unfold unify
  dsimp only
  split
  · exact (hmark.trans hbefore.same_undoTo).before
  · exact hmark.before.trans hbefore

/-- A failed attempt leaves nothing behind. -/
theorem same_unify (h : (unify n t t' σ τ).1 = some false) :
    Same ⟨σ, τ⟩ ⟨(unify n t t' σ τ).2.1, (unify n t t' σ τ).2.2⟩ := by
  have hmark := same_mark τ hm.ordered
  have hbefore := before_unifyPairs n [(t, t')] σ τ.mark.2 hmark.recording
  revert h
  unfold unify
  dsimp only
  split
  · exact fun _ => hmark.trans hbefore.same_undoTo
  · rename_i hne
    exact fun h => absurd h hne

end

/-- An unbound variable can be unified with a constant. -/
theorem unify_ne_false {σ : Store} {τ : Trail Empty} {n : Nat} {t : Term} {v : Var} {c : Constant}
    (ht : σ.deref t = .var v) : (unify n t (.const c) σ τ).1 ≠ some false := by
  have hc : σ.deref (.const c) = .const c := by
    unfold Store.deref
    cases σ.size <;> rfl
  have hpairs : (unifyInPlace n t (.const c) σ τ.mark.2).1 ≠ some false := by
    rw [unifyInPlace]
    cases n with
    | zero => simp [unifyPairs]
    | succ n =>
      rw [unifyPairs, ht, hc]
      cases n <;> simp [unifyPairs]
  unfold unify
  dsimp only
  rw [if_neg hpairs]
  exact hpairs

end Moment

end Resolvent
