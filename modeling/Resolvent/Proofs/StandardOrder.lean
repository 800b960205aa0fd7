import Resolvent.Proofs.Keying

/-!
# The standard order of terms is a total order

Terms are compared without being read all the way down, with a stack of pairs, and compounds of one stamp
are not looked into. What comes out is the order of the keys of the trees that the terms denote
(`Store.order_eq`): the pairs on the stack stand for the keys that are still to be compared
(`Store.orderPairs_eq`). So the order is a total one of trees, however the terms share their parts
(`Store.order_total`).
-/

namespace Resolvent

open Relation (TransGen)

/-- Terms of different kinds have different places. -/
theorem Term.rank_ne {s t : Term} (hvars : ∀ v w, s = .var v → t = .var w → False)
    (hconsts : ∀ c d, s = .const c → t = .const d → False)
    (hcompounds : ∀ i f ss j g ts, s = .compound i f ss → t = .compound j g ts → False) :
    s.rank ≠ t.rank := by
  have hconst (c : Constant) : c.rank ≠ 0 ∧ c.rank ≠ 3 := by cases c <;> simp [Constant.rank]
  cases s with
  | var v =>
    cases t with
    | var w => exact (hvars v w rfl rfl).elim
    | const d => exact (hconst d).1.symm
    | compound j g ts => exact Nat.ne_of_beq_eq_false rfl
  | const c =>
    cases t with
    | var w => exact (hconst c).1
    | const d => exact (hconsts c d rfl rfl).elim
    | compound j g ts => exact (hconst c).2
  | compound i f ss =>
    cases t with
    | var w => exact Nat.ne_of_beq_eq_false rfl
    | const d => exact (hconst d).2.symm
    | compound j g ts => exact (hcompounds i f ss j g ts rfl rfl).elim

namespace Store

variable {σ σ' : Store} {symbols : Symbols} {built built' : Nat → Tag × List Term} {rank : Var → Nat}
  {s t u : Term} {v w : Var} {n m : Nat}

/-- The term is made of proper constants and of known functors with as many arguments as they take, and so
are the bindings that are read in it, one after the other up to an end: they do not go round in a circle.
Compounds of one stamp are the one that has been built with it. -/
inductive Proper (σ : Store) (symbols : Symbols) (built : Nat → Tag × List Term) : Term → Prop
  | unbound {v : Var} (hv : σ.value? v = none) : Proper σ symbols built (.var v)
  | bound {v : Var} {t : Term} (hv : σ.value? v = some t) (ht : Proper σ symbols built t) :
    Proper σ symbols built (.var v)
  | const {c : Constant} (hc : c.Proper symbols) : Proper σ symbols built (.const c)
  | compound {stamp : Nat} {f : Tag} {args : List Term} (hbuilt : built stamp = (f, args))
    (hf : f.index < symbols.tagCount) (harity : args.length = symbols.arity f)
    (hargs : ∀ t ∈ args, Proper σ symbols built t) : Proper σ symbols built (.compound stamp f args)

/-! ### Reading proper terms -/

/-- The numbers of variables fall where a binding is read in a proper term. -/
structure Falls (σ : Store) (symbols : Symbols) (built : Nat → Tag × List Term) (rank : Var → Nat) :
    Prop where
  /-- There are enough variables. -/
  le : ∀ v, rank v ≤ σ.size
  /-- Something may be read where there is a binding. -/
  pos : ∀ v, σ.value? v ≠ none → 0 < rank v
  /-- Less may be read after it. -/
  lt : ∀ v w, Proper σ symbols built (.var v) → σ.Mentions v w → rank w < rank v

/-- So many bindings may be read one after the other from the variables of the term. -/
def Covers (rank : Var → Nat) (n : Nat) (t : Term) : Prop :=
  ∀ v, t.Occurs v → rank v ≤ n

theorem Proper.acc (h : Proper σ symbols built t) : ∀ v, t.Occurs v → Acc (flip σ.Mentions) v := by
  induction h with
  | unbound hv =>
    rintro _ ⟨⟩
    exact ⟨_, fun w ⟨t, hv', _⟩ => by rw [hv] at hv'; cases hv'⟩
  | bound hv _ ih =>
    rintro _ ⟨⟩
    refine ⟨_, fun w ⟨t', hv', hw⟩ => ih w ?_⟩
    rw [hv] at hv'
    cases hv'
    exact hw
  | const => rintro _ ⟨⟩
  | compound _ _ _ _ ih =>
    rintro v (_ | ⟨hmem, hv⟩)
    exact ih _ hmem v hv

theorem not_transGen_of_acc {r : Var → Var → Prop} (h : Acc (flip r) v) : ¬ TransGen r v v := by
  induction h with
  | intro v _ ih =>
    intro hv
    obtain ⟨w, hvw, hwv⟩ := TransGen.head'_iff.mp hv
    exact ih w hvw (TransGen.tail' hwv hvw)

/-- The bindings that lead to an end can be numbered such that the numbers fall along them. -/
theorem exists_rank_of_acc (σ : Store) : ∃ rank : Var → Nat, (∀ v, rank v ≤ σ.size) ∧
    (∀ v, σ.value? v ≠ none → 0 < rank v) ∧
    ∀ v w, Acc (flip σ.Mentions) v → σ.Mentions v w → rank w < rank v := by
  let r (v w : Var) : Prop := Acc (flip σ.Mentions) v ∧ σ.Mentions v w
  have hr (v : Var) : ¬ TransGen r v v := by
    intro hv
    obtain ⟨w, hvw, -⟩ := TransGen.head'_iff.mp hv
    exact not_transGen_of_acc hvw.1 (TransGen.mono (fun _ _ h => h.2) v v hv)
  obtain ⟨rank, hle, hpos, hlt⟩ := Resolvent.exists_rank hr (p := fun v => σ.value? v ≠ none)
    (fun v w ⟨_, t, hv, _⟩ => by rw [hv]; exact Option.some_ne_none t) fun _ => lt_size_of_value?
  exact ⟨rank, hle, hpos, fun v w hv hw => hlt v w ⟨hv, hw⟩⟩

theorem exists_falls (σ : Store) (symbols : Symbols) (built : Nat → Tag × List Term) :
    ∃ rank, σ.Falls symbols built rank := by
  obtain ⟨rank, hle, hpos, hlt⟩ := σ.exists_rank_of_acc
  exact ⟨rank, hle, hpos, fun v w hv hw => hlt v w (hv.acc v .var) hw⟩

namespace Falls

/-- A binding that may be read covers what it leads to. -/
theorem covers_bound (h : σ.Falls symbols built rank) (hv : σ.value? v = some t)
    (ht : Proper σ symbols built t) (hn : Covers rank n (.var v)) :
    ∃ k, n = k + 1 ∧ Covers rank k t := by
  have hpos := h.pos v (by rw [hv]; exact Option.some_ne_none t)
  have hle := hn v .var
  refine ⟨n - 1, by omega, fun w hw => ?_⟩
  have := h.lt v w (.bound hv ht) ⟨t, hv, hw⟩
  omega

theorem covers_size (h : σ.Falls symbols built rank) (t : Term) : Covers rank σ.size t :=
  fun v _ => h.le v

/-- Bindings that are not on any path do not matter. -/
theorem treeWithin_eq (h : σ.Falls symbols built rank) (ht : Proper σ symbols built t) :
    ∀ {n m : Nat}, n ≤ m → Covers rank n t → σ.treeWithin m t = σ.treeWithin n t := by
  induction ht with
  | unbound hv =>
    intro n m _ _
    rw [treeWithin_unbound hv, treeWithin_unbound hv]
  | bound hv ht ih =>
    intro n m hm hn
    obtain ⟨k, rfl, hk⟩ := h.covers_bound hv ht hn
    obtain ⟨l, rfl⟩ : ∃ l, m = l + 1 := ⟨m - 1, by omega⟩
    simp only [treeWithin, hv]
    exact ih (by omega) hk
  | const =>
    intro n m _ _
    rw [treeWithin, treeWithin]
  | compound _ _ _ _ ih =>
    intro n m hm hn
    rw [treeWithin, treeWithin, treesWithin_eq_map, treesWithin_eq_map]
    congr 1
    exact List.map_congr_left fun t hmem => ih t hmem hm fun w hw => hn w (.compound hmem hw)

/-- A bound variable denotes what its binding denotes. -/
theorem resolve_bound (h : σ.Falls symbols built rank) (hv : σ.value? v = some t)
    (ht : Proper σ symbols built t) : σ.resolve (.var v) = σ.resolve t := by
  obtain ⟨k, hk, hcovers⟩ := h.covers_bound hv ht (h.covers_size _)
  rw [resolve_eq_treeWithin, resolve_eq_treeWithin, hk, treeWithin, hv]
  exact (h.treeWithin_eq ht (Nat.le_succ k) hcovers).symm

theorem proper_resolve (h : σ.Falls symbols built rank) (ht : Proper σ symbols built t) :
    (σ.resolve t).Proper symbols := by
  induction ht with
  | unbound hv => rw [resolve_unbound hv]; exact .var _
  | bound hv ht ih => rw [h.resolve_bound hv ht]; exact ih
  | const hc => rw [resolve_const]; exact .const hc
  | compound _ hf harity _ ih =>
    rw [resolve_compound]
    refine .compound hf (by rw [List.length_map, harity]) fun T hT => ?_
    obtain ⟨t, ht, rfl⟩ := List.mem_map.mp hT
    exact ih t ht

end Falls

/-- What is left of a term, and of the bindings that may be read, when its bindings have been read. -/
structure Front (σ : Store) (symbols : Symbols) (built : Nat → Tag × List Term) (rank : Var → Nat)
    (t : Term) (n : Nat) (front : Term) : Prop where
  /-- The term is a proper one. -/
  proper : Proper σ symbols built front
  /-- Enough bindings may still be read. -/
  covers : Covers rank n front
  /-- It denotes what the first term denotes. -/
  resolve : σ.resolve front = σ.resolve t
  /-- It is no bound variable. -/
  unbound : ∀ v, front = .var v → σ.value? v = none

theorem Falls.front_read (h : σ.Falls symbols built rank) (ht : Proper σ symbols built t) :
    ∀ {n : Nat}, Covers rank n t →
      σ.Front symbols built rank t (σ.read n t).1 (σ.read n t).2 := by
  induction ht with
  | @unbound v hv =>
    intro n hn
    have hread : σ.read n (.var v) = (n, .var v) := by cases n <;> simp [read, hv]
    rw [hread]
    exact ⟨.unbound hv, hn, rfl, by rintro _ ⟨⟩; exact hv⟩
  | @bound v t hv ht ih =>
    intro n hn
    obtain ⟨k, rfl, hk⟩ := h.covers_bound hv ht hn
    have hread : σ.read (k + 1) (.var v) = σ.read k t := by simp [read, hv]
    rw [hread]
    obtain ⟨hproper, hcovers, hresolve, hunbound⟩ := ih hk
    exact ⟨hproper, hcovers, hresolve.trans (h.resolve_bound hv ht).symm, hunbound⟩
  | @const c hc =>
    intro n hn
    have hread : σ.read n (.const c) = (n, .const c) := by cases n <;> rfl
    rw [hread]
    exact ⟨.const hc, hn, rfl, by rintro _ ⟨⟩⟩
  | @compound stamp f args hbuilt hf harity hargs ih =>
    intro n hn
    have hread : σ.read n (.compound stamp f args) = (n, .compound stamp f args) := by cases n <;> rfl
    rw [hread]
    exact ⟨.compound hbuilt hf harity hargs, hn, rfl, by rintro _ ⟨⟩⟩

theorem derefWithin_eq_read (σ : Store) (n : Nat) (t : Term) : σ.derefWithin n t = (σ.read n t).2 := by
  fun_induction read σ n t with
  | case1 n v t hv ih => rw [derefWithin, hv]; exact ih
  | case2 n v hv => rw [derefWithin, hv]
  | case3 n t hvar =>
    cases t with
    | var v =>
      cases n with
      | zero => rfl
      | succ n => exact absurd rfl (hvar n v rfl)
    | _ => cases n <;> rfl

theorem Falls.front_deref (h : σ.Falls symbols built rank) (ht : Proper σ symbols built t) :
    ∃ n, σ.Front symbols built rank t n (σ.deref t) := by
  rw [deref, derefWithin_eq_read]
  exact ⟨_, h.front_read ht (h.covers_size t)⟩

/-! ### Pairs of terms -/

/-- The keys of the tree that a term denotes. -/
def keys (σ : Store) (symbols : Symbols) (t : Term) : List Key :=
  (σ.resolve t).keys symbols

/-- The terms of the pair are proper, and enough bindings may be read. -/
structure Pair.Proper (σ : Store) (symbols : Symbols) (built : Nat → Tag × List Term) (rank : Var → Nat)
    (p : Pair) : Prop where
  /-- Enough bindings may be read in the first term. -/
  covers : Covers rank p.budget p.left
  /-- The first term is proper. -/
  left : Store.Proper σ symbols built p.left
  /-- The second term is proper. -/
  right : Store.Proper σ symbols built p.right

theorem Front.keys_eq (h : σ.Front symbols built rank t n u) : σ.keys symbols t = σ.keys symbols u := by
  rw [keys, keys, h.resolve]

theorem keys_unbound (hv : σ.value? v = none) : σ.keys symbols (.var v) = [v.key] := by
  rw [keys, resolve_unbound hv, Tree.keys]

theorem keys_const (c : Constant) : σ.keys symbols (.const c) = [c.key symbols] := by
  rw [keys, resolve_const, Tree.keys]

theorem keys_compound (stamp : Nat) (f : Tag) (args : List Term) :
    σ.keys symbols (.compound stamp f args) = f.key symbols :: args.flatMap (σ.keys symbols) := by
  rw [keys, resolve_compound, Tree.keys, Tree.keysAll_eq_flatMap, List.flatMap_map]
  rfl

/-- The first key is of the kind of the term. -/
theorem Front.exists_key (h : σ.Front symbols built rank t n u) :
    ∃ k ks, σ.keys symbols t = k :: ks ∧ k.rank = u.rank := by
  rw [h.keys_eq]
  cases u with
  | var v => exact ⟨_, _, keys_unbound (h.unbound v rfl), rfl⟩
  | const c => exact ⟨_, _, keys_const c, Constant.rank_key symbols c⟩
  | compound stamp f args => exact ⟨_, _, keys_compound stamp f args, rfl⟩

theorem Pair.Proper.fronts (h : σ.Falls symbols built rank) {budget : Nat} {left right : Term}
    (hp : Pair.Proper σ symbols built rank ⟨budget, left, right⟩) (hread : σ.read budget left = (n, s))
    (hderef : σ.deref right = t) :
    σ.Front symbols built rank left n s ∧ ∃ m, σ.Front symbols built rank right m t := by
  have hleft := h.front_read hp.left hp.covers
  rw [hread] at hleft
  exact ⟨hleft, hderef ▸ h.front_deref hp.right⟩

theorem compareLex_append_left {α : Type} {cmp : α → α → Ordering} [Std.ReflCmp cmp]
    (ks as bs : List α) : List.compareLex cmp (ks ++ as) (ks ++ bs) = List.compareLex cmp as bs := by
  induction ks with
  | nil => rfl
  | cons k ks ih =>
    have hself : cmp k k = .eq := Std.ReflCmp.compare_self
    rw [List.cons_append, List.cons_append, List.compareLex_cons_cons, hself, ih]
    rfl

theorem map_left_zipWith (n : Nat) : ∀ {ss ts : List Term}, ss.length = ts.length →
    (ss.zipWith (Pair.mk n) ts).map Pair.left = ss
  | [], [], _ => rfl
  | s :: ss, t :: ts, h => by
    rw [List.zipWith_cons_cons, List.map_cons, map_left_zipWith n (Nat.succ.inj h)]

theorem map_right_zipWith (n : Nat) : ∀ {ss ts : List Term}, ss.length = ts.length →
    (ss.zipWith (Pair.mk n) ts).map Pair.right = ts
  | [], [], _ => rfl
  | s :: ss, t :: ts, h => by
    rw [List.zipWith_cons_cons, List.map_cons, map_right_zipWith n (Nat.succ.inj h)]

/-- The keys of the first terms of pairs are compared with those of their second terms. -/
def compareKeys (σ : Store) (symbols : Symbols) (pairs : List Pair) : Ordering :=
  List.compareLex Key.order ((pairs.map Pair.left).flatMap (σ.keys symbols))
    ((pairs.map Pair.right).flatMap (σ.keys symbols))

/-- The first keys of the first pair decide if they differ. -/
theorem compareKeys_cons {p : Pair} {k l : Key} {ks ls : List Key} (hleft : σ.keys symbols p.left = k :: ks)
    (hright : σ.keys symbols p.right = l :: ls) (rest : List Pair) :
    σ.compareKeys symbols (p :: rest) = (Key.order k l).then (List.compareLex Key.order
      (ks ++ (rest.map Pair.left).flatMap (σ.keys symbols))
      (ls ++ (rest.map Pair.right).flatMap (σ.keys symbols))) := by
  rw [compareKeys, List.map_cons, List.map_cons, List.flatMap_cons, List.flatMap_cons, hleft, hright,
    List.cons_append, List.cons_append, List.compareLex_cons_cons]

/-- A pair of terms that denote one tree does not count. -/
theorem compareKeys_same {p : Pair} (h : σ.keys symbols p.left = σ.keys symbols p.right)
    (rest : List Pair) : σ.compareKeys symbols (p :: rest) = σ.compareKeys symbols rest := by
  rw [compareKeys, List.map_cons, List.map_cons, List.flatMap_cons, List.flatMap_cons, h,
    compareLex_append_left]
  rfl

/-- What is left to do is to compare the keys of the pairs that are left. -/
theorem orderPairs_eq (h : σ.Falls symbols built rank) (hsymbols : symbols.Distinct) (pairs : List Pair)
    (hpairs : ∀ p ∈ pairs, Pair.Proper σ symbols built rank p) :
    σ.orderPairs symbols pairs = σ.compareKeys symbols pairs := by
  fun_induction orderPairs σ symbols pairs with
  | case1 => rfl
  | case2 budget left right rest n v w hread hderef ih =>
    obtain ⟨hleft, m, hright⟩ := (hpairs _ (.head _)).fronts h hread hderef
    rw [compareKeys_cons (hleft.keys_eq.trans (keys_unbound (hleft.unbound v rfl)))
      (hright.keys_eq.trans (keys_unbound (hright.unbound w rfl))), Var.key, Var.key, Key.order_plain,
      Std.ReflOrd.compare_self, Ordering.then_eq, ih fun p hp => hpairs p (.tail _ hp)]
    rfl
  | case3 budget left right rest n c d hread hderef ih =>
    obtain ⟨hleft, m, hright⟩ := (hpairs _ (.head _)).fronts h hread hderef
    rw [compareKeys_cons (hleft.keys_eq.trans (keys_const c)) (hright.keys_eq.trans (keys_const d)),
      Constant.order_eq, ih fun p hp => hpairs p (.tail _ hp)]
    rfl
  | case4 budget left right rest n f ss stamp g ts hderef hread ih =>
    obtain ⟨hleft, m, hright⟩ := (hpairs _ (.head _)).fronts h hread hderef
    -- the compound of one stamp is one compound
    obtain _ | _ | _ | ⟨hbuilt, -, -, -⟩ := hleft.proper
    obtain _ | _ | _ | ⟨hbuilt', -, -, -⟩ := hright.proper
    obtain ⟨rfl, rfl⟩ := Prod.mk.inj (hbuilt.symm.trans hbuilt')
    rw [compareKeys_same (hleft.keys_eq.trans hright.keys_eq.symm),
      ih fun p hp => hpairs p (.tail _ hp)]
  | case5 budget left right rest n i f ss j g ts hread hderef hne horder ih =>
    obtain ⟨hleft, m, hright⟩ := (hpairs _ (.head _)).fronts h hread hderef
    obtain _ | _ | _ | ⟨-, hf, hss, hargs⟩ := hleft.proper
    obtain _ | _ | _ | ⟨-, hg, hts, hargs'⟩ := hright.proper
    rw [Tag.order_eq] at horder
    obtain rfl := Tag.eq_of_key hsymbols hf hg (Std.LawfulEqCmp.eq_of_compare horder)
    have hlength : ss.length = ts.length := hss.trans hts.symm
    have hnew : ∀ p ∈ ss.zipWith (Pair.mk n) ts ++ rest, Pair.Proper σ symbols built rank p := by
      intro p hp
      obtain hp | hp := List.mem_append.mp hp
      · obtain ⟨i, hi, rfl⟩ := List.mem_iff_getElem.mp hp
        rw [List.length_zipWith, Nat.lt_min] at hi
        rw [List.getElem_zipWith]
        have hs := List.getElem_mem hi.1
        exact ⟨fun w hw => hleft.covers w (.compound hs hw), hargs _ hs, hargs' _ (List.getElem_mem hi.2)⟩
      · exact hpairs p (.tail _ hp)
    rw [compareKeys_cons (hleft.keys_eq.trans (keys_compound i f ss))
      (hright.keys_eq.trans (keys_compound j f ts)), horder, ih hnew, compareKeys, List.map_append,
      List.map_append, map_left_zipWith n hlength, map_right_zipWith n hlength, List.flatMap_append,
      List.flatMap_append]
    rfl
  | case6 budget left right rest n i f ss j g ts hread hderef hne horder =>
    obtain ⟨hleft, m, hright⟩ := (hpairs _ (.head _)).fronts h hread hderef
    rw [compareKeys_cons (hleft.keys_eq.trans (keys_compound i f ss))
      (hright.keys_eq.trans (keys_compound j g ts)), ← Tag.order_eq]
    cases ho : f.order symbols g with
    | eq => exact absurd ho horder
    | _ => rfl
  | case7 budget left right rest n a hread hvars hconsts hcompounds ih =>
    obtain ⟨hleft, m, hright⟩ := (hpairs _ (.head _)).fronts h hread rfl
    obtain ⟨k, ks, hks, hk⟩ := hleft.exists_key
    obtain ⟨l, ls, hls, hl⟩ := hright.exists_key
    have hne : a.rank ≠ (σ.deref right).rank := Term.rank_ne (fun v w ha hb => hvars v w hb ha)
      (fun c d ha hb => hconsts c d hb ha) fun i f ss j g ts ha hb => hcompounds i f ss j g ts hb ha
    rw [compareKeys_cons hks hls, Key.order_of_rank_ne (by rwa [hk, hl]), hk, hl]
    cases hc : compare a.rank (σ.deref right).rank with
    | eq => exact absurd (Nat.compare_eq_eq.mp hc) hne
    | _ => rfl

/-! ### The order -/

/-- Terms are in the order of the trees that they denote. -/
theorem order_eq (hsymbols : symbols.Entered) (hs : Proper σ symbols built s)
    (ht : Proper σ symbols built t) :
    σ.order symbols s t = Tree.order symbols (σ.resolve s) (σ.resolve t) := by
  obtain ⟨rank, hfalls⟩ := exists_falls σ symbols built
  have hcovers : Covers rank (σ.size + circleAllowance) s :=
    fun v hv => (hfalls.covers_size s v hv).trans (Nat.le_add_right _ _)
  rw [order, orderPairs_eq hfalls hsymbols.distinct]
  · simp only [compareKeys, List.map_cons, List.map_nil, List.flatMap_cons, List.flatMap_nil,
      List.append_nil]
    rfl
  · intro p hp
    obtain rfl := List.mem_singleton.mp hp
    exact ⟨hcovers, hs, ht⟩

/-- The standard order is a total order of proper terms, and terms are equal in it exactly if they denote
the same tree. It does not depend on which parts the terms share: terms that have been built in another
way and denote the same trees are in the same order. -/
theorem order_total (hsymbols : symbols.Entered) (hs : Proper σ symbols built s)
    (ht : Proper σ symbols built t) (hu : Proper σ symbols built u) :
    σ.order symbols t s = (σ.order symbols s t).swap ∧
    (σ.order symbols s t ≠ .gt → σ.order symbols t u ≠ .gt →
      σ.order symbols s u = (σ.order symbols s t).then (σ.order symbols t u)) ∧
    (σ.order symbols s t = .eq ↔ σ.resolve s = σ.resolve t) ∧
    ∀ (σ' : Store) (built' : Nat → Tag × List Term) (s' t' : Term), Proper σ' symbols built' s' →
      Proper σ' symbols built' t' → σ'.resolve s' = σ.resolve s → σ'.resolve t' = σ.resolve t →
      σ'.order symbols s' t' = σ.order symbols s t := by
  obtain ⟨rank, hfalls⟩ := exists_falls σ symbols built
  rw [order_eq hsymbols hs ht, order_eq hsymbols ht hs, order_eq hsymbols ht hu,
    order_eq hsymbols hs hu]
  refine ⟨Std.OrientedCmp.eq_swap, Tree.order_trans, ?_, fun σ' built' s' t' hs' ht' hrs hrt => ?_⟩
  · exact Tree.order_eq_iff hsymbols.distinct (hfalls.proper_resolve hs) (hfalls.proper_resolve ht)
  · rw [order_eq hsymbols hs' ht', hrs, hrt]

/-- Three compounds with a float, an integer that is rounded to it, and a bound variable that stands for
a NaN. -/
theorem order_total_mixed :
    let symbols : Symbols := ((Symbols.empty.intern "p").2.tag ⟨0⟩ 2).2
    let σ : Store := ⟨#[some (.const (.float ⟨0x7ff8000000000000⟩)), none], 3⟩
    let s : Term := .compound 0 ⟨0⟩ [.const (.float ⟨0x4340000000000000⟩), .var ⟨1⟩]
    let t : Term := .compound 1 ⟨0⟩ [.const (.int 0x20000000000001), .var ⟨1⟩]
    let u : Term := .compound 2 ⟨0⟩ [.var ⟨0⟩, .const (.atom ⟨0⟩)]
    σ.order symbols t s = (σ.order symbols s t).swap ∧
    (σ.order symbols s t ≠ .gt → σ.order symbols t u ≠ .gt →
      σ.order symbols s u = (σ.order symbols s t).then (σ.order symbols t u)) ∧
    (σ.order symbols s t = .eq ↔ σ.resolve s = σ.resolve t) ∧
    ∀ (σ' : Store) (built' : Nat → Tag × List Term) (s' t' : Term), Proper σ' symbols built' s' →
      Proper σ' symbols built' t' → σ'.resolve s' = σ.resolve s → σ'.resolve t' = σ.resolve t →
      σ'.order symbols s' t' = σ.order symbols s t := by
  intro symbols σ s t u
  let built (stamp : Nat) : Tag × List Term :=
    (⟨0⟩, if stamp = 0 then [.const (.float ⟨0x4340000000000000⟩), .var ⟨1⟩]
      else if stamp = 1 then [.const (.int 0x20000000000001), .var ⟨1⟩]
      else [.var ⟨0⟩, .const (.atom ⟨0⟩)])
  have hsymbols : symbols.Entered := .tag (.intern .empty "p") (by decide +kernel) 2
  have hknown : 0 < symbols.tagCount := by decide +kernel
  have harity : 2 = symbols.arity ⟨0⟩ := by decide +kernel
  have hfloat (x : Binary64) : (Constant.float x).Proper symbols := ⟨by rintro _ ⟨⟩, by rintro _ ⟨⟩⟩
  have hint : (Constant.int 0x20000000000001).Proper symbols := by
    refine ⟨by rintro _ ⟨⟩, fun q hq => ?_⟩
    obtain rfl := Option.some.inj hq
    rw [Constant.ofRat_intCast, Constant.ofInt_toInt]
  have hatom : (Constant.atom ⟨0⟩).Proper symbols :=
    ⟨by rintro _ ⟨⟩; decide +kernel, by rintro _ ⟨⟩⟩
  have hvar : Proper σ symbols built (.var ⟨1⟩) := .unbound rfl
  have hnan : Proper σ symbols built (.var ⟨0⟩) := .bound rfl (.const (hfloat _))
  have hs : Proper σ symbols built s :=
    .compound rfl hknown harity (by simpa using ⟨.const (hfloat _), hvar⟩)
  have ht : Proper σ symbols built t :=
    .compound rfl hknown harity (by simpa using ⟨.const hint, hvar⟩)
  have hu : Proper σ symbols built u :=
    .compound rfl hknown harity (by simpa using ⟨hnan, .const hatom⟩)
  exact order_total hsymbols hs ht hu

end Store

end Resolvent
