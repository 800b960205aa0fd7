import Resolvent.Proofs.Fitting

/-!
# Goals that fit

A goal is made of trees. Those of a body that is taken apart are parts of it, so they fit the symbols
if it does and have no other variables (`Body.each_ofTree`), and a clause taken apart has trees over
its own variables (`Rule.fits_ofClause`). A body that calls an atom enters its tag into the symbols.
-/

namespace Resolvent

/-- The tree fits the symbols, and the set holds its variables. -/
structure Tree.Usable (s : Symbols) (V : Var → Prop) (t : Tree) : Prop where
  /-- It fits. -/
  fits : t.Fits s
  /-- Its variables are in the set. -/
  vars : ∀ v, .var v ∈ t.nodes → V v

namespace Tree

theorem mem_nodesAll {node : Node} {ts : List Tree} :
    node ∈ nodesAll ts ↔ ∃ t ∈ ts, node ∈ t.nodes := by
  induction ts with
  | nil => simp [nodesAll]
  | cons t ts ih => simp [nodesAll, ih]

namespace Usable

variable {s : Symbols} {V : Var → Prop}

theorem mono {s' : Symbols} {t : Tree} (hs : s.Extends s') (h : t.Usable s V) : t.Usable s' V :=
  ⟨h.fits.mono hs, h.vars⟩

theorem var {v : Var} (hv : V v) : (Tree.var v).Usable s V :=
  ⟨.var v, fun w hw => by simp only [nodes, List.mem_singleton, Node.var.injEq] at hw; exact hw ▸ hv⟩

theorem arg {tag : Tag} {args : List Tree} (h : (Tree.compound tag args).Usable s V) {t : Tree}
    (ht : t ∈ args) : t.Usable s V := by
  obtain ⟨hfits, hvars⟩ := h
  cases hfits with | compound _ hargs =>
  exact ⟨hargs t ht, fun v hv => hvars v (by
    rw [nodes, List.mem_append]
    exact .inl (mem_nodesAll.mpr ⟨t, ht, hv⟩))⟩

theorem arity {tag : Tag} {args : List Tree} (h : (Tree.compound tag args).Usable s V) :
    s.HasArity tag args.length := by
  cases h.fits with | compound h _ => exact h

end Usable

end Tree

mutual

/-- The trees of the goal have a property. -/
def Goal.Each (P : Tree → Prop) : Goal → Prop
  | .callVar v => P (.compound (.call 0) [.var v])
  | .succeed | .fail | .cut => True
  | .either x y | .ifThen x y => Body.Each P x ∧ Body.Each P y
  | .ifThenElse x y z => Body.Each P x ∧ Body.Each P y ∧ Body.Each P z
  | .negation x => Body.Each P x
  | .unify x y => P x ∧ P y
  | .raise x => P x
  | .guard x catcher y => Body.Each P x ∧ P catcher ∧ Body.Each P y
  | .call tag args => P (.compound tag args)

/-- The trees of the goals have a property. -/
def Body.Each (P : Tree → Prop) : List Goal → Prop
  | [] => True
  | g :: gs => Goal.Each P g ∧ Body.Each P gs

end

mutual

theorem Goal.Each.imp {P Q : Tree → Prop} (h : ∀ t, P t → Q t) : ∀ {g : Goal}, g.Each P → g.Each Q
  | .callVar _, hg | .unify .., hg | .raise _, hg | .call .., hg => by
    simp only [Goal.Each] at hg ⊢
    grind
  | .succeed, _ | .fail, _ | .cut, _ => by simp only [Goal.Each]
  | .either .., hg | .ifThen .., hg => by
    rw [Goal.Each] at hg ⊢
    exact ⟨Body.each_imp h hg.1, Body.each_imp h hg.2⟩
  | .ifThenElse .., hg => by
    rw [Goal.Each] at hg ⊢
    exact ⟨Body.each_imp h hg.1, Body.each_imp h hg.2.1, Body.each_imp h hg.2.2⟩
  | .negation _, hg => by
    rw [Goal.Each] at hg ⊢
    exact Body.each_imp h hg
  | .guard .., hg => by
    rw [Goal.Each] at hg ⊢
    exact ⟨Body.each_imp h hg.1, h _ hg.2.1, Body.each_imp h hg.2.2⟩

theorem Body.each_imp {P Q : Tree → Prop} (h : ∀ t, P t → Q t) : ∀ {gs : List Goal},
    Body.Each P gs → Body.Each Q gs
  | [], _ => trivial
  | g :: gs, hg => by
    rw [Body.Each] at hg ⊢
    exact ⟨Goal.Each.imp h hg.1, Body.each_imp h hg.2⟩

end

mutual

theorem Goal.each_true : ∀ g : Goal, g.Each fun _ => True
  | .callVar _ | .succeed | .fail | .cut | .unify .. | .raise _ | .call .. => by
    simp only [Goal.Each, and_true]
  | .either x y | .ifThen x y => by
    rw [Goal.Each]
    exact ⟨Body.each_true x, Body.each_true y⟩
  | .ifThenElse x y z => by
    rw [Goal.Each]
    exact ⟨Body.each_true x, Body.each_true y, Body.each_true z⟩
  | .negation x => by
    rw [Goal.Each]
    exact Body.each_true x
  | .guard x _ y => by
    rw [Goal.Each]
    exact ⟨Body.each_true x, trivial, Body.each_true y⟩

theorem Body.each_true : ∀ gs : List Goal, Body.Each (fun _ => True) gs
  | [] => trivial
  | g :: gs => by
    rw [Body.Each]
    exact ⟨Goal.each_true g, Body.each_true gs⟩

end

namespace Body

theorem each_iff {P : Tree → Prop} {gs : List Goal} : Each P gs ↔ ∀ g ∈ gs, g.Each P := by
  induction gs with
  | nil => simp [Each]
  | cons g gs ih => simp [Each, ih]

theorem each_reverse {P : Tree → Prop} {gs : List Goal} : Each P gs.reverse ↔ Each P gs := by
  simp [each_iff]

theorem each_either {P : Tree → Prop} {x y : List Goal} (hx : Each P x) (hy : Each P y) :
    (either x y).Each P := by
  unfold either
  split
  · rename_i c t _
    rw [Each, Goal.Each] at hx
    rw [Goal.Each]
    exact ⟨hx.1.1, hx.1.2, hy⟩
  · rw [Goal.Each]
    exact ⟨hx, hy⟩

variable {V : Var → Prop}

/-- A body taken apart has goals over the trees in it. -/
theorem each_readGoals : ∀ (t : Tree) (found : List Goal) (s : Symbols), s.Started → t.Usable s V →
    Each (Tree.Usable s V) found → Yields (readGoals t found) s
      (fun gs s' => s.Extends s' ∧ Each (Tree.Usable s' V) gs) fun _ _ => True
  | .var v, found, s, hs, ht, hfound => ⟨.refl s, by
    rw [Each, Goal.Each]
    refine ⟨⟨.compound (hs.hasArity_call (by decide)) (by simpa using ht.fits), fun w hw => ?_⟩,
      hfound⟩
    exact ht.vars w (by simpa [Tree.nodes, Tree.nodesAll] using hw)⟩
  | .const (.atom a), found, s, hs, _, hfound => by
    have hplain (g : Goal) (hg : g.Each (Tree.Usable s V)) : s.Extends s ∧
        Each (Tree.Usable s V) (g :: found) := ⟨.refl s, by rw [Each]; exact ⟨hg, hfound⟩⟩
    rw [readGoals]
    split_ifs
    · exact hplain .succeed (by simp only [Goal.Each])
    · exact hplain .fail (by simp only [Goal.Each])
    · exact hplain .cut (by simp only [Goal.Each])
    · have hext : s.Extends (s.tag a 0).2 := .tag a 0 s
      refine ⟨hext, ?_⟩
      rw [Each, Goal.Each]
      refine ⟨⟨.compound (.tag hs.filed a 0) (by simp), fun v hv => ?_⟩,
        each_imp (fun t => .mono hext) hfound⟩
      simp [Tree.nodes, Tree.nodesAll] at hv
  | .const (.int _), _, _, _, _, _ | .const (.big _), _, _, _, _, _
  | .const (.rat _), _, _, _, _, _ | .const (.float _), _, _, _, _, _
  | .const (.host _), _, _, _, _, _ => trivial
  | .compound tag [a, b], found, s, hs, ht, hfound => by
    have hplain (g : Goal) (hg : g.Each (Tree.Usable s V)) : s.Extends s ∧
        Each (Tree.Usable s V) (g :: found) := ⟨.refl s, by rw [Each]; exact ⟨hg, hfound⟩⟩
    have ha : a.Usable s V := ht.arg (by simp)
    have hb : b.Usable s V := ht.arg (by simp)
    -- both sides read one after the other, and made one goal
    have hpair (f : List Goal → List Goal → Goal) (hf : ∀ s' x y, Each (Tree.Usable s' V) x →
        Each (Tree.Usable s' V) y → (f x y).Each (Tree.Usable s' V)) :
        Yields (do
          let a ← readGoals a []
          let b ← readGoals b []
          return f a.reverse b.reverse :: found) s
          (fun gs s' => s.Extends s' ∧ Each (Tree.Usable s' V) gs) fun _ _ => True := by
      rw [yields_bind]
      refine (each_readGoals a [] s hs ha trivial).imp (fun x s₁ h₁ => ?_) fun _ _ h => h
      rw [yields_bind]
      refine (each_readGoals b [] s₁ (hs.mono h₁.1) (hb.mono h₁.1) trivial).imp
        (fun y s₂ h₂ => ?_) fun _ _ h => h
      refine ⟨h₁.1.trans h₂.1, ?_⟩
      rw [Each]
      exact ⟨hf _ _ _ (each_reverse.mpr (each_imp (fun t => .mono h₂.1) h₁.2))
        (each_reverse.mpr h₂.2), each_imp (fun t => .mono (h₁.1.trans h₂.1)) hfound⟩
    rw [readGoals]
    split_ifs
    · rw [yields_bind]
      refine (each_readGoals a found s hs ha hfound).imp (fun x s₁ h₁ => ?_) fun _ _ h => h
      exact (each_readGoals b x s₁ (hs.mono h₁.1) (hb.mono h₁.1) h₁.2).imp
        (fun y s₂ h₂ => ⟨h₁.1.trans h₂.1, h₂.2⟩) fun _ _ h => h
    · exact hpair either fun _ _ _ => each_either
    · exact hpair .ifThen fun _ _ _ hx hy => by rw [Goal.Each]; exact ⟨hx, hy⟩
    · exact hplain _ (by rw [Goal.Each]; exact ⟨ha, hb⟩)
    · exact hplain _ (by rw [Goal.Each]; exact ht)
  | .compound tag [a], found, s, hs, ht, hfound => by
    have ha : a.Usable s V := ht.arg (by simp)
    rw [readGoals]
    split_ifs
    · rw [yields_bind]
      refine (each_readGoals a [] s hs ha trivial).imp (fun x s₁ h₁ => ⟨h₁.1, ?_⟩) fun _ _ h => h
      rw [Each, Goal.Each]
      exact ⟨each_reverse.mpr h₁.2, each_imp (fun t => .mono h₁.1) hfound⟩
    · refine ⟨.refl s, ?_⟩
      rw [Each, Goal.Each]
      exact ⟨ha, hfound⟩
    · refine ⟨.refl s, ?_⟩
      rw [Each, Goal.Each]
      exact ⟨ht, hfound⟩
  | .compound tag [a, b, c], found, s, hs, ht, hfound => by
    have ha : a.Usable s V := ht.arg (by simp)
    have hb : b.Usable s V := ht.arg (by simp)
    have hc : c.Usable s V := ht.arg (by simp)
    rw [readGoals]
    split_ifs
    · rw [yields_bind]
      refine (each_readGoals a [] s hs ha trivial).imp (fun x s₁ h₁ => ?_) fun _ _ h => h
      rw [yields_bind]
      refine (each_readGoals c [] s₁ (hs.mono h₁.1) (hc.mono h₁.1) trivial).imp
        (fun y s₂ h₂ => ?_) fun _ _ h => h
      have hext := h₁.1.trans h₂.1
      refine ⟨hext, ?_⟩
      rw [Each, Goal.Each]
      exact ⟨⟨each_reverse.mpr (each_imp (fun t => .mono h₂.1) h₁.2), hb.mono hext,
        each_reverse.mpr h₂.2⟩, each_imp (fun t => .mono hext) hfound⟩
    · refine ⟨.refl s, ?_⟩
      rw [Each, Goal.Each]
      exact ⟨ht, hfound⟩
  | .compound _ [], found, s, _, ht, hfound
  | .compound _ (_ :: _ :: _ :: _ :: _), found, s, _, ht, hfound => ⟨.refl s, by
    rw [Each, Goal.Each]
    exact ⟨ht, hfound⟩⟩
termination_by structural t => t

/-- A body taken apart has goals over the trees in it. -/
theorem each_ofTree {t : Tree} {s : Symbols} (hs : s.Started) (ht : t.Usable s V) :
    Yields (ofTree t) s (fun gs s' => s.Extends s' ∧ Each (Tree.Usable s' V) gs)
      fun _ _ => True := by
  rw [ofTree, yields_bind]
  exact (each_readGoals t [] s hs ht trivial).imp
    (fun gs s' h => ⟨h.1, each_reverse.mpr h.2⟩) fun _ _ h => h

end Body

/-! ### Clauses -/

theorem Var.mem_distinct {v : Var} {vs : List Var} (h : v ∈ vs) : v ∈ Var.distinct vs := by
  rw [distinct, List.mem_reverse]
  -- what has been seen has been found
  suffices hfold : ∀ (vs : List Var) (seen : Std.TreeMap Nat Unit) (found : List Var),
      (∀ w : Var, seen.contains w.id → w ∈ found) → v ∈ vs ∨ v ∈ found →
      v ∈ (vs.foldl see (seen, found)).2 from
    hfold vs ∅ [] (fun w hw => by simp at hw) (.inl h)
  intro vs
  induction vs with
  | nil => exact fun seen found _ h => h.resolve_left List.not_mem_nil
  | cons w vs ih =>
    intro seen found hseen h
    rw [List.foldl_cons, see]
    rw [List.mem_cons] at h
    split
    · rename_i hw
      refine ih seen found hseen ?_
      obtain (rfl | h) | h := h
      · exact .inr (hseen v hw)
      · exact .inl h
      · exact .inr h
    · refine ih _ _ (fun u hu => ?_) ?_
      · rw [Std.TreeMap.contains_insert, Bool.or_eq_true, beq_iff_eq] at hu
        obtain hu | hu := hu
        · obtain rfl : w = u := congrArg Var.mk (Std.LawfulEqCmp.eq_of_compare hu)
          exact List.mem_cons_self
        · exact List.mem_cons_of_mem _ (hseen u hu)
      · obtain (rfl | h) | h := h
        · exact .inr List.mem_cons_self
        · exact .inl h
        · exact .inr (List.mem_cons_of_mem _ h)

/-- The head of the clause has the tag, its arguments counted in words of 32 bits. -/
def Clause.Heads (c : Clause) (u : Universe) (tag : Tag) : Prop :=
  match u.store.deref c.head with
  | .const (.atom _) => u.symbols.HasArity tag 0
  | .compound _ f _ => f = tag
  | _ => True

namespace Store

/-- A term is read from what its binding is; an unbound variable is read as it is. -/
theorem read_of_derefWithin (σ : Store) : ∀ (n : Nat) (t : Term),
    ∃ m, σ.treeWithin n t = σ.treeWithin m (σ.derefWithin n t) ∧ ∀ v, σ.derefWithin n t = .var v → m = 0
  | 0, .var v => ⟨0, by rw [derefWithin]; simp, fun _ _ => rfl⟩
  | n + 1, .var v => by
    cases hv : σ.value? v with
    | some t =>
      rw [treeWithin, derefWithin, hv]
      exact read_of_derefWithin σ n t
    | none =>
      rw [treeWithin, derefWithin, hv]
      exact ⟨0, by rw [treeWithin], fun _ _ => rfl⟩
  | n, .const c => ⟨n, by rw [derefWithin]; simp, fun v hv => by simp [derefWithin] at hv⟩
  | n, .compound stamp tag args =>
    ⟨n, by rw [derefWithin]; simp, fun v hv => by simp [derefWithin] at hv⟩

theorem resolve_of_deref (σ : Store) (t : Term) :
    ∃ m, σ.resolve t = σ.treeWithin m (σ.deref t) ∧ ∀ v, σ.deref t = .var v → m = 0 := by
  rw [resolve_eq_treeWithin]
  exact read_of_derefWithin σ _ t

end Store

/-- The rule's trees fit the symbols and are over its variables, and its head has the tag. -/
structure Rule.Fits (s : Symbols) (tag : Tag) (r : Rule) : Prop where
  /-- The arguments of the head. -/
  args : ∀ t ∈ r.args, t.Usable s (· ∈ r.vars)
  /-- The goals of the body. -/
  body : Body.Each (Tree.Usable s (· ∈ r.vars)) r.body
  /-- The number of arguments. -/
  arity : s.HasArity tag r.args.length

theorem Rule.Fits.mono {s s' : Symbols} {tag : Tag} {r : Rule} (hs : s.Extends s')
    (h : r.Fits s tag) : r.Fits s' tag :=
  ⟨fun t ht => (h.args t ht).mono hs, Body.each_imp (fun _ => .mono hs) h.body, h.arity.mono hs⟩

/-- A clause taken apart fits. -/
theorem Rule.fits_ofClause {u : Universe} (hu : u.Fits) {tag : Tag} {c : Clause} (hc : c.Heads u tag)
    (hhead : c.head.Fits u.symbols) (hbody : c.body.Fits u.symbols) {s : Symbols}
    (hs : u.symbols.Extends s) : Yields (Rule.ofClause u.store c) s
      (fun r s' => s.Extends s' ∧ r.Fits s' tag) fun _ _ => True := by
  have hhead := (hu.store.resolve hhead).mono hs
  have hbody := (hu.store.resolve hbody).mono hs
  obtain ⟨m, hm, hzero⟩ := u.store.resolve_of_deref c.head
  have hvars (t : Tree) (ht : t = u.store.resolve c.head ∨ t = u.store.resolve c.body) (v : Var)
      (hv : .var v ∈ t.nodes) : v ∈ Var.distinct (((u.store.resolve c.head).postorder ++
        (u.store.resolve c.body).postorder).filterMap Node.var?) := by
    refine Var.mem_distinct (List.mem_filterMap.mpr ⟨.var v, ?_, rfl⟩)
    rw [List.mem_append, Tree.postorder_eq, Tree.postorder_eq]
    obtain rfl | rfl := ht
    · exact .inl hv
    · exact .inr hv
  have rest {args : List Tree} (ha : ∀ t ∈ args, t.Usable s fun v => v ∈ Var.distinct
      (((u.store.resolve c.head).postorder ++ (u.store.resolve c.body).postorder).filterMap
        Node.var?)) (hlen : s.HasArity tag args.length) : Yields (do
      return (⟨args, ← Body.ofTree (u.store.resolve c.body),
        Var.distinct (((u.store.resolve c.head).postorder ++
        (u.store.resolve c.body).postorder).filterMap Node.var?)⟩ : Rule)) s
        (fun r s' => s.Extends s' ∧ r.Fits s' tag) fun _ _ => True := by
    rw [yields_bind]
    refine (Body.each_ofTree (V := fun v => v ∈ Var.distinct
      (((u.store.resolve c.head).postorder ++ (u.store.resolve c.body).postorder).filterMap
        Node.var?)) (hu.started.mono hs) ⟨hbody, hvars _ (.inr rfl)⟩).imp
      (fun gs s' h => ⟨h.1, fun t ht => (ha t ht).mono h.1, h.2, hlen.mono h.1⟩) fun _ _ h => h
  rw [Rule.ofClause]
  simp only
  rw [Clause.Heads] at hc
  cases hd : u.store.deref c.head with
  | var v =>
    rw [hd, hzero v hd, Store.treeWithin] at hm
    rw [hm]
    trivial
  | const k =>
    rw [hd, Store.treeWithin] at hm
    rw [hd] at hc
    rw [hm]
    cases k with
    | atom a =>
      rw [hm] at rest
      exact rest (by simp) (hc.mono hs)
    | _ => trivial
  | compound stamp f args =>
    rw [hd, Store.treeWithin] at hm
    rw [hd] at hc
    obtain rfl : f = tag := hc
    have hterm : (Tree.compound f (u.store.treesWithin m args)).Usable s fun v => v ∈ Var.distinct
        (((u.store.resolve c.head).postorder ++ (u.store.resolve c.body).postorder).filterMap
          Node.var?) := ⟨hm ▸ hhead, hm ▸ hvars _ (.inl rfl)⟩
    have hrest := rest (fun t ht => hterm.arg ht) hterm.arity
    rw [hm] at hrest ⊢
    exact hrest

/-- Clauses taken apart fit. -/
theorem Rule.fits_mapM {u : Universe} (hu : u.Fits) {tag : Tag} {clauses : List Clause}
    (h : ∀ c ∈ clauses, c.Heads u tag ∧ c.head.Fits u.symbols ∧ c.body.Fits u.symbols) :
    ∀ s : Symbols, u.symbols.Extends s → Yields (clauses.mapM (Rule.ofClause u.store)) s
      (fun rules s' => s.Extends s' ∧ ∀ r ∈ rules, r.Fits s' tag) fun _ _ => True := by
  induction clauses with
  | nil => exact fun s _ => ⟨.refl s, by simp⟩
  | cons c clauses ih =>
    intro s hs
    rw [List.forall_mem_cons] at h
    obtain ⟨⟨hc, hhead, hbody⟩, hrest⟩ := h
    rw [List.mapM_cons, yields_bind]
    refine (Rule.fits_ofClause hu hc hhead hbody hs).imp (fun r s₁ h₁ => ?_) fun _ _ h => h
    rw [yields_bind]
    refine (ih hrest s₁ (hs.trans h₁.1)).imp (fun rules s₂ h₂ => ?_) fun _ _ h => h
    exact ⟨h₁.1.trans h₂.1, List.forall_mem_cons.mpr ⟨h₁.2.mono h₂.1, h₂.2⟩⟩

end Resolvent
