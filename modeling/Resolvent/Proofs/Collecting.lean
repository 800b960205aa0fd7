import Resolvent.Number
import Resolvent.Proofs.Restoring
import Resolvent.Proofs.Sharing

/-!
# Collecting solutions

`Engine.Answering` lists what a goal answers when it is executed again and again, a copy of a template
being made for each answer. Whoever collects at most `n` copies goes through as many answers
(`Engine.collectLoop_eq`): what would come behind the `n`-th is not asked for, and if the goal ends before,
this is the end of collecting too. Afterwards the search is as it was before the goal was prepared, so
every copy denotes what the template denoted when it was made (`Engine.denoting_copies`).

`findall/3` is collecting and one unification behind it.
-/

namespace Resolvent

/-! ### Lists of terms -/

namespace Universe

/-- A list is built from its last element to its first. -/
theorem list_cons (x : Term) (xs : List Term) (u : Universe) :
    list (x :: xs) (.atom .nil) u =
      compound .cons [x, (list xs (.atom .nil) u).1] (list xs (.atom .nil) u).2 := by
  rw [list, List.reverse_cons, List.foldlM_append]
  rfl

/-- A list that has been built has the elements it was built of. -/
theorem listItems?_list (σ : Store) (xs : List Term) (u : Universe) :
    σ.listItems? (list xs (.atom .nil) u).1 = some xs := by
  have hwithin : ∀ (xs found : List Term) (n : Nat),
      σ.listItemsWithin n (list xs (.atom .nil) u).1 found = some (found.reverse ++ xs) := by
    intro xs
    induction xs with
    | nil =>
      intro found n
      show σ.listItemsWithin n (.const (.atom .nil)) found = _
      rw [Store.listItemsWithin, if_pos rfl, List.append_nil]
    | cons x xs ih =>
      intro found n
      rw [list_cons]
      show σ.listItemsWithin n (.compound _ .cons [x, _]) found = _
      rw [Store.listItemsWithin, if_pos rfl, ih, List.reverse_cons, List.append_assoc,
        List.singleton_append]
  rw [Store.listItems?, hwithin, List.reverse_nil, List.nil_append]

end Universe

namespace Workspace

/-- The workspace after a template has been copied in it. -/
def copied (template : Term) (t : Workspace) : Workspace :=
  { t with database := { t.database with terms := (Universe.copy template t.database.terms).2 } }

/-- The copy. -/
def copyOf (template : Term) (t : Workspace) : Term :=
  (Universe.copy template t.database.terms).1

end Workspace

namespace Engine

open Workspace (copied copyOf)

variable {ctx : Context} {template goal : Term} {g g' g'' : PreparedGoal} {s p t t' u : Workspace}
  {l : List Workspace} {limit : Option Nat}

/-! ### Answers -/

/-- The goal is executed as long as there may be more solutions, with the workspaces of the answers in
their order; after each answer a template is copied. -/
inductive Answering (ctx : Context) (template : Term) (g : PreparedGoal) (p : Workspace) :
    List Workspace → PreparedGoal → Workspace → Prop
  | start : Answering ctx template g p [] g p
  | more {l : List Workspace} {g' g'' : PreparedGoal} {t t' : Workspace}
    (h : Answering ctx template g p l g' t) (hx : execute ctx g' t = .ok (.more, g'') t') :
    Answering ctx template g p (l ++ [t']) g'' (copied template t')

theorem encloses_copied (template : Term) (t : Workspace) : t.Encloses (copied template t) :=
  yields_onTerms.mp (encloses_onTerms (Universe.extending_copy template) t)

namespace Answering

/-- The goal is still the one that was prepared, and its search the one that has begun. -/
theorem encloses (hctx : ctx.Within) (h : Answering ctx template g p l g' t) :
    p.Encloses t ∧ g'.id = g.id ∧ g'.isNested = g.isNested := by
  induction h with
  | start => exact ⟨.refl p, rfl, rfl⟩
  | more _ hx ih =>
    obtain ⟨ht, hid, hnested⟩ := yields_ok (yields_execute hctx _ _) hx
    exact ⟨(ih.1.trans ht).trans (encloses_copied template _), hid.trans ih.2.1, hnested.trans ih.2.2⟩

/-- Every answer lies within the search. -/
theorem encloses_answer (hctx : ctx.Within) (h : Answering ctx template g p l g' t) :
    ∀ x ∈ l, p.Encloses x := by
  induction h with
  | start => exact fun x hx => absurd hx List.not_mem_nil
  | more h hx ih =>
    have ht := (yields_ok (yields_execute hctx _ _) hx).1
    intro x hmem
    obtain hmem | hmem := List.mem_append.mp hmem
    · exact ih x hmem
    · obtain rfl := List.mem_singleton.mp hmem
      exact (h.encloses hctx).1.trans ht

end Answering

theorem Begun.of_answering (hctx : ctx.Within) (hb : Begun s g p)
    (h : Answering ctx template g p l g' t) : Begun s g' p := by
  obtain ⟨-, hid, hnested⟩ := h.encloses hctx
  obtain ⟨hactive, hbase⟩ := hb
  exact ⟨hid ▸ hactive, hnested ▸ hbase⟩

/-! ### Going through the answers -/

/-- Copies are still wanted when there are fewer than the limit. -/
theorem not_any_limit (hlimit : ∀ n ∈ limit, l.length < n) :
    ¬limit.any (· ≤ (l.map (copyOf template)).reverse.length) = true := by
  rw [Option.any_eq_true]
  rintro ⟨n, hn, hle⟩
  rw [decide_eq_true_iff, List.length_reverse, List.length_map] at hle
  exact Nat.not_lt.mpr hle (hlimit n hn)

/-- As long as copies are still wanted, collecting goes from answer to answer. -/
theorem collectLoop_eq (h : Answering ctx template g p l g' t) (hlimit : ∀ n ∈ limit, l.length ≤ n)
    (m : Nat) : collectLoop ctx template limit (l.length + m) g [] p =
      collectLoop ctx template limit m g' (l.map (copyOf template)).reverse t := by
  induction h generalizing m with
  | start => rw [List.length_nil, Nat.zero_add]; rfl
  | @more l g' g'' t t' _ hx ih =>
    rw [List.length_append, List.length_singleton] at hlimit ⊢
    rw [Nat.add_assoc, ih (fun n hn => Nat.le_of_succ_le (hlimit n hn)) (1 + m), Nat.add_comm 1 m,
      collectLoop, if_neg (not_any_limit hlimit)]
    simp only [Bind.bind, EStateM.bind, hx, List.map_append, List.map_cons, List.map_nil,
      List.reverse_append, List.reverse_cons, List.reverse_nil, List.nil_append, List.cons_append]
    rfl

/-- When as many copies have been made as are wanted, the goal is not asked any more. -/
theorem collectLoop_of_limit (hl : limit = some l.length) (m : Nat) :
    collectLoop ctx template limit (m + 1) g (l.map (copyOf template)).reverse t =
      .ok (l.map (copyOf template), .last, g) t := by
  have hreached : limit.any (· ≤ (l.map (copyOf template)).reverse.length) = true := by
    simp [hl]
  rw [collectLoop, if_pos hreached, List.reverse_reverse]
  rfl

/-- The execution behind the answers does not leave more solutions to come: its outcome, the workspace of
its answer if it is one, and the goal and the workspace that it leads to. -/
inductive Ending (ctx : Context) (template : Term) (g : PreparedGoal) (t : Workspace) :
    GoalOutcome → List Workspace → PreparedGoal → Workspace → Prop
  | last {g' : PreparedGoal} {t' : Workspace} (hx : execute ctx g t = .ok (.last, g') t') :
    Ending ctx template g t .last [t'] g' (copied template t')
  | ended {g' : PreparedGoal} {t' : Workspace} {o : GoalOutcome} (hx : execute ctx g t = .ok (o, g') t')
    (hmore : o ≠ .more) (hlast : o ≠ .last) : Ending ctx template g t o [] g' t'

variable {o : GoalOutcome} {l' : List Workspace}

/-- What the goal ends with before there are as many copies as are wanted ends the loop. -/
theorem Ending.collectLoop_eq (h : Ending ctx template g t o l' g' t')
    (hlimit : ∀ n ∈ limit, l.length < n) (m : Nat) :
    collectLoop ctx template limit (m + 1) g (l.map (copyOf template)).reverse t =
      .ok ((l ++ l').map (copyOf template), o, g') t' := by
  rw [collectLoop, if_neg (not_any_limit hlimit), List.map_append]
  cases h with
  | last hx =>
    simp only [Bind.bind, EStateM.bind, hx, List.reverse_cons, List.reverse_reverse]
    rfl
  | ended hx hmore hlast =>
    simp only [Bind.bind, EStateM.bind, hx, List.map_nil, List.append_nil, List.reverse_reverse]
    cases o with
    | more => exact absurd rfl hmore
    | last => exact absurd rfl hlast
    | _ => rfl

/-- The goal is still the one that was prepared, and its search the one that has begun. -/
theorem Ending.encloses (hctx : ctx.Within) (h : Ending ctx template g t o l' g' t') :
    t.Encloses t' ∧ g'.id = g.id ∧ g'.isNested = g.isNested ∧ ∀ x ∈ l', t.Encloses x := by
  cases h with
  | last hx =>
    obtain ⟨ht, hid, hnested⟩ := yields_ok (yields_execute hctx _ _) hx
    exact ⟨ht.trans (encloses_copied template _), hid, hnested, List.forall_mem_singleton.mpr ht⟩
  | ended hx =>
    obtain ⟨ht, hid, hnested⟩ := yields_ok (yields_execute hctx _ _) hx
    exact ⟨ht, hid, hnested, fun x hx => absurd hx List.not_mem_nil⟩

/-- Collecting is preparing, going through the answers, and stopping. -/
theorem collect_eq {found : List Term} (hp : prepare goal s = .ok g p)
    (h : Answering ctx template g p l g' t) (hlimit : ∀ n ∈ limit, l.length ≤ n)
    (hfuel : l.length < ctx.fuel) (hloop : ∀ m, collectLoop ctx template limit (m + 1) g'
      (l.map (copyOf template)).reverse t = .ok (found, o, g'') t')
    (hstop : stop ctx g'' t' = .ok () u) : collect ctx template goal limit s = o.collected found u := by
  obtain ⟨m, hm⟩ : ∃ m, ctx.fuel = l.length + (m + 1) := ⟨ctx.fuel - l.length - 1, by omega⟩
  have hall : collectLoop ctx template limit ctx.fuel g [] p = .ok (found, o, g'') t' := by
    rw [hm, Engine.collectLoop_eq h hlimit, hloop]
  simp only [collect, Bind.bind, EStateM.bind, hp, hall, hstop]

/-! ### What is left -/

/-- The copies denote what the template denoted in the workspaces of the answers. -/
def Denoting (template : Term) (l : List Workspace) (u : Workspace) : Prop :=
  ∀ x ∈ l, (x.database.terms.store.resolve template).Variant
    (u.database.terms.store.resolve (copyOf template x))

/-- A copy made in the search denotes the same when the search is over. -/
theorem denoting_copies (hb : Begun s g p) (hs : s.database.terms.store.Ordered)
    (hbase : s.engine.active.isSome ∨ s.moment.mark = 0) (hl : ∀ x ∈ l, p.Encloses x)
    (hu : s.Restored u) : Denoting template l u := by
  intro x hx
  -- the search has begun with an empty trail, and no variable has been lost since
  have hsize : s.database.terms.store.size ≤ x.database.terms.store.size := by
    obtain ⟨d, hd, ⟨-, -, rfl⟩ | ⟨-, hnone, rfl⟩⟩ := hb.base
    · have hrecording : (Workspace.parked ⟨d, s.engine⟩).awake.moment.Recording :=
        ⟨rfl, hd.store.ordered hs⟩
      exact hd.store.size.trans ((hl x hx).before _ rfl (.refl hrecording)).size
    · have hrecording : (Workspace.awake ⟨d, s.engine⟩).moment.Recording :=
        ⟨rfl, hd.store.ordered hs⟩
      have hzero : (Workspace.awake ⟨d, s.engine⟩).moment.mark = 0 :=
        hbase.resolve_left (by simp [hnone])
      exact hd.store.size.trans ((hl x hx).before _ hzero (.refl hrecording)).size
  have hfree : (copyOf template x).Over (u.database.terms.store.value? · = none) :=
    (x.database.terms.store.over_copy template).imp fun v hv =>
      (hu.store.value v).trans (Store.value?_of_size_le (hsize.trans hv.1))
  rw [hfree.resolve_eq]
  exact x.database.terms.store.variant_copy template

/-- Where a goal cannot be searched for, nothing is left but code. -/
theorem restored_of_contains (he : u.engine = s.engine) (hd : s.database.Contains u.database) :
    s.Restored u := by
  obtain ⟨d, e⟩ := u
  obtain rfl : e = s.engine := he
  exact ⟨hd.symbols, hd.store, rfl, rfl, rfl, rfl, fun _ => rfl, rfl, rfl, rfl⟩

/-- Collecting leaves the search as it was, whatever it ends with. -/
theorem restored_collect (hctx : ctx.Within) (hs : s.database.terms.store.Ordered)
    (hbase : s.engine.active.isSome ∨ s.moment.mark = 0 ∧ s.engine.choices.points = #[])
    (template goal : Term) (limit : Option Nat) : Yields (collect ctx template goal limit) s
      (fun _ u => s.Restored u) fun e u => e ≠ .spent → s.Restored u := by
  rw [collect, yields_bind]
  refine (begun_prepare s goal).imp (fun g p hg => ?_) fun e u hu _ => restored_of_contains hu.2.1 hu.2.2
  obtain ⟨⟨hactive, hstart⟩, -⟩ := hg
  rw [yields_bind]
  refine (yields_collectLoop hctx template limit ctx.fuel g [] p).imp (fun r t hr => ?_)
    fun e _ he hne => absurd he hne
  obtain ⟨found, o, g'⟩ := r
  obtain ⟨ht, hid, hnested⟩ := hr
  dsimp only at hid hnested ⊢
  rw [yields_bind]
  refine (begun_stop hctx ⟨hid ▸ hactive, hnested ▸ hstart⟩ ht).imp (fun _ u hu => ?_)
    fun e _ he hne => absurd he hne
  have hrestored := hu.2 hs hbase
  cases o with
  | halted status => exact fun _ => hrestored
  | raised e => exact fun _ => hrestored
  | _ => exact hrestored

/-- A goal that is stopped after it has been executed leaves the search as it was. -/
theorem denoting_of_stop (hctx : ctx.Within) (hs : s.database.terms.store.Ordered)
    (hbase : s.engine.active.isSome ∨ s.moment.mark = 0 ∧ s.engine.choices.points = #[])
    (hb : Begun s g p) (ht : p.Encloses t) (hl : ∀ x ∈ l, p.Encloses x)
    (hstop : stop ctx g t = .ok () u) : Denoting template l u :=
  denoting_copies hb hs (hbase.imp_right (·.1)) hl ((yields_ok (begun_stop hctx hb ht) hstop).2 hs hbase)

end Engine

/-! ### Solutions as a list -/

namespace Builtin

open Engine Workspace

variable {ctx : Context} {args : Array Term} {redo : Bool} {s u : Workspace} {found : List Term}

/-- What collecting ends with without an answer ends `findall/3`. -/
theorem findall_of_error {e : Stop}
    (h : collect ctx (argument args 0) (argument args 1) none s = .error e u) :
    execute ctx redo args .findall s = .error e u := by
  simp only [execute, runFindall, Bind.bind, EStateM.bind, h]

/-- The workspace after a list has been built. -/
def listed (found : List Term) (u : Workspace) : Workspace :=
  { u with database := { u.database with terms := (Universe.list found (.atom .nil) u.database.terms).2 } }

/-- The list. -/
def listOf (found : List Term) (u : Workspace) : Term :=
  (Universe.list found (.atom .nil) u.database.terms).1

/-- `findall/3` unifies its third argument with the list of what has been collected. -/
theorem findall_of_ok (h : collect ctx (argument args 0) (argument args 1) none s = .ok found u) :
    execute ctx redo args .findall s =
      ((fun b => if b then Answer.last else .fail) <$>
        Engine.unify ctx.fuel (argument args 2) (listOf found u)) (listed found u) := by
  simp only [execute, runFindall, Bind.bind, EStateM.bind, h]
  rfl

theorem extends_listed (found : List Term) (u : Workspace) :
    u.database.terms.store.Extends (listed found u).database.terms.store :=
  (Universe.extending_list found (.atom .nil) u.database.terms).store

/-- A unification that fails leaves all variables as they were. -/
theorem value?_of_unify {k : Nat} {x y : Term} {w : Workspace} (hu : u.database.terms.store.Ordered)
    (h : Engine.unify k x y u = .ok false w) (v : Var) :
    w.database.terms.store.value? v = u.database.terms.store.value? v := by
  have hyields : Yields (Engine.unify k x y) u (fun b w => b = false →
      ∀ v, w.database.terms.store.value? v = u.database.terms.store.value? v) fun _ _ => True := by
    rw [Engine.unify, yields_bind, yields_onBindings]
    -- a mark is taken before anything is bound
    have hsame := Moment.same_unify (τ := u.engine.trail.mark.2) k x y ⟨rfl, hu⟩
    cases hanswer : (Resolvent.unify k x y u.database.terms.store u.engine.trail).1 with
    | none => trivial
    | some b =>
      rintro rfl v
      exact (hsame hanswer).value v
  exact yields_ok hyields h rfl v

end Builtin

/-- Whether the outcome is a solution without others to come. -/
def GoalOutcome.isLast : GoalOutcome → Bool
  | .last => true
  | _ => false

theorem GoalOutcome.eq_last_of_isLast {o : GoalOutcome} (h : o.isLast) : o = .last := by
  cases o with
  | last => rfl
  | _ => cases h

namespace Engine

open Workspace (copied copyOf)

/-- Whoever collects solutions gets a copy of the template for each answer of the goal, in their order, as
long as copies are wanted; what the goal would do then does not matter. If the goal ends before with an
exception or by asking for the end of the run, so does collecting. The search is as it was then, and so it
is for `findall/3` but for the unification of its third argument with the list of the copies. -/
theorem collect_answers {host : Host} (hhost : host.Within) (k : Nat) {s : Workspace}
    (hs : s.database.terms.store.Ordered) (hbase : s.engine.active.isSome ∨ s.engine.active = none ∧
      s.engine.trail.entries = #[] ∧ s.engine.choices.points = #[]) (template goal : Term) :
    -- whatever happens, the search is as it was
    (∀ limit found u, collect (Solver.context host k) template goal limit s = .ok found u →
      s.Restored u) ∧
    (∀ limit e u, collect (Solver.context host k) template goal limit s = .error e u → e ≠ .spent →
      s.Restored u) ∧
    -- a goal that cannot be searched for
    (∀ e u, prepare goal s = .error e u →
      ∀ limit, collect (Solver.context host k) template goal limit s = .error e u) ∧
    (∀ g p l g' t, prepare goal s = .ok g p →
      Answering (Solver.context host k) template g p l g' t → l.length < k →
      -- there are as many answers as copies are wanted
      (∀ u, stop (Solver.context host k) g' t = .ok () u → Denoting template l u ∧
        collect (Solver.context host k) template goal (some l.length) s =
          .ok (l.map (copyOf template)) u) ∧
      -- the goal ends before
      ∀ o l' g'' t', Ending (Solver.context host k) template g' t o l' g'' t' →
        ∀ u, stop (Solver.context host k) g'' t' = .ok () u → Denoting template (l ++ l') u ∧
          ∀ limit : Option Nat, (∀ n ∈ limit, l.length < n) →
            (o = .last ∨ o = .fail → collect (Solver.context host k) template goal limit s =
              .ok ((l ++ l').map (copyOf template)) u) ∧
            (∀ status, o = .halted status →
              collect (Solver.context host k) template goal limit s = .error (.halted status) u) ∧
            ∀ e, o = .raised e →
              collect (Solver.context host k) template goal limit s = .error (.thrown e) u) ∧
    -- the list of all solutions
    ∀ args redo, Builtin.argument args 0 = template → Builtin.argument args 1 = goal →
      (∀ e u, collect (Solver.context host k) template goal none s = .error e u →
        Builtin.execute (Solver.context host k) redo args .findall s = .error e u) ∧
      ∀ found u, collect (Solver.context host k) template goal none s = .ok found u → ∃ list u',
        u.database.terms.store.Extends u'.database.terms.store ∧ u'.engine = u.engine ∧
        u'.database.terms.store.listItems? list = some found ∧
        (∀ a w, Builtin.execute (Solver.context host k) redo args .findall s = .ok a w →
          a = .last ∧ unify k (Builtin.argument args 2) list u' = .ok true w ∨
          a = .fail ∧ unify k (Builtin.argument args 2) list u' = .ok false w ∧
            ∀ v, w.database.terms.store.value? v = u.database.terms.store.value? v) ∧
        ∀ b w, unify k (Builtin.argument args 2) list u' = .ok b w →
          Builtin.execute (Solver.context host k) redo args .findall s =
            .ok (if b then .last else .fail) w := by
  have hctx := Solver.within_context hhost k
  have hempty : s.engine.active.isSome ∨ s.moment.mark = 0 ∧ s.engine.choices.points = #[] :=
    hbase.imp_right fun ⟨_, hentries, hpoints⟩ => ⟨congrArg Array.size hentries, hpoints⟩
  have hk : (Solver.context host k).fuel = k := by cases k <;> rfl
  have hrestored := restored_collect hctx hs hempty template goal
  refine ⟨fun limit found u h => ?_, fun limit e u h => ?_, fun e u hp limit => ?_,
    fun g p l g' t hp h hfuel => ?_, fun args redo htemplate hgoal => ?_⟩
  · exact yields_ok (Q := fun _ u => s.Restored u) (hrestored limit) h
  · exact yields_error (E := fun e u => e ≠ .spent → s.Restored u) (hrestored limit) h
  · simp only [collect, Bind.bind, EStateM.bind, hp]
  · have hb := (yields_ok (begun_prepare s goal) hp).1.of_answering hctx h
    have ht := (h.encloses hctx).1
    have hl := h.encloses_answer hctx
    refine ⟨fun u hstop => ⟨denoting_of_stop hctx hs hempty hb ht hl hstop, ?_⟩,
      fun o l' g'' t' hend u hstop => ⟨?_, fun limit hlimit => ?_⟩⟩
    · exact collect_eq hp h (by simp) (hk.symm ▸ hfuel) (fun m => collectLoop_of_limit rfl m) hstop
    · obtain ⟨ht', hid, hnested, hl'⟩ := hend.encloses hctx
      obtain ⟨hactive, hstart⟩ := hb
      refine denoting_of_stop hctx hs hempty ⟨hid ▸ hactive, hnested ▸ hstart⟩ (ht.trans ht')
        (fun x hx => ?_) hstop
      exact (List.mem_append.mp hx).elim (hl x) fun hx => ht.trans (hl' x hx)
    · have hcollect := collect_eq hp h (fun n hn => Nat.le_of_lt (hlimit n hn)) (hk.symm ▸ hfuel)
        (fun m => hend.collectLoop_eq hlimit m) hstop
      refine ⟨?_, ?_, ?_⟩
      · rintro (rfl | rfl) <;> exact hcollect
      · rintro status rfl
        exact hcollect
      · rintro e rfl
        exact hcollect
  · subst htemplate hgoal
    refine ⟨fun e u h => Builtin.findall_of_error h, fun found u h => ?_⟩
    have hu := yields_ok (restored_collect hctx hs hempty _ _ none) h
    have hlisted := Builtin.extends_listed found u
    have hordered := hlisted.ordered (hu.store.ordered hs)
    refine ⟨Builtin.listOf found u, Builtin.listed found u, hlisted, rfl,
      Universe.listItems?_list _ found _, fun a w hw => ?_, fun b w hw => ?_⟩
    · rw [Builtin.findall_of_ok h, hk] at hw
      simp only [Functor.map, EStateM.map] at hw
      split at hw
      · rename_i b w' hunify
        obtain ⟨rfl, rfl⟩ := EStateM.Result.ok.inj hw
        cases b with
        | true => exact .inl ⟨rfl, hunify⟩
        | false =>
          refine .inr ⟨rfl, hunify, fun v => ?_⟩
          exact (Builtin.value?_of_unify hordered hunify v).trans (hlisted.value v)
      · cases hw
    · rw [Builtin.findall_of_ok h, hk]
      simp only [Functor.map, EStateM.map, hw]

/-- While there are choice points of one goal, the solutions of another one are collected; the template is
the variable that it binds. -/
theorem collect_answers_nested :
    let ctx := Solver.context .none 20
    let x := Term.var ⟨0⟩
    ∃ g s r q r₁ t₁ r₂ t₂ u, firstAnswer ctx heldGoal (.varied .initial) = .ok (.more, g) s ∧
      s.engine.choices.points ≠ #[] ∧ prepare rangeGoal s = .ok r q ∧
      execute ctx r q = .ok (.more, r₁) t₁ ∧
      execute ctx r₁ (copied x t₁) = .ok (.last, r₂) t₂ ∧ stop ctx r₂ (copied x t₂) = .ok () u ∧
      collect ctx x rangeGoal none s = .ok [copyOf x t₁, copyOf x t₂] u ∧
      Number.ofTerm? (copyOf x t₁) = some (.int 8) ∧ Number.ofTerm? (copyOf x t₂) = some (.int 9) ∧
      Denoting x [t₁, t₂] u ∧ s.Restored u := by
  intro ctx x
  have hrun : (((answer? (firstAnswer ctx heldGoal) (.varied .initial)).filter fun a =>
        a.1.1.isOpen && !a.2.engine.choices.points.isEmpty).bind fun a =>
      (answer? (prepare rangeGoal) a.2).bind fun b =>
      ((answer? (execute ctx b.1) b.2).filter fun c =>
        c.1.1.isOpen && Number.ofTerm? (copyOf x c.2) = some (.int 8)).bind fun c =>
      ((answer? (execute ctx c.1.2) (copied x c.2)).filter fun e =>
        e.1.1.isLast && Number.ofTerm? (copyOf x e.2) = some (.int 9)).bind fun e =>
      answer? (stop ctx e.1.2) (copied x e.2)).isSome := by
    decide +kernel
  obtain ⟨⟨⟨⟩, u⟩, hrun⟩ := Option.isSome_iff_exists.mp hrun
  obtain ⟨⟨⟨o, g⟩, s⟩, hx, hrun⟩ := Option.bind_eq_some_iff.mp hrun
  obtain ⟨⟨r, q⟩, hq, hrun⟩ := Option.bind_eq_some_iff.mp hrun
  obtain ⟨⟨⟨o₁, r₁⟩, t₁⟩, h₁, hrun⟩ := Option.bind_eq_some_iff.mp hrun
  obtain ⟨⟨⟨o₂, r₂⟩, t₂⟩, h₂, hu⟩ := Option.bind_eq_some_iff.mp hrun
  obtain ⟨hx, hs⟩ := Option.filter_eq_some_iff.mp hx
  obtain ⟨h₁, hopen₁⟩ := Option.filter_eq_some_iff.mp h₁
  obtain ⟨h₂, hlast⟩ := Option.filter_eq_some_iff.mp h₂
  rw [Bool.and_eq_true, Bool.not_eq_true', Array.isEmpty_eq_false_iff] at hs
  rw [Bool.and_eq_true, decide_eq_true_iff] at hopen₁ hlast
  obtain rfl : o = .more := GoalOutcome.eq_more_of_isOpen hs.1
  obtain rfl : o₁ = .more := GoalOutcome.eq_more_of_isOpen hopen₁.1
  obtain rfl : o₂ = .last := GoalOutcome.eq_last_of_isLast hlast.1
  rw [answer?_eq_some] at hx hq h₁ h₂ hu
  obtain ⟨hactive, hordered⟩ := ordered_heldGoal hx
  obtain ⟨hrestored, -, -, hanswers, -⟩ :=
    collect_answers Host.within_none 20 hordered (.inl hactive) x rangeGoal
  -- the first answer leaves more to come, and the second one is the last
  obtain ⟨hdenoting, hend⟩ :=
    (hanswers r q [t₁] r₁ _ hq (.more .start h₁) (by simp)).2 .last [t₂] r₂ _ (.last h₂) u hu
  have hcollect : collect ctx x rangeGoal none s = .ok [copyOf x t₁, copyOf x t₂] u :=
    (hend none (by simp)).1 (.inl rfl)
  exact ⟨g, s, r, q, r₁, t₁, r₂, t₂, u, hx, hs.2, hq, h₁, h₂, hu, hcollect, hopen₁.2, hlast.2, hdenoting,
    hrestored none _ u hcollect⟩

end Engine

end Resolvent
