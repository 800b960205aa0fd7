import Resolvent.Proofs.Growth
import Resolvent.Proofs.Reading

/-!
# Terms that fit their tags

A term fits a table of symbols if every functor in it has as many arguments as its tag says, counted
in words of 32 bits. Whoever builds compounds sees to that, and every later table is fitted too,
since tags keep their arities. A universe is fitted if the bindings of all variables are and the
table knows the control constructs.

Reading, copying and unifying terms, raising errors and taking bodies apart lead from fitting terms
to fitting terms and goals.
-/

namespace Resolvent

namespace Symbols

/-- The tag has the given number of arguments, counted in words of 32 bits. -/
def HasArity (s : Symbols) (tag : Tag) (n : Nat) : Prop :=
  ∃ a, s.pairs[tag.index]? = some (a, .ofNat n)

theorem HasArity.mono {s s' : Symbols} {tag : Tag} {n : Nat} (h : s.HasArity tag n)
    (hs : s.Extends s') : s'.HasArity tag n := by
  obtain ⟨a, ha⟩ := h
  exact ⟨a, hs.pairs _ _ ha⟩

theorem HasArity.arity_eq {s : Symbols} {tag : Tag} {n : Nat} (h : s.HasArity tag n) :
    s.arity tag = n % 0x100000000 := by
  obtain ⟨a, ha⟩ := h
  simp [Symbols.arity, Symbols.parts, ha]

theorem HasArity.arity_le {s : Symbols} {tag : Tag} {n : Nat} (h : s.HasArity tag n) :
    s.arity tag ≤ n := by
  rw [h.arity_eq]
  exact Nat.mod_le _ _

/-- A tag that has an arity has the one that the table gives it. -/
theorem HasArity.hasArity_arity {s : Symbols} {tag : Tag} {n : Nat} (h : s.HasArity tag n) :
    s.HasArity tag (s.arity tag) := by
  have heq := h.arity_eq
  obtain ⟨a, ha⟩ := h
  refine ⟨a, ha.trans ?_⟩
  rw [heq]
  congr 2
  exact UInt32.toNat_inj.mp (by simp)

theorem HasArity.tag {s : Symbols} (h : s.Filed) (a : Atom) (n : Nat) :
    (s.tag a n).2.HasArity (s.tag a n).1 n :=
  ⟨a, h.pairs_tag a n⟩

/-- The table knows the control constructs, and its names and arities are filed. -/
structure Started (s : Symbols) : Prop where
  /-- The names and arities are filed under their own positions. -/
  filed : s.Filed
  /-- The control constructs are known. -/
  control : ∀ (i : Nat) (p : Atom × UInt32), initial.pairs[i]? = some p → s.pairs[i]? = some p

theorem Started.mono {s s' : Symbols} (h : s.Started) (hs : s.Extends s') : s'.Started :=
  ⟨hs.filed h.filed, fun i p hp => hs.pairs i p (h.control i p hp)⟩

theorem filed_empty : empty.Filed :=
  fun p t h => by simp [empty] at h

theorem started_initial : initial.Started where
  filed := by
    have tagged (l : List (String × Nat)) (s : Symbols) (h : s.Filed) :
        (l.foldl (fun s p => (s.tagNamed p.1 p.2).2) s).Filed := by
      induction l generalizing s with
      | nil => exact h
      | cons p l ih => exact ih _ ((Extends.tagNamed p.1 p.2 s).filed h)
    have named (l : List String) (s : Symbols) (h : s.Filed) :
        (l.foldl (fun s n => (s.intern n).2) s).Filed := by
      induction l generalizing s with
      | nil => exact h
      | cons n l ih => exact ih _ ((Extends.intern n s).filed h)
    have called (l : List Nat) (s : Symbols) (h : s.Filed) :
        (l.foldl (fun s n => (s.tagNamed "call" (n + 1)).2) s).Filed := by
      induction l generalizing s with
      | nil => exact h
      | cons n l ih => exact ih _ ((Extends.tagNamed "call" (n + 1) s).filed h)
    exact named _ _ (tagged _ _ (named _ _ (called _ _ filed_empty)))
  control _ _ h := h

theorem Started.hasArity_call {s : Symbols} (h : s.Started) {n : Nat} (hn : n < Tag.maxCall) :
    s.HasArity (.call n) (n + 1) := by
  have hinitial : ∀ n < Tag.maxCall,
      initial.pairs[n]? = some (⟨0⟩, .ofNat (n + 1)) := by decide +kernel
  exact ⟨_, h.control _ _ (hinitial n hn)⟩

theorem Started.hasArity_cons {s : Symbols} (h : s.Started) : s.HasArity .cons 2 := by
  have hinitial : initial.pairs[Tag.cons.index]?.map Prod.snd = some 2 := by decide +kernel
  obtain ⟨⟨a, _⟩, ha, rfl⟩ := Option.map_eq_some_iff.mp hinitial
  exact ⟨a, h.control _ _ ha⟩

theorem Started.hasArity_slash {s : Symbols} (h : s.Started) : s.HasArity .slash 2 := by
  have hinitial : initial.pairs[Tag.slash.index]?.map Prod.snd = some 2 := by decide +kernel
  obtain ⟨⟨a, _⟩, ha, rfl⟩ := Option.map_eq_some_iff.mp hinitial
  exact ⟨a, h.control _ _ ha⟩

theorem Started.hasArity_error {s : Symbols} (h : s.Started) : s.HasArity .error 2 := by
  have hinitial : initial.pairs[Tag.error.index]?.map Prod.snd = some 2 := by decide +kernel
  obtain ⟨⟨a, _⟩, ha, rfl⟩ := Option.map_eq_some_iff.mp hinitial
  exact ⟨a, h.control _ _ ha⟩

end Symbols

/-- Every functor in the term has as many arguments as its tag says. -/
inductive Term.Fits (s : Symbols) : Term → Prop where
  | var (v : Var) : Fits s (.var v)
  | const (c : Constant) : Fits s (.const c)
  | compound {stamp : Nat} {tag : Tag} {args : List Term} (h : s.HasArity tag args.length)
      (hargs : ∀ t ∈ args, Fits s t) : Fits s (.compound stamp tag args)

/-- Every functor in the tree has as many arguments as its tag says. -/
inductive Tree.Fits (s : Symbols) : Tree → Prop where
  | var (v : Var) : Fits s (.var v)
  | const (c : Constant) : Fits s (.const c)
  | compound {tag : Tag} {args : List Tree} (h : s.HasArity tag args.length)
      (hargs : ∀ t ∈ args, Fits s t) : Fits s (.compound tag args)

theorem Term.Fits.mono {s s' : Symbols} (hs : s.Extends s') {t : Term} (h : t.Fits s) :
    t.Fits s' := by
  induction h with
  | var v => exact .var v
  | const c => exact .const c
  | compound h _ ih => exact .compound (h.mono hs) ih

theorem Tree.Fits.mono {s s' : Symbols} (hs : s.Extends s') {t : Tree} (h : t.Fits s) :
    t.Fits s' := by
  induction h with
  | var v => exact .var v
  | const c => exact .const c
  | compound h _ ih => exact .compound (h.mono hs) ih

/-- The bindings fit the symbols. -/
def Store.Fits (s : Symbols) (σ : Store) : Prop :=
  ∀ v t, σ.value? v = some t → t.Fits s

/-- The table knows the control constructs, and the bindings fit it. -/
structure Universe.Fits (u : Universe) : Prop where
  /-- The control constructs are known. -/
  started : u.symbols.Started
  /-- The bindings fit. -/
  store : u.store.Fits u.symbols

theorem Universe.Extends.fits {u u' : Universe} (h : u.Extends u') (hu : u.Fits) : u'.Fits :=
  ⟨hu.started.mono h.symbols, fun v t hv =>
    (hu.store v t (h.store.value v ▸ hv)).mono h.symbols⟩

/-! ### Reading -/

namespace Store

variable {s : Symbols} {σ : Store}

theorem Fits.derefWithin (h : σ.Fits s) : ∀ (n : Nat) {t : Term}, t.Fits s →
    (σ.derefWithin n t).Fits s
  | 0, _, ht => by rwa [Store.derefWithin]; simp
  | n + 1, .const c, ht => ht
  | n + 1, .compound .., ht => ht
  | n + 1, .var v, ht => by
    rw [Store.derefWithin]
    split
    · rename_i t hv
      exact h.derefWithin n (h v t hv)
    · exact ht

theorem Fits.deref (h : σ.Fits s) {t : Term} (ht : t.Fits s) : (σ.deref t).Fits s :=
  h.derefWithin _ ht

mutual

theorem Fits.treeWithin (h : σ.Fits s) : ∀ (n : Nat) (t : Term), t.Fits s → (σ.treeWithin n t).Fits s
  | 0, .var v, _ => by rw [Store.treeWithin]; exact .var v
  | n + 1, .var v, _ => by
    rw [Store.treeWithin]
    split
    · rename_i t hv
      exact h.treeWithin n t (h v t hv)
    · exact .var v
  | n, .const c, _ => by rw [Store.treeWithin]; exact .const c
  | n, .compound stamp tag args, .compound ha hargs => by
    rw [Store.treeWithin]
    refine .compound (by rwa [length_treesWithin]) (h.treesWithin n args hargs)
termination_by n t => (n, sizeOf t)

theorem Fits.treesWithin (h : σ.Fits s) : ∀ (n : Nat) (ts : List Term), (∀ t ∈ ts, t.Fits s) →
    ∀ t ∈ σ.treesWithin n ts, t.Fits s
  | n, [], _ => by rw [Store.treesWithin]; exact fun _ ht => absurd ht List.not_mem_nil
  | n, t :: ts, ht => by
    rw [Store.treesWithin]
    rw [List.forall_mem_cons] at ht ⊢
    exact ⟨h.treeWithin n t ht.1, h.treesWithin n ts ht.2⟩
termination_by n ts => (n, sizeOf ts)

end

theorem Fits.resolve (h : σ.Fits s) {t : Term} (ht : t.Fits s) : (σ.resolve t).Fits s := by
  rw [resolve_eq_treeWithin]
  exact h.treeWithin _ t ht

end Store

/-! ### Copying -/

namespace Tree

mutual

theorem fits_copy {s : Symbols} : ∀ {t : Tree} (ρ : Store.Renaming) (σ : Store), t.Fits s →
    (t.copy ρ σ).1.Fits s
  | .var v, ρ, σ, _ => by
    rw [copy]
    split <;> exact .var _
  | .const c, ρ, σ, _ => .const c
  | .compound tag args, ρ, σ, .compound ha hargs =>
    .compound (by rwa [length_copyAll]) (fits_copyAll ρ σ hargs)

theorem fits_copyAll {s : Symbols} : ∀ {ts : List Tree} (ρ : Store.Renaming) (σ : Store),
    (∀ t ∈ ts, t.Fits s) → ∀ t ∈ (copyAll ts ρ σ).1, t.Fits s
  | [], _, _, _ => fun _ ht => absurd ht List.not_mem_nil
  | t :: ts, ρ, σ, ht => by
    rw [List.forall_mem_cons] at ht
    rw [copyAll]
    exact List.forall_mem_cons.mpr ⟨fits_copy ρ σ ht.1, fits_copyAll _ _ ht.2⟩

end

end Tree

theorem Store.Fits.copy {s : Symbols} {σ : Store} (h : σ.Fits s) {t : Term} (ht : t.Fits s) :
    (σ.copy t).1.Fits s := by
  rw [Store.copy_eq]
  exact Tree.fits_copy _ _ (h.resolve ht)

/-! ### Steps on terms -/

namespace Universe

theorem fits_compound {u : Universe} {tag : Tag} {args : List Term}
    (ha : u.symbols.HasArity tag args.length) (hargs : ∀ t ∈ args, t.Fits u.symbols) :
    (compound tag args u).1.Fits (compound tag args u).2.symbols :=
  .compound ha hargs

theorem fits_copy {u : Universe} (hu : u.Fits) {t : Term} (ht : t.Fits u.symbols) :
    (copy t u).1.Fits (copy t u).2.symbols :=
  hu.store.copy ht

/-- The tag of a name and a number has that number of arguments. -/
theorem hasArity_tag {u : Universe} (hu : u.Fits) (a : Atom) (n : Nat) :
    (tag a n u).2.symbols.HasArity (tag a n u).1 n :=
  .tag hu.started.filed a n

theorem hasArity_tagNamed {u : Universe} (hu : u.Fits) (name : String) (n : Nat) :
    (tagNamed name n u).2.symbols.HasArity (tagNamed name n u).1 n :=
  .tag ((Symbols.Extends.intern name u.symbols).filed hu.started.filed) _ n

/-- A compound of the tag made for it. -/
theorem fits_compound_tag {u : Universe} (hu : u.Fits) (a : Atom) {args : List Term}
    (hargs : ∀ t ∈ args, t.Fits u.symbols) :
    let x : StateM Universe Term := do compound (← tag a args.length) args
    (x u).1.Fits (x u).2.symbols :=
  fits_compound (hasArity_tag hu a _) fun t ht =>
    (hargs t ht).mono (extending_tag a args.length u).symbols

theorem fits_list {u : Universe} (hu : u.Fits) {items : List Term}
    (hitems : ∀ t ∈ items, t.Fits u.symbols) {tail : Term} (htail : tail.Fits u.symbols) :
    (list items tail u).1.Fits (list items tail u).2.symbols := by
  -- the cells are made from the last to the first
  have cells (l : List Term) : ∀ (u : Universe) (rest : Term), u.Fits → rest.Fits u.symbols →
      (∀ t ∈ l, t.Fits u.symbols) →
      (l.foldlM (m := StateM Universe) (fun rest item => compound .cons [item, rest]) rest u).1.Fits
        (l.foldlM (m := StateM Universe) (fun rest item => compound .cons [item, rest])
          rest u).2.symbols := by
    induction l with
    | nil => exact fun u rest _ hrest _ => hrest
    | cons item l ih =>
      intro u rest hu hrest hl
      rw [List.forall_mem_cons] at hl
      refine ih (compound .cons [item, rest] u).2 (compound .cons [item, rest] u).1
        ((extending_compound _ _ u).fits hu) ?_ hl.2
      exact fits_compound hu.started.hasArity_cons (by simp [hl.1, hrest])
  exact cells _ u tail hu htail fun t ht => hitems t (List.mem_reverse.mp ht)

end Universe

/-- What an error concerns fits the symbols. -/
def ErrorKind.Fits (s : Symbols) : ErrorKind → Prop
  | .type _ culprit | .domain _ culprit | .existence _ culprit | .permission _ _ culprit =>
    culprit.Fits s
  | .instantiation | .representation _ | .evaluation _ | .resource _ | .system _ => True

namespace Exception

variable {u : Universe}

theorem fits_ofTerm (hu : u.Fits) {t : Term} (ht : t.Fits u.symbols) :
    (ofTerm t u).1.ball.Fits (ofTerm t u).2.symbols :=
  Universe.fits_copy hu ht

/-- The words of a formal term are made atoms. -/
theorem fits_words (words : List String) : ∀ u : Universe,
    ∀ t ∈ (words.mapM (m := StateM Universe)
      (fun word => return Term.atom (← Universe.atom word)) u).1, ∀ s : Symbols, t.Fits s := by
  induction words with
  | nil => exact fun u t ht => absurd ht List.not_mem_nil
  | cons word words ih =>
    intro u
    rw [List.mapM_cons]
    exact List.forall_mem_cons.mpr ⟨fun s => .const _, ih _⟩

theorem fits_formalTerm (hu : u.Fits) (name : String) (words : List String)
    {culprit : Option Term} (hc : ∀ t ∈ culprit, t.Fits u.symbols) :
    (formalTerm name words culprit u).1.Fits (formalTerm name words culprit u).2.symbols := by
  let x : StateM Universe (List Term) :=
    words.mapM fun word => return Term.atom (← Universe.atom word)
  have hx : u.Extends (x u).2 :=
    Universe.Extending.mapM (fun _ => (Universe.extending_atom _).bind fun _ => .pure _) words u
  have htag := Universe.extending_tagNamed name ((x u).1 ++ culprit.toList).length (x u).2
  refine Universe.fits_compound (Universe.hasArity_tagNamed (hx.fits hu) name _) fun t ht => ?_
  obtain ht | ht := List.mem_append.mp ht
  · exact fits_words words u t ht _
  · exact (hc t (by simpa using ht)).mono (hx.trans htag).symbols

theorem fits_formalOf (hu : u.Fits) {e : ErrorKind} (he : e.Fits u.symbols) :
    (formalOf e u).1.Fits (formalOf e u).2.symbols := by
  cases e with
  | instantiation => exact .const _
  | type expected culprit => exact fits_formalTerm hu _ _ fun t ht => Option.some.inj ht ▸ he
  | domain domain culprit => exact fits_formalTerm hu _ _ fun t ht => Option.some.inj ht ▸ he
  | existence kind culprit => exact fits_formalTerm hu _ _ fun t ht => Option.some.inj ht ▸ he
  | permission action kind culprit =>
    exact fits_formalTerm hu _ _ fun t ht => Option.some.inj ht ▸ he
  | representation flag => exact fits_formalTerm hu _ _ nofun
  | evaluation error => exact fits_formalTerm hu _ _ nofun
  | resource resource => exact fits_formalTerm hu _ _ nofun
  | system message => exact fits_formalTerm hu _ _ nofun

theorem fits_indicatorTerm (hu : u.Fits) (tag : Tag) :
    (indicatorTerm tag u).1.Fits (indicatorTerm tag u).2.symbols :=
  Universe.fits_compound hu.started.hasArity_slash (by simp [Term.Fits.const])

end Exception

/-! ### Unification -/

theorem Store.Fits.bind {s : Symbols} {σ : Store} (h : σ.Fits s) (v : Var) {t : Term}
    (ht : t.Fits s) : (σ.bind v t).Fits s := by
  intro w t' hw
  rw [value?_bind] at hw
  split at hw
  · exact Option.some.inj hw ▸ ht
  · exact h w t' hw

theorem Store.Fits.unbind {s : Symbols} {σ : Store} (h : σ.Fits s) (v : Var) :
    (σ.unbind v).Fits s := by
  intro w t hw
  rw [value?_unbind] at hw
  split at hw
  · simp at hw
  · exact h w t hw

theorem fits_unifyPairs {α : Type} {s : Symbols} (n : Nat) :
    ∀ (pairs : List (Term × Term)) (σ : Store) (τ : Trail α), σ.Fits s →
      (∀ p ∈ pairs, p.1.Fits s ∧ p.2.Fits s) → (unifyPairs n pairs σ τ).2.1.Fits s := by
  induction n with
  | zero => exact fun _ _ _ h _ => h
  | succ n ih =>
    intro pairs σ τ hσ hpairs
    match pairs with
    | [] => exact hσ
    | (t, t') :: rest =>
      rw [List.forall_mem_cons] at hpairs
      obtain ⟨⟨ht, ht'⟩, hrest⟩ := hpairs
      have hd := hσ.deref ht
      have hd' := hσ.deref ht'
      rw [unifyPairs]
      split
      · split
        · exact ih _ _ _ hσ hrest
        · rename_i v w _ _ _
          by_cases hlt : w.id < v.id
          · simp only [if_pos hlt]
            exact ih _ _ _ (hσ.bind v (.var w)) hrest
          · simp only [if_neg hlt]
            exact ih _ _ _ (hσ.bind w (.var v)) hrest
      · exact ih _ _ _ (hσ.bind _ hd') hrest
      · exact ih _ _ _ (hσ.bind _ hd) hrest
      · split
        · exact ih _ _ _ hσ hrest
        · exact hσ
      · rename_i i f ss j g ts hs ht
        rw [hs] at hd
        rw [ht] at hd'
        cases hd with | compound _ hss =>
        cases hd' with | compound _ hts =>
        split
        · exact ih _ _ _ hσ hrest
        · split
          · refine ih _ _ _ hσ fun p hp => ?_
            obtain hp | hp := List.mem_append.mp hp
            · obtain ⟨p₁, p₂⟩ := p
              exact ⟨hss _ (List.of_mem_zip hp).1, hts _ (List.of_mem_zip hp).2⟩
            · exact hrest p hp
          · exact hσ
      · exact hσ
      · exact hσ

end Resolvent
