import Mathlib.Tactic.SplitIfs
import Resolvent.Proofs.Moment
import Resolvent.Proofs.Outcome

/-!
# Growth of the universe

Symbols are entered and variables and compounds are made all through a run, but a symbol keeps its
number and its arity, and none of this changes a binding. `Universe.Extends u u'` says so of two
universes, and `Universe.Extending x` that a step on terms leads to such a universe from any other.
Compiling clauses does too, whether it succeeds or not.
-/

namespace Resolvent

namespace Symbols

/-- A name and arity are filed under their own position. -/
def Filed (s : Symbols) : Prop :=
  ∀ (p : Atom × UInt32) (t : Tag), s.tags[p]? = some t → s.pairs[t.index]? = some p

/-- Every tag keeps its name and arity. -/
structure Extends (s s' : Symbols) : Prop where
  /-- Every position keeps its name and arity. -/
  pairs : ∀ (i : Nat) (p : Atom × UInt32), s.pairs[i]? = some p → s'.pairs[i]? = some p
  /-- The table stays in order. -/
  filed : s.Filed → s'.Filed

instance : Std.TransCmp pairOrder :=
  inferInstanceAs (Std.TransCmp (compareLex _ _))

instance : Std.LawfulEqCmp pairOrder where
  eq_of_compare {p q} h := by
    obtain ⟨⟨i⟩, n⟩ := p
    obtain ⟨⟨j⟩, m⟩ := q
    simpa [pairOrder, compareLex, compareOn] using h

theorem Filed.tag {s : Symbols} (h : s.Filed) (a : Atom) (arity : Nat) :
    (s.tag a arity).2.Filed := by
  unfold Symbols.tag
  simp only
  split
  · exact h
  · intro p t ht
    simp only [Std.TreeMap.getElem?_insert] at ht
    split at ht
    · rename_i heq
      obtain rfl := Std.LawfulEqCmp.eq_of_compare heq
      obtain rfl := Option.some.inj ht
      simp
    · obtain ⟨hi, hp⟩ := Array.getElem?_eq_some_iff.mp (h p t ht)
      simp [Array.getElem?_push_lt hi, hp]

/-- The tag of a name and arity stands for these. -/
theorem Filed.pairs_tag {s : Symbols} (h : s.Filed) (a : Atom) (arity : Nat) :
    (s.tag a arity).2.pairs[(s.tag a arity).1.index]? = some (a, .ofNat arity) := by
  unfold Symbols.tag
  simp only
  split
  · rename_i t ht
    exact h _ t ht
  · simp

namespace Extends

theorem refl (s : Symbols) : s.Extends s :=
  ⟨fun _ _ h => h, id⟩

theorem trans {s₁ s₂ s₃ : Symbols} (h : s₁.Extends s₂) (h' : s₂.Extends s₃) : s₁.Extends s₃ :=
  ⟨fun i p hp => h'.pairs i p (h.pairs i p hp), h'.filed ∘ h.filed⟩

instance : Std.Refl Extends := ⟨refl⟩

instance : Trans Extends Extends Extends := ⟨trans⟩

theorem intern (name : String) (s : Symbols) : s.Extends (s.intern name).2 := by
  unfold Symbols.intern
  split <;> exact ⟨fun _ _ h => h, id⟩

theorem tag (a : Atom) (arity : Nat) (s : Symbols) : s.Extends (s.tag a arity).2 := by
  refine ⟨fun i p hp => ?_, fun h => h.tag a arity⟩
  unfold Symbols.tag
  simp only
  split
  · exact hp
  · obtain ⟨hi, rfl⟩ := Array.getElem?_eq_some_iff.mp hp
    simp [Array.getElem?_push_lt hi]

theorem tagNamed (name : String) (arity : Nat) (s : Symbols) :
    s.Extends (s.tagNamed name arity).2 :=
  (intern name s).trans (tag _ arity _)

end Extends

end Symbols

namespace Universe

/-- Every tag keeps its name and arity, and every variable its binding. -/
structure Extends (u u' : Universe) : Prop where
  /-- The tags are kept. -/
  symbols : u.symbols.Extends u'.symbols
  /-- The bindings are kept. -/
  store : u.store.Extends u'.store

namespace Extends

theorem refl (u : Universe) : u.Extends u :=
  ⟨.refl _, .refl _⟩

theorem trans {u₁ u₂ u₃ : Universe} (h : u₁.Extends u₂) (h' : u₂.Extends u₃) : u₁.Extends u₃ :=
  ⟨h.symbols.trans h'.symbols, h.store.trans h'.store⟩

instance : Std.Refl Extends := ⟨refl⟩

instance : Trans Extends Extends Extends := ⟨trans⟩

end Extends

/-- The step leads from any universe to one that extends it. -/
def Extending {α : Type} (x : StateM Universe α) : Prop :=
  ∀ u : Universe, u.Extends (x u).2

namespace Extending

variable {α β : Type}

theorem pure (a : α) : Extending (Pure.pure a : StateM Universe α) :=
  fun u => .refl u

theorem bind {x : StateM Universe α} {f : α → StateM Universe β} (hx : Extending x)
    (hf : ∀ a, Extending (f a)) : Extending (x >>= f) :=
  fun u => (hx u).trans (hf _ _)

theorem get : Extending (MonadState.get : StateM Universe Universe) :=
  fun u => .refl u

theorem mapM {f : α → StateM Universe β} (hf : ∀ a, Extending (f a)) (l : List α) :
    Extending (l.mapM f) := by
  induction l with
  | nil => exact pure []
  | cons a l ih =>
    rw [List.mapM_cons]
    exact (hf a).bind fun _ => ih.bind fun _ => pure _

theorem foldlM {f : β → α → StateM Universe β} (hf : ∀ b a, Extending (f b a)) (l : List α) :
    ∀ b, Extending (l.foldlM f b) := by
  induction l with
  | nil => exact pure
  | cons a l ih => exact fun b => (hf b a).bind ih

end Extending

theorem extending_atom (name : String) : Extending (atom name) :=
  fun u => ⟨.intern name u.symbols, .refl _⟩

theorem extending_tag (a : Atom) (arity : Nat) : Extending (tag a arity) :=
  fun u => ⟨.tag a arity u.symbols, .refl _⟩

theorem extending_tagNamed (name : String) (arity : Nat) : Extending (tagNamed name arity) :=
  fun u => ⟨.tagNamed name arity u.symbols, .refl _⟩

theorem extending_fresh : Extending fresh :=
  fun u => ⟨.refl _, .fresh u.store⟩

theorem extending_compound (tag : Tag) (args : List Term) : Extending (compound tag args) :=
  fun u => ⟨.refl _, .compound tag args u.store⟩

theorem extending_copy (t : Term) : Extending (copy t) :=
  fun u => ⟨.refl _, .copy t u.store⟩

theorem extending_list (items : List Term) (tail : Term) : Extending (list items tail) :=
  .foldlM (fun _ _ => extending_compound _ _) _ _

theorem extending_callableParts? (t : Term) : Extending (callableParts? t) := by
  refine .bind (fun u => .refl u) fun t => ?_
  split
  · exact (extending_tag _ 0).bind fun _ => .pure _
  · exact .pure _
  · exact .pure _

end Universe

open Universe (Extending)

namespace Exception

theorem extending_ofTerm (t : Term) : Extending (ofTerm t) :=
  (Universe.extending_copy t).bind fun _ => .pure _

theorem extending_formalTerm (name : String) (words : List String) (culprit : Option Term) :
    Extending (formalTerm name words culprit) :=
  (Extending.mapM (fun _ => (Universe.extending_atom _).bind fun _ => .pure _) words).bind fun _ =>
    (Universe.extending_tagNamed _ _).bind fun _ => Universe.extending_compound _ _

theorem extending_formalOf (e : ErrorKind) : Extending (formalOf e) := by
  cases e with
  | instantiation => exact (Universe.extending_atom _).bind fun _ => .pure _
  | _ => exact extending_formalTerm _ _ _

theorem extending_ofError (e : ErrorKind) : Extending (ofError e) :=
  (extending_formalOf e).bind fun _ => Universe.extending_fresh.bind fun _ =>
    (Universe.extending_compound _ _).bind fun _ => extending_ofTerm _

theorem extending_indicatorTerm (tag : Tag) : Extending (indicatorTerm tag) :=
  Extending.get.bind fun _ => Universe.extending_compound _ _

theorem extending_unknownProcedure (tag : Tag) : Extending (unknownProcedure tag) :=
  (extending_indicatorTerm tag).bind fun _ => extending_ofError _

end Exception

/-! ### Compilation -/

theorem Symbols.keeps_tag {ε : Type} (a : Atom) (arity : Nat) :
    Keeps Extends (modifyGet (Symbols.tag a arity) : EStateM ε Symbols Tag) :=
  .modifyGet fun s => .tag a arity s

namespace Body

theorem keeps_readGoals : ∀ (t : Tree) (found : List Goal), Keeps Symbols.Extends (readGoals t found)
  | .var _, _ => .pure _
  | .const (.atom a), found => by
    rw [readGoals]
    split_ifs
    · exact .pure _
    · exact .pure _
    · exact .pure _
    · exact .bind (Symbols.keeps_tag a 0) fun _ => .pure _
  | .const (.int _), _ | .const (.big _), _ | .const (.rat _), _ | .const (.float _), _
  | .const (.host _), _ => .throw _
  | .compound tag [a, b], found => by
    have ha := keeps_readGoals a
    have hb := keeps_readGoals b
    rw [readGoals]
    split_ifs
    · exact (ha found).bind hb
    · exact (ha []).bind fun _ => (hb []).bind fun _ => .pure _
    · exact (ha []).bind fun _ => (hb []).bind fun _ => .pure _
    · exact .pure _
    · exact .pure _
  | .compound tag [a], found => by
    have ha := keeps_readGoals a
    rw [readGoals]
    split_ifs
    · exact (ha []).bind fun _ => .pure _
    · exact .pure _
    · exact .pure _
  | .compound tag [a, b, c], found => by
    have ha := keeps_readGoals a
    have hc := keeps_readGoals c
    rw [readGoals]
    split_ifs
    · exact (ha []).bind fun _ => (hc []).bind fun _ => .pure _
    · exact .pure _
  | .compound _ [], _ => .pure _
  | .compound _ (_ :: _ :: _ :: _ :: _), _ => .pure _
termination_by structural t => t

theorem keeps_ofTree (t : Tree) : Keeps Symbols.Extends (ofTree t) :=
  (keeps_readGoals t []).bind fun _ => .pure _

end Body

theorem Rule.keeps_ofClause (σ : Store) (c : Clause) :
    Keeps Symbols.Extends (Rule.ofClause σ c) := by
  have rest (args : List Tree) : Keeps Symbols.Extends (do
      return (⟨args, ← Body.ofTree (σ.resolve c.body), Var.distinct (((σ.resolve c.head).postorder ++
        (σ.resolve c.body).postorder).filterMap Node.var?)⟩ : Rule)) :=
    (Body.keeps_ofTree _).bind fun _ => .pure _
  rw [Rule.ofClause]
  simp only
  split
  · exact .throw_bind _ _
  · exact .bind (.pure _) rest
  · exact .throw_bind _ _
  · exact .bind (.pure _) rest

theorem Program.keeps_onSymbols {ε α : Type} {x : EStateM ε Symbols α}
    (hx : Keeps Symbols.Extends x) : Keeps Universe.Extends (Program.onSymbols x) := by
  intro ⟨symbols, store⟩
  have h := hx symbols
  simp only [Yields, Program.onSymbols] at h ⊢
  cases hr : x symbols <;> rw [hr] at h <;> exact ⟨h, .refl _⟩

theorem Clause.extending_predicate? (c : Clause) : Extending c.predicate? :=
  (Universe.extending_callableParts? _).bind fun _ => .pure _

/-- A compilation leads to a universe that extends the first one, whether it succeeds or not. -/
theorem Program.keeps_ofClauses (tag : Tag) (clauses : List Clause) :
    Keeps Universe.Extends (Program.ofClauses tag clauses) := by
  refine .bind .get fun u => ?_
  simp only
  split
  · exact .throw_bind _ _
  refine .bind .get fun u => ?_
  refine .bind (Program.keeps_onSymbols (.mapM (fun c => Rule.keeps_ofClause _ c) _)) fun rules => ?_
  split
  · exact .throw_bind _ _
  split
  · exact .pure _
  refine .bind (.forM (fun c => .modify fun u => c.extending_predicate? u) _) fun _ => ?_
  refine .bind .get fun u => ?_
  split
  · exact .throw _
  · exact .bind (.modify fun u => ⟨.refl _, Nat.le_refl _, fun _ => rfl⟩) fun _ => .pure _

theorem Chunk.keeps_ofClauses (tag : Tag) (clauses : List Clause) :
    Keeps Universe.Extends (Chunk.ofClauses tag clauses) := by
  refine (Program.keeps_ofClauses tag clauses).bind fun p => ?_
  split
  · exact .pure _
  · exact .throw _

end Resolvent
