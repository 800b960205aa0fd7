import Resolvent.Proofs.Limits
import Resolvent.Proofs.Tracing

/-!
# Searches on another footing

Two engines carry out the same search, but on different footings: the second one has more choice points
below those of the search, and its activations are nested deeper. A search does not look below its
footing, so both engines do the same, unless a limit refuses the second one what the first one is
allowed.

`Parallel` says of two steps that they end alike in this sense, and is closed under everything that
steps are put together with. `Footing.Stands` relates the states of the two engines: choice points
above the footing are the same, but where they tell the height of the choice stack, the second engine
tells another one. What a search leaves on the choice stack is well nested (`Stacked`), so that each
redo finds above the footing whatever it looks at.
-/

namespace Resolvent

variable {ε σ α β α' β' : Type}

/-! ### Two steps side by side -/

/-- The first step, carried out in `s`, ends as the second one does in `t`: with answers, of which and of
the states then `Q` holds, or with the same error, where `E` holds. The second one is excused by a state
of which `M` holds if it gives an answer, and by one of which `L` holds if it does not. -/
def Beside (M L : σ → Prop) (x : EStateM ε σ α) (y : EStateM ε σ α') (s t : σ)
    (Q : α → α' → σ → σ → Prop) (E : ε → σ → σ → Prop) : Prop :=
  Yields y t (fun b t' => M t' ∨ ∃ a s', x s = .ok a s' ∧ Q a b s' t')
    fun e t' => L t' ∨ ∃ s', x s = .error e s' ∧ E e s' t'

/-- The steps end alike, unless the second one is excused. -/
abbrev Parallel (L : σ → Prop) (x : EStateM ε σ α) (y : EStateM ε σ α') (s t : σ)
    (Q : α → α' → σ → σ → Prop) (E : ε → σ → σ → Prop) : Prop :=
  Beside L L x y s t Q E

/-- The steps end alike, unless the second one is excused, which it is not if it gives an answer. -/
abbrev Surely (L : σ → Prop) (x : EStateM ε σ α) (y : EStateM ε σ α') (s t : σ)
    (Q : α → α' → σ → σ → Prop) (E : ε → σ → σ → Prop) : Prop :=
  Beside (fun _ => False) L x y s t Q E

/-- The step leads from excused states to excused states. -/
def Excused (L : σ → Prop) (x : EStateM ε σ α) : Prop :=
  ∀ t, L t → Yields x t (fun _ t' => L t') fun _ t' => L t'

namespace Beside

variable {M L : σ → Prop} {x : EStateM ε σ α} {y : EStateM ε σ α'} {s t : σ}
  {Q : α → α' → σ → σ → Prop} {E : ε → σ → σ → Prop}

/-- Steps of which it is known how they end. -/
theorem of_ok {a : α} {b : α'} {s' t' : σ} (hx : x s = .ok a s') (hy : y t = .ok b t')
    (h : Q a b s' t') : Beside M L x y s t Q E := by
  rw [Beside, Yields, hy]
  exact .inr ⟨a, s', hx, h⟩

theorem of_error {e : ε} {s' t' : σ} (hx : x s = .error e s') (hy : y t = .error e t')
    (h : E e s' t') : Beside M L x y s t Q E := by
  rw [Beside, Yields, hy]
  exact .inr ⟨s', hx, h⟩

/-- The second step is excused. -/
theorem of_excused (h : Yields y t (fun _ t' => M t') fun _ t' => L t') : Beside M L x y s t Q E :=
  h.imp (fun _ _ h => .inl h) fun _ _ h => .inl h

/-- Steps that come to other steps. -/
theorem of_eq {x' : EStateM ε σ α} {y' : EStateM ε σ α'} {s' t' : σ} (hx : x s = x' s')
    (hy : y t = y' t') (h : Beside M L x' y' s' t' Q E) : Beside M L x y s t Q E := by
  rw [Beside, Yields, hy, hx]
  exact h

theorem pure {a : α} {b : α'} (h : Q a b s t) :
    Beside M L (Pure.pure a : EStateM ε σ α) (Pure.pure b : EStateM ε σ α') s t Q E :=
  of_ok rfl rfl h

theorem throw {e : ε} (h : E e s t) :
    Beside M L (MonadExcept.throw e : EStateM ε σ α) (MonadExcept.throw e : EStateM ε σ α') s t Q E :=
  of_error rfl rfl h

theorem imp {Q' : α → α' → σ → σ → Prop} {E' : ε → σ → σ → Prop} (h : Beside M L x y s t Q E)
    (hQ : ∀ a b s' t', Q a b s' t' → Q' a b s' t') (hE : ∀ e s' t', E e s' t' → E' e s' t') :
    Beside M L x y s t Q' E' := by
  refine Yields.imp h ?_ ?_
  · rintro b t' (hm | ⟨a, s', hx, hq⟩)
    · exact .inl hm
    · exact .inr ⟨a, s', hx, hQ a b s' t' hq⟩
  · rintro e t' (hl | ⟨s', hx, he⟩)
    · exact .inl hl
    · exact .inr ⟨s', hx, hE e s' t' he⟩

/-- One step after the other. -/
theorem trans {M' : σ → Prop} {f : α → EStateM ε σ β} {g : α' → EStateM ε σ β'}
    {R : β → β' → σ → σ → Prop} (h : Beside M' L x y s t Q E)
    (hf : ∀ a b s' t', Q a b s' t' → Beside M L (f a) (g b) s' t' R E)
    (hM : ∀ b t', M' t' → Yields (g b) t' (fun _ t' => M t') fun _ t' => L t') :
    Beside M L (x >>= f) (y >>= g) s t R E := by
  refine yields_bind.mpr (Yields.imp h ?_ ?_)
  · rintro b t' (hm | ⟨a, s', hx, hq⟩)
    · exact (hM b t' hm).imp (fun _ _ h => .inl h) fun _ _ h => .inl h
    · simp only [Bind.bind, EStateM.bind, hx]
      exact hf a b s' t' hq
  · rintro e t' (hl | ⟨s', hx, he⟩)
    · exact .inl hl
    · simp only [Bind.bind, EStateM.bind, hx]
      exact .inr ⟨s', rfl, he⟩

theorem map {f : α → β} {g : α' → β'} {R : β → β' → σ → σ → Prop}
    (h : Beside M L x y s t (fun a b s' t' => R (f a) (g b) s' t') E) :
    Beside M L (f <$> x) (g <$> y) s t R E := by
  refine yields_map.mpr (Yields.imp h ?_ ?_)
  · rintro b t' (hm | ⟨a, s', hx, hq⟩)
    · exact .inl hm
    · exact .inr ⟨f a, s', by simp only [Functor.map, EStateM.map, hx], hq⟩
  · rintro e t' (hl | ⟨s', hx, he⟩)
    · exact .inl hl
    · exact .inr ⟨s', by simp only [Functor.map, EStateM.map, hx], he⟩

/-- The states are looked at. -/
theorem get_bind {f : σ → EStateM ε σ β} {g : σ → EStateM ε σ β'} {R : β → β' → σ → σ → Prop}
    (h : Beside M L (f s) (g t) s t R E) :
    Beside M L (MonadState.get >>= f) (MonadState.get >>= g) s t R E :=
  h

end Beside

section Rules

variable {M L : σ → Prop} {x : EStateM ε σ α} {y : EStateM ε σ α'} {s t : σ}
  {Q : α → α' → σ → σ → Prop} {E : ε → σ → σ → Prop} {f : α → EStateM ε σ β} {g : α' → EStateM ε σ β'}
  {R : β → β' → σ → σ → Prop}

theorem Surely.beside (h : Surely L x y s t Q E) : Beside M L x y s t Q E :=
  Yields.imp h (fun _ _ h => h.imp_left False.elim) fun _ _ h => h

/-- One step after the other, of which the first one is not excused if it gives an answer. -/
theorem Surely.bind (h : Surely L x y s t Q E)
    (hf : ∀ a b s' t', Q a b s' t' → Beside M L (f a) (g b) s' t' R E) :
    Beside M L (x >>= f) (y >>= g) s t R E :=
  h.trans hf fun _ _ h => h.elim

/-- One step after the other. -/
theorem Parallel.bind (h : Parallel L x y s t Q E)
    (hf : ∀ a b s' t', Q a b s' t' → Parallel L (f a) (g b) s' t' R E) (hL : ∀ b, Excused L (g b)) :
    Parallel L (x >>= f) (y >>= g) s t R E :=
  h.trans hf hL

/-- Errors are handled alike. -/
theorem Parallel.tryCatch {f : ε → EStateM ε σ α} {g : ε → EStateM ε σ α'} {E' : ε → σ → σ → Prop}
    (h : Parallel L x y s t Q E) (hf : ∀ e s' t', E e s' t' → Parallel L (f e) (g e) s' t' Q E')
    (hL : ∀ e, Excused L (g e)) :
    Parallel L (MonadExcept.tryCatch x f) (MonadExcept.tryCatch y g) s t Q E' := by
  refine yields_tryCatch.mpr (Yields.imp h ?_ ?_)
  · rintro b t' (hl | ⟨a, s', hx, hq⟩)
    · exact .inl hl
    · exact .inr ⟨a, s', tryCatch_of_ok hx, hq⟩
  · rintro e t' (hl | ⟨s', hx, he⟩)
    · exact (hL e t' hl).imp (fun _ _ h => .inl h) fun _ _ h => .inl h
    · rw [tryCatch_of_error hx]
      exact hf e s' t' he

end Rules

namespace Effect

/-- To forget nothing that has happened. -/
def telling : Effect where
  ok s t := s.chronicle <:+ t.chronicle
  err _ s t := s.chronicle <:+ t.chronicle

theorem telling_of_tracing {x : EngineM α} (h : tracing.Allows x) : telling.Allows x := by
  have htold {s t : Workspace} (h : s.Traces t) : s.chronicle <:+ t.chronicle := by
    obtain ⟨l, hl, -⟩ := h.told
    exact ⟨l, hl.symm⟩
  exact fun s => (h s).imp (fun _ _ h => htold h) fun _ _ h => htold h

theorem composes_telling : telling.Composes where
  refl _ := List.suffix_refl _
  trans := List.IsSuffix.trans
  stopped := List.IsSuffix.trans
  thrown := .rfl
  spent _ := List.suffix_refl _
  faulty _ _ := List.suffix_refl _
  faulted := List.IsSuffix.trans

theorem telling_note (s : Workspace) (e : Ghost Chronicle.Event) : telling.ok s (s.note e) := by
  show s.chronicle <:+ _
  rw [Workspace.chronicle_note]
  exact List.suffix_cons ..

theorem telling_pushChoice (kind : ChoiceKind) : telling.Allows (Engine.pushChoice kind) := by
  have htelling := composes_telling
  have hhold : telling.Allows (modify (Workspace.hold kind) : EngineM Unit) := by
    intro s
    cases kind with
    | cleanup goal => exact telling_note s _
    | _ => exact List.suffix_refl _
  refine (telling_of_tracing lawful_tracing.mark).bind htelling fun m => ?_
  refine Allows.bind htelling (x := Engine.now) (fun _ => List.suffix_refl _) fun made => ?_
  refine Allows.bind htelling (fun s => List.suffix_refl _) fun pushed => ?_
  dsimp only
  split
  · exact hhold
  · exact (telling_of_tracing (lawful_tracing.exceed _)).bind htelling fun _ => hhold

theorem lawful_telling : telling.Lawful where
  toComposes := composes_telling
  pass s := telling_note s _
  overflow s := telling_note s _
  exceed resource := telling_of_tracing (lawful_tracing.exceed resource)
  onTerms hx := telling_of_tracing (lawful_tracing.onTerms hx)
  compileGoal name goal := telling_of_tracing (lawful_tracing.compileGoal name goal)
  look site tag args := telling_of_tracing (lawful_tracing.look site tag args)
  mark := telling_of_tracing lawful_tracing.mark
  undoTo m := telling_of_tracing (lawful_tracing.undoTo m)
  unify n s t := telling_of_tracing (lawful_tracing.unify n s t)
  unifyInPlace n s t := telling_of_tracing (lawful_tracing.unifyInPlace n s t)
  pushChoice _ := telling_pushChoice _
  pop := telling_of_tracing lawful_tracing.pop
  cutTo n := telling_of_tracing (lawful_tracing.cutTo n)
  setTop m l := telling_of_tracing (lawful_tracing.setTop m l)
  nested hx _ := Solver.yields_nested.mpr ((hx _).imp (fun _ _ h => h) fun _ _ h => h)

theorem calls_telling {ctx : Context} (h : tracing.Calls ctx) : telling.Calls ctx :=
  ⟨fun callee args redo => telling_of_tracing (h.invoke callee args redo),
    fun goals => telling_of_tracing (h.runCleanups goals),
    fun f => Allows.reports composes_telling rfl (telling_of_tracing (h.allows_report lawful_tracing f)) f⟩

end Effect

/-! ### Limits -/

namespace Workspace

/-- A limit has not allowed what was to be done since the chronicle told what it did. -/
def LimitedSince (t : Workspace) (told : Chronicle) : Prop :=
  ∃ l, t.chronicle = l ++ told ∧ .limited ∈ l

variable {s t : Workspace} {told : Chronicle}

/-- That a limit has refused something is not forgotten. -/
theorem LimitedSince.later (h : s.LimitedSince told) (hs : s.chronicle <:+ t.chronicle) :
    t.LimitedSince told := by
  obtain ⟨l, hl, hmem⟩ := h
  obtain ⟨l', hl'⟩ := hs
  exact ⟨l' ++ l, by rw [← hl', hl, List.append_assoc], List.mem_append_right _ hmem⟩

/-- A limit refuses something. -/
theorem limitedSince_note (h : told <:+ t.chronicle) : (t.note (.of .limited)).LimitedSince told := by
  obtain ⟨l, hl⟩ := h
  refine ⟨.limited :: l, ?_, List.mem_cons_self ..⟩
  rw [chronicle_note, Ghost.value_of, ← hl]
  rfl

theorem refused_exceed (h : told <:+ t.chronicle) (resource : String) {Q : α → Workspace → Prop} :
    Yields (Engine.exceed resource) t Q fun _ u => u.LimitedSince told := by
  rw [Engine.exceed, yields_bind, Engine.note, yields_modify, Engine.raise, Engine.yields_onDatabase]
  exact limitedSince_note h

theorem refused_pushChoice (h : told <:+ t.chronicle) (hroom : ¬t.engine.choices.hasRoom)
    (kind : ChoiceKind) {Q : Unit → Workspace → Prop} :
    Yields (Engine.pushChoice kind) t Q fun _ u => u.LimitedSince told := by
  have ht : told <:+ Workspace.chronicle { t with engine := { t.engine with
    trail := t.engine.trail.mark.2 } } := h
  exact (Engine.yields_pushChoice_full hroom kind).mpr (refused_exceed ht _)

/-- A call is not refused if and only if it may be active. -/
theorem refused_checkDepth (h : told <:+ t.chronicle) : Yields Solver.checkDepth t
    (fun _ u => u = t ∧ ¬t.engine.config.maxCallDepth ≤ t.engine.depth ∧
      ¬t.engine.config.maxStackBytes < t.engine.depth * Solver.bytesPerCall)
    fun _ u => u.LimitedSince told := by
  by_cases hdepth : t.engine.config.maxCallDepth ≤ t.engine.depth
  · rw [Solver.checkDepth, yields_bind, yields_get, if_pos hdepth]
    exact yields_bind.mpr (refused_exceed h _)
  by_cases hstack : t.engine.config.maxStackBytes < t.engine.depth * Solver.bytesPerCall
  · rw [Solver.checkDepth, yields_bind, yields_get, if_neg hdepth, if_pos hstack]
    exact refused_exceed h _
  rw [Yields, Solver.checkDepth_of_allowed hdepth hstack]
  exact ⟨rfl, hdepth, hstack⟩

end Workspace

/-! ### The choice stack on another footing -/

/-- What the slot holds, where the choice stack is higher by `n`. -/
def Slot.raise (n : Nat) : Slot → Slot
  | .barrier b => .barrier ⟨b.height + n, b.mark⟩
  | s => s

/-- What to do at a choice point, where the choice stack is higher by `n`. -/
def ChoiceKind.raise (n : Nat) : ChoiceKind → ChoiceKind
  | .exit slots height => .exit (slots.map (Slot.raise n)) (height + n)
  | kind => kind

/-- A choice point, where the choice stack is higher by `n`. -/
def ChoicePoint.raise (n : Nat) (p : ChoicePoint) : ChoicePoint :=
  ⟨p.mark, p.kind.raise n⟩

@[simp] theorem ChoicePoint.cleanup?_raise (n : Nat) (p : ChoicePoint) :
    (p.raise n).cleanup? = p.cleanup? := by
  obtain ⟨m, kind⟩ := p
  cases kind <;> rfl

/-- A redo from the choice point looks at no other choice point. -/
def ChoiceKind.Lone : ChoiceKind → Prop
  | .retry .. | .exit .. | .native (.goal ..) => False
  | _ => True

/-- The choice points above a height are well nested. An activation that has been left with solutions to
come has its entry among them; so has a goal with a cleanup goal, whatever stands for the latter, and
something to come back to above it; and there is something above the height at which a callee is asked
for more. -/
inductive Stacked : Nat → List ChoicePoint → Prop where
  | nil {b : Nat} : Stacked b []
  | lone {b : Nat} {l : List ChoicePoint} {p : ChoicePoint} (h : Stacked b l) (hp : p.kind.Lone) :
      Stacked b (l ++ [p])
  | retry {b : Nat} {l : List ChoicePoint} {p : ChoicePoint} {callee : Callee} {args : Array Term}
      {resume callAt : Nat} (h : Stacked b l) (hl : l ≠ [])
      (hp : p.kind = .retry callee args resume callAt) : Stacked b (l ++ [p])
  | exit {b : Nat} {l l' : List ChoicePoint} {e p : ChoicePoint} {code : Code} {slots : Array Slot}
      (h : Stacked b l) (h' : Stacked (b + l.length + 1) l') (he : e.kind = .entry code)
      (hp : p.kind = .exit slots (b + l.length + 1)) : Stacked b (l ++ e :: l' ++ [p])
  | goal {b : Nat} {l l' : List ChoicePoint} {e p : ChoicePoint} {code : Code} {args : Array Term}
      (h : Stacked b l) (h' : Stacked (b + l.length + 1) l') (he : e.kind.Lone) (hl : l' ≠ [])
      (hp : p.kind = .native (.goal code args)) : Stacked b (l ++ e :: l' ++ [p])

namespace Stacked

variable {b : Nat} {l l' : List ChoicePoint} {p : ChoicePoint}

/-- What is stacked above what is stacked. -/
theorem append (h : Stacked b l) (h' : Stacked (b + l.length) l') : Stacked b (l ++ l') := by
  generalize hn : b + l.length = n at h'
  induction h' with
  | nil => exact (List.append_nil l).symm ▸ h
  | lone _ hp ih => exact List.append_assoc .. ▸ (ih hn).lone hp
  | retry _ hl hp ih => exact List.append_assoc .. ▸ (ih hn).retry (by simp [hl]) hp
  | @exit n k k' e p code slots _ hk' he hp ih _ =>
    subst hn
    have hlen : b + l.length + k.length + 1 = b + (l ++ k).length + 1 := by
      rw [List.length_append]; omega
    rw [hlen] at hk' hp
    simpa only [List.append_assoc, List.cons_append] using (ih rfl).exit hk' he hp
  | @goal n k k' e p code args _ hk' he hl hp ih _ =>
    subst hn
    have hlen : b + l.length + k.length + 1 = b + (l ++ k).length + 1 := by
      rw [List.length_append]; omega
    rw [hlen] at hk'
    simpa only [List.append_assoc, List.cons_append] using (ih rfl).goal hk' he hl hp

/-- One choice point, and what is stacked above it. -/
theorem cons (hp : p.kind.Lone) (h : Stacked (b + 1) l) : Stacked b (p :: l) :=
  (Stacked.nil.lone hp).append h

/-- The lowest of the choice points, if what is below the newest one is well nested. -/
theorem take_concat (h : Stacked b (l ++ [p])) (hl : ∀ n, Stacked b (l.take n)) (n : Nat) :
    Stacked b ((l ++ [p]).take n) := by
  obtain hn | hn := Nat.lt_or_ge l.length n
  · rwa [List.take_of_length_le (by simp; omega)]
  · rw [List.take_append_of_le_length hn]
    exact hl n

/-- The lowest of the choice points below and above one. -/
theorem take_between {e : ChoicePoint} (hl : ∀ n, Stacked b (l.take n))
    (hl' : ∀ n, Stacked (b + l.length + 1) (l'.take n)) (he : e.kind.Lone) (n : Nat) :
    Stacked b ((l ++ e :: l').take n) := by
  obtain hn | hn := Nat.lt_or_ge l.length n
  · obtain ⟨k, rfl⟩ : ∃ k, n = l.length + (k + 1) := ⟨n - l.length - 1, by omega⟩
    rw [List.take_length_add_append, List.take_succ_cons]
    have h := hl l.length
    rw [List.take_length] at h
    exact h.append (cons he (hl' k))
  · rw [List.take_append_of_le_length hn]
    exact hl n

/-- The lowest of the choice points. -/
theorem take (h : Stacked b l) (n : Nat) : Stacked b (l.take n) := by
  induction h generalizing n with
  | nil => exact (List.take_nil (i := n)).symm ▸ .nil
  | lone h hp ih => exact take_concat (h.lone hp) ih n
  | retry h hl hp ih => exact take_concat (h.retry hl hp) ih n
  | exit h h' he hp ih ih' =>
    exact take_concat (h.exit h' he hp) (take_between ih ih' (by rw [he]; trivial)) n
  | goal h h' he hl hp ih ih' => exact take_concat (h.goal h' he hl hp) (take_between ih ih' he) n

theorem dropLast (h : Stacked b l) : Stacked b l.dropLast :=
  List.dropLast_eq_take ▸ h.take _

theorem of_concat (h : Stacked b (l ++ [p])) : Stacked b l := by
  simpa using h.dropLast

/-- What a choice point of the kind needs to have below it, above the height. -/
def Supports (b : Nat) (l : List ChoicePoint) : ChoiceKind → Prop
  | .retry .. => l ≠ []
  | .exit _ height => ∃ k e k' code, l = k ++ e :: k' ∧ height = b + k.length + 1 ∧
      e.kind = .entry code ∧ Stacked b k ∧ Stacked (b + k.length + 1) k'
  | .native (.goal ..) => ∃ k e k', l = k ++ e :: k' ∧ k' ≠ [] ∧ e.kind.Lone ∧ Stacked b k ∧
      Stacked (b + k.length + 1) k'
  | _ => True

theorem supports (h : Stacked b (l ++ [p])) : Supports b l p.kind := by
  generalize hk : l ++ [p] = k at h
  cases h with
  | nil => simp at hk
  | lone _ hp =>
    obtain ⟨rfl, heq⟩ := List.append_inj' hk rfl
    cases heq
    revert hp
    cases p.kind with
    | native state => cases state <;> simp [Supports, ChoiceKind.Lone]
    | _ => simp [Supports, ChoiceKind.Lone]
  | retry _ hl hp =>
    obtain ⟨rfl, heq⟩ := List.append_inj' hk rfl
    cases heq
    rw [hp]
    exact hl
  | exit h h' he hp =>
    obtain ⟨rfl, heq⟩ := List.append_inj' hk rfl
    cases heq
    rw [hp]
    exact ⟨_, _, _, _, rfl, rfl, he, h, h'⟩
  | goal h h' he hl hp =>
    obtain ⟨rfl, heq⟩ := List.append_inj' hk rfl
    cases heq
    rw [hp]
    exact ⟨_, _, _, rfl, hl, he, h, h'⟩

end Stacked

/-- What two searches that are carried out alike stand on. -/
structure Footing where
  /-- The choice points below the first one. -/
  lower : List ChoicePoint
  /-- The choice points below the second one. -/
  lower' : List ChoicePoint
  /-- How many more these are. -/
  shift : Nat
  /-- So many. -/
  length : lower'.length = lower.length + shift
  /-- The searches set aside for the first one. -/
  returns : List ReturnPoint
  /-- The searches set aside for the second one. -/
  returns' : List ReturnPoint
  /-- The goal. -/
  active : Nat
  /-- How deep activations are nested in the first one. -/
  depth : Nat
  /-- How deep activations are nested in the second one. -/
  depth' : Nat
  /-- That is deeper. -/
  deeper : depth ≤ depth'
  /-- What has happened before the second one. -/
  told : Chronicle

namespace Footing

variable (F : Footing)

/-- The same searches on a footing that is higher by the choice points above the first one's. -/
def above (l : List ChoicePoint) : Footing :=
  { F with
    lower := F.lower ++ l
    lower' := F.lower' ++ l.map (ChoicePoint.raise F.shift)
    length := by rw [List.length_append, List.length_append, List.length_map, F.length]; omega }

@[simp] theorem shift_above (l : List ChoicePoint) : (F.above l).shift = F.shift := rfl

@[simp] theorem lower_above (l : List ChoicePoint) : (F.above l).lower = F.lower ++ l := rfl

/-- The same searches one level deeper. -/
def inside : Footing :=
  { F with depth := F.depth + 1, depth' := F.depth' + 1, deeper := Nat.succ_le_succ F.deeper }

/-- New searches with the given number, for which the others are set aside. -/
def nest (r r' : ReturnPoint) (id : Nat) : Footing :=
  { F with
    lower := []
    lower' := []
    shift := 0
    length := rfl
    returns := r :: F.returns
    returns' := r' :: F.returns'
    active := id }

/-- A limit has not allowed the second search what was to be done. -/
def Limited (t : Workspace) : Prop :=
  t.LimitedSince F.told

/-- The two searches have come equally far, with the given choice points above their footing. -/
structure Stands (l : List ChoicePoint) (s t : Workspace) : Prop where
  /-- The database is the same. -/
  database : t.database = s.database
  /-- The limits and switches are the same. -/
  config : t.engine.config = s.engine.config
  /-- The trail is the same. -/
  trail : t.engine.trail = s.engine.trail
  /-- The limit of the choice stack is the same. -/
  limit : t.engine.choices.limit = s.engine.choices.limit
  /-- The choice points of the first one. -/
  points : s.points = F.lower ++ l
  /-- The choice points of the second one. -/
  points' : t.points = F.lower' ++ l.map (ChoicePoint.raise F.shift)
  /-- They are well nested. -/
  stacked : Stacked F.lower.length l
  /-- The depth of the first one. -/
  depth : s.engine.depth = F.depth
  /-- The depth of the second one. -/
  depth' : t.engine.depth = F.depth'
  /-- The searches set aside for the first one. -/
  returns : s.engine.returnPoints = F.returns
  /-- The searches set aside for the second one. -/
  returns' : t.engine.returnPoints = F.returns'
  /-- The goal of the first one. -/
  active : s.engine.active = some F.active
  /-- The goal of the second one. -/
  active' : t.engine.active = some F.active
  /-- New goals get the same numbers. -/
  nextGoal : t.engine.nextGoal = s.engine.nextGoal
  /-- Nothing that has happened is forgotten. -/
  told : F.told <:+ t.chronicle

/-- Both searches have been ended, and have come equally far if they were not ended for want of fuel. -/
def Ended (e : Stop) (s t : Workspace) : Prop :=
  e ≠ .spent → ∃ l, F.Stands l s t

/-- Both steps have given the same answer, and the searches have come equally far. -/
def Agrees {α : Type} (l : List ChoicePoint) (a b : α) (s t : Workspace) : Prop :=
  a = b ∧ F.Stands l s t

/-- Both calls have given the same answer, and there is something to come back to if another one may
follow. -/
def Answered (a b : Answer) (s t : Workspace) : Prop :=
  a = b ∧ ∃ l, F.Stands l s t ∧ (a = .more → l ≠ [])

variable {F} {l l' : List ChoicePoint} {s t : Workspace}

namespace Stands

/-- All choice points may be taken for the footing. -/
theorem above (h : F.Stands (l ++ l') s t) (hl' : Stacked (F.lower.length + l.length) l') :
    (F.above l).Stands l' s t :=
  { h with
    points := h.points.trans (List.append_assoc ..).symm
    points' := by
      rw [h.points', List.map_append]
      exact (List.append_assoc ..).symm
    stacked := by
      rw [Footing.above, List.length_append]
      exact hl' }

theorem onTop (h : F.Stands l s t) : (F.above l).Stands [] s t :=
  have h : F.Stands (l ++ []) s t := (List.append_nil l).symm ▸ h
  h.above .nil

/-- Choice points of the footing may be taken for those of the search. -/
theorem below (h : (F.above l).Stands l' s t) (hl : Stacked F.lower.length l) : F.Stands (l ++ l') s t :=
  { h with
    points := h.points.trans (List.append_assoc ..)
    points' := by
      rw [h.points', List.map_append]
      exact List.append_assoc ..
    stacked := hl.append (by
      have := h.stacked
      rwa [Footing.above, List.length_append] at this) }

theorem moment (h : F.Stands l s t) : t.moment = s.moment := by
  rw [Workspace.moment, h.database, h.trail, Workspace.moment]

theorem unknownPolicy (h : F.Stands l s t) : t.unknownPolicy = s.unknownPolicy := by
  rw [Workspace.unknownPolicy, h.database, h.config, Workspace.unknownPolicy]

/-- The second search has more choice points. -/
theorem length (h : F.Stands l s t) : s.points.length = F.lower.length + l.length := by
  rw [h.points, List.length_append]

theorem length' (h : F.Stands l s t) : t.points.length = s.points.length + F.shift := by
  rw [h.points', h.length, List.length_append, List.length_map, F.length]
  omega

/-- Something happens to the second search. -/
theorem note (h : F.Stands l s t) (e e' : Ghost Chronicle.Event) : F.Stands l (s.note e) (t.note e') :=
  have told : F.told <:+ (t.note e').chronicle :=
    Workspace.chronicle_note t e' ▸ h.told.trans (List.suffix_cons ..)
  { h with told }

/-- The database has changed. -/
theorem update (h : F.Stands l s t) (d : Database) : F.Stands l ⟨d, s.engine⟩ ⟨d, t.engine⟩ :=
  { h with database := rfl }

/-- The database has changed in the same way. -/
theorem change (h : F.Stands l s t) (f : Database → Database) :
    F.Stands l ⟨f s.database, s.engine⟩ ⟨f t.database, t.engine⟩ :=
  { h with database := congrArg f h.database }

/-- Bindings and the trail have changed. -/
theorem rebind (h : F.Stands l s t) (m : Moment) :
    F.Stands l (Engine.rebind s m) (Engine.rebind t m) :=
  { h with
    database := by simp only [Engine.rebind, h.database]
    trail := rfl }

end Stands

/-! ### Operations of an engine -/

theorem excused {x : EngineM α} (hx : Effect.telling.Allows x) : Excused F.Limited x :=
  fun t ht => (hx t).imp (fun _ _ h => ht.later h) fun _ _ h => ht.later h

theorem Stands.ended (h : F.Stands l s t) (e : Stop) : F.Ended e s t :=
  fun _ => ⟨l, h⟩

namespace Stands

variable (h : F.Stands l s t)

include h

/-- A step on the database, whose exceptions leave the searches where they are. -/
theorem onDatabase_kept (x : DatabaseM α) :
    Surely F.Limited (Engine.onDatabase x) (Engine.onDatabase x) s t (F.Agrees l)
      fun _ s' t' => F.Stands l s' t' := by
  cases hx : x s.database with
  | ok a d =>
    have hrun (w : Workspace) (hw : w.database = s.database) :
        Engine.onDatabase x w = .ok a ⟨d, w.engine⟩ := by simp only [Engine.onDatabase, hw, hx]
    exact .of_ok (hrun s rfl) (hrun t h.database) ⟨rfl, h.update d⟩
  | error e d =>
    have hrun (w : Workspace) (hw : w.database = s.database) :
        Engine.onDatabase x w = .error (.thrown e) ⟨d, w.engine⟩ := by
      simp only [Engine.onDatabase, hw, hx]
    exact .of_error (hrun s rfl) (hrun t h.database) (h.update d)

theorem onDatabase (x : DatabaseM α) : Surely F.Limited (Engine.onDatabase x) (Engine.onDatabase x) s t
    (F.Agrees l) F.Ended :=
  (h.onDatabase_kept x).imp (fun _ _ _ _ h => h) fun e _ _ h => h.ended e

theorem onTerms (x : StateM Universe α) {E : Stop → Workspace → Workspace → Prop} :
    Surely F.Limited (Engine.onTerms x) (Engine.onTerms x) s t (F.Agrees l) E := by
  have hrun (w : Workspace) (hw : w.database = s.database) : Engine.onTerms x w =
      .ok (x s.database.terms).1 ⟨{ s.database with terms := (x s.database.terms).2 }, w.engine⟩ := by
    rw [← hw]
    rfl
  exact .of_ok (hrun s rfl) (hrun t h.database) ⟨rfl, h.update _⟩

theorem onBindings (f : Store → Trail Empty → α × Store × Trail Empty)
    {E : Stop → Workspace → Workspace → Prop} :
    Surely F.Limited (Engine.onBindings f) (Engine.onBindings f) s t (F.Agrees l) E := by
  have hx (s : Workspace) : Engine.onBindings f s = .ok (f s.moment.store s.moment.trail).1
      (Engine.rebind s ⟨(f s.moment.store s.moment.trail).2.1, (f s.moment.store s.moment.trail).2.2⟩) :=
    rfl
  have hy := hx t
  rw [h.moment] at hy
  exact .of_ok (hx s) hy ⟨rfl, h.rebind _⟩

theorem deref (t' : Term) : Surely F.Limited (Engine.deref t') (Engine.deref t') s t (F.Agrees l)
    F.Ended := by
  refine .of_ok rfl rfl ⟨?_, h⟩
  rw [h.database]

theorem raise (e : ErrorKind) {Q : α → β → Workspace → Workspace → Prop} :
    Surely F.Limited (Engine.raise e : EngineM α) (Engine.raise e : EngineM β) s t Q F.Ended := by
  have hrun {γ : Type} (w : Workspace) (hw : w.database = s.database) : (Engine.raise e : EngineM γ) w =
      .error (.thrown (Exception.ofError e s.database.terms).1)
        ⟨{ s.database with terms := (Exception.ofError e s.database.terms).2 }, w.engine⟩ := by
    rw [← hw]
    rfl
  exact .of_error (hrun s rfl) (hrun t h.database) ((h.update _).ended _)

theorem throwTerm (t' : Term) {Q : α → β → Workspace → Workspace → Prop} :
    Surely F.Limited (Engine.throwTerm t' : EngineM α) (Engine.throwTerm t' : EngineM β) s t Q F.Ended := by
  refine (h.onTerms _).bind fun x y s' t' h' => ?_
  obtain ⟨rfl, h'⟩ := h'
  exact .throw (h'.ended _)

theorem tell (e : Chronicle.Event) {E : Stop → Workspace → Workspace → Prop} :
    Surely F.Limited (Engine.note e) (Engine.note e) s t (F.Agrees l) E :=
  .of_ok rfl rfl ⟨rfl, h.note _ _⟩

theorem quit (n : Int) {Q : α → β → Workspace → Workspace → Prop} :
    Surely F.Limited (Engine.quit n : EngineM α) (Engine.quit n : EngineM β) s t Q F.Ended :=
  (h.tell _).bind fun _ _ _ _ h' => .throw (h'.2.ended _)

theorem mark {E : Stop → Workspace → Workspace → Prop} :
    Surely F.Limited Engine.mark Engine.mark s t (F.Agrees l) E :=
  h.onBindings _

theorem undoTo (m : Nat) {E : Stop → Workspace → Workspace → Prop} :
    Surely F.Limited (Engine.undoTo m) (Engine.undoTo m) s t (F.Agrees l) E :=
  h.onBindings _

theorem answered (o : Option α) : Surely F.Limited (Engine.answered o) (Engine.answered o) s t
    (F.Agrees l) F.Ended := by
  cases o with
  | none => exact .throw (h.ended _)
  | some a => exact .pure ⟨rfl, h⟩

theorem unify (n : Nat) (u v : Term) : Surely F.Limited (Engine.unify n u v) (Engine.unify n u v) s t
    (F.Agrees l) F.Ended :=
  (h.onBindings _).bind fun _ _ _ _ h' => h'.1 ▸ h'.2.answered _

theorem unifyInPlace (n : Nat) (u v : Term) : Surely F.Limited (Engine.unifyInPlace n u v)
    (Engine.unifyInPlace n u v) s t (F.Agrees l) F.Ended :=
  (h.onBindings _).bind fun _ _ _ _ h' => h'.1 ▸ h'.2.answered _

end Stands

/-! ### Choice points -/

theorem length_points (s : Workspace) : s.points.length = s.engine.choices.size := by
  rw [Workspace.points, Array.length_toList, ChoiceStack.size]

namespace Stands

variable (h : F.Stands l s t)

include h

/-- Where the choice stack of the second search has room, so has that of the first one. -/
theorem hasRoom (ht : t.engine.choices.hasRoom) : s.engine.choices.hasRoom := by
  have hsize : t.engine.choices.size < t.engine.choices.limit := of_decide_eq_true ht
  refine decide_eq_true (?_ : s.engine.choices.size < _)
  rw [h.limit, ← length_points, h.length', length_points] at hsize
  exact Nat.lt_of_le_of_lt (Nat.le_add_right ..) hsize

theorem height {E : Stop → Workspace → Workspace → Prop} :
    Surely F.Limited Engine.height Engine.height s t (fun a b s' t' => b = a + F.shift ∧
      a = F.lower.length + l.length ∧ F.Stands l s' t') E := by
  refine .of_ok rfl rfl ⟨?_, ?_, h⟩
  · rw [← length_points, ← length_points, h.length']
  · rw [← length_points, h.length]

/-- The newest choice point is looked at. -/
theorem top? {k : List ChoicePoint} {p : ChoicePoint} (hl : l = k ++ [p])
    {E : Stop → Workspace → Workspace → Prop} : Surely F.Limited Engine.top? Engine.top? s t
      (fun a b s' t' => a = some p ∧ b = some (p.raise F.shift) ∧ s' = s ∧ t' = t) E := by
  subst hl
  have hrun {w : Workspace} {l : List ChoicePoint} {q : ChoicePoint} (hw : w.points = l ++ [q]) :
      Engine.top? w = .ok (some q) w := by
    show EStateM.Result.ok w.engine.choices.points.back? w = _
    rw [← Array.getLast?_toList, ← Workspace.points, hw, List.getLast?_concat]
  have hpoints' : t.points = (F.lower' ++ k.map (ChoicePoint.raise F.shift)) ++ [p.raise F.shift] := by
    rw [h.points', List.map_append, ← List.append_assoc]
    rfl
  exact .of_ok (hrun (h.points.trans (List.append_assoc ..).symm)) (hrun hpoints') ⟨rfl, rfl, rfl, rfl⟩

/-- The choice stacks have changed alike. -/
theorem setChoices {k : List ChoicePoint} (hk : Stacked F.lower.length k) {c c' : ChoiceStack}
    (hlimit : c'.limit = c.limit) (hc : c.points.toList = F.lower ++ k)
    (hc' : c'.points.toList = F.lower' ++ k.map (ChoicePoint.raise F.shift)) :
    F.Stands k { s with engine := { s.engine with choices := c } }
      { t with engine := { t.engine with choices := c' } } :=
  { h with limit := hlimit, points := hc, points' := hc', stacked := hk }

/-- The newest choice point is taken away. -/
theorem pop (hl : l ≠ []) {E : Stop → Workspace → Workspace → Prop} :
    Surely F.Limited Engine.pop Engine.pop s t (F.Agrees l.dropLast) E := by
  refine .of_ok rfl rfl ⟨rfl, h.setChoices h.stacked.dropLast h.limit ?_ ?_⟩
  · show s.engine.choices.points.pop.toList = _
    rw [Array.toList_pop, ← Workspace.points, h.points, List.dropLast_append_of_ne_nil hl]
  · show t.engine.choices.points.pop.toList = _
    rw [Array.toList_pop, ← Workspace.points, h.points',
      List.dropLast_append_of_ne_nil (by simpa using hl), List.map_dropLast]

/-- Choice points are cut off, at the same height above the footing. -/
theorem cutTo {n : Nat} (hn : F.lower.length ≤ n) {E : Stop → Workspace → Workspace → Prop} :
    Surely F.Limited (Engine.cutTo n) (Engine.cutTo (n + F.shift)) s t
      (F.Agrees (l.take (n - F.lower.length))) E := by
  have hrun (w : Workspace) (n : Nat) : Engine.cutTo n w =
      .ok ((w.points.drop n).reverse.filterMap ChoicePoint.cleanup?)
        { w with engine := { w.engine with choices := (w.engine.choices.cutTo n).2 } } := by
    have hextract : (w.engine.choices.points.extract n w.engine.choices.points.size).toList =
        w.points.drop n := by
      rw [Array.toList_extract, List.extract_eq_take_drop, ← Array.length_toList, ← List.length_drop,
        List.take_length, Workspace.points]
    rw [← hextract]
    rfl
  have hshrink (w : Workspace) (n : Nat) :
      (w.engine.choices.points.shrink n).toList = w.points.take n := Array.toList_shrink
  have hlower : n + F.shift - F.lower'.length = n - F.lower.length := by
    rw [F.length]
    omega
  have hlower' : F.lower'.length ≤ n + F.shift := by
    rw [F.length]
    omega
  refine .of_ok (hrun s n) (hrun t _) ⟨?_, h.setChoices (h.stacked.take _) h.limit ?_ ?_⟩
  · rw [h.points, h.points', List.drop_append, List.drop_append, List.drop_of_length_le hn,
      List.drop_of_length_le hlower', hlower, ← List.map_drop, List.nil_append, List.nil_append,
      ← List.map_reverse, List.filterMap_map]
    exact List.filterMap_congr fun p _ => (p.cleanup?_raise _).symm
  · exact (hshrink s n).trans (by rw [h.points, List.take_append, List.take_of_length_le hn])
  · refine (hshrink t _).trans ?_
    rw [h.points', List.take_append, List.take_of_length_le hlower', hlower, List.map_take]

/-- A choice point is made by both searches, if the second one has room for it. -/
theorem pushChoice {kind : ChoiceKind} (hkind : ∀ m, Stacked F.lower.length (l ++ [⟨m, kind⟩]))
    {E : Stop → Workspace → Workspace → Prop} :
    Surely F.Limited (Engine.pushChoice kind) (Engine.pushChoice (kind.raise F.shift)) s t
      (fun _ _ s' t' => ∃ m, F.Stands (l ++ [⟨m, kind⟩]) s' t') E := by
  by_cases hroom : t.engine.choices.hasRoom
  · refine .of_ok (Engine.pushChoice_of_hasRoom (h.hasRoom hroom) kind)
      (Engine.pushChoice_of_hasRoom hroom _) ⟨s.engine.trail.mark.1, ?_⟩
    have hpush : F.Stands (l ++ [⟨s.engine.trail.mark.1, kind⟩]) { s with engine := { s.engine with
        trail := s.engine.trail.mark.2
        choices := s.engine.choices.push ⟨s.engine.trail.mark.1, kind⟩
          (.of ⟨s.database.terms.store, s.engine.trail.mark.2⟩) } }
        { t with engine := { t.engine with
          trail := t.engine.trail.mark.2
          choices := t.engine.choices.push ⟨t.engine.trail.mark.1, kind.raise F.shift⟩
            (.of ⟨t.database.terms.store, t.engine.trail.mark.2⟩) } } := by
      have htrail := h.trail
      refine { h with
        trail := by simp only [htrail]
        points := ?_
        points' := ?_
        stacked := hkind _ }
      · show (s.engine.choices.points.push _).toList = _
        rw [Array.toList_push, ← Workspace.points, h.points, List.append_assoc]
      · show (t.engine.choices.points.push _).toList = _
        rw [Array.toList_push, ← Workspace.points, h.points', List.map_append, ← List.append_assoc, htrail]
        rfl
    cases kind with
    | cleanup goal => exact hpush.note _ _
    | _ => exact hpush
  · exact .of_excused (Workspace.refused_pushChoice h.told hroom _)

/-- An alternative gets another place to go on at. -/
theorem setTop {k : List ChoicePoint} {p : ChoicePoint} (hl : l = k ++ [p]) (m n : Nat) :
    Surely F.Limited (Engine.onChoices fun c => ((), c.setTop ⟨m, .alternative n⟩))
      (Engine.onChoices fun c => ((), c.setTop ⟨m, .alternative n⟩)) s t
      (F.Agrees (k ++ [⟨m, .alternative n⟩])) F.Ended := by
  subst hl
  have hset {w : Workspace} {l : List ChoicePoint} {q : ChoicePoint} (hw : w.points = l ++ [q]) :
      (w.engine.choices.setTop ⟨m, .alternative n⟩).points.toList = l ++ [⟨m, .alternative n⟩] := by
    have hsize : w.engine.choices.points.size = l.length + 1 := by
      rw [← Array.length_toList, ← Workspace.points, hw, List.length_append, List.length_singleton]
    rw [ChoiceStack.setTop, Array.toList_setIfInBounds, hsize, ← Workspace.points, hw,
      Nat.add_sub_cancel, List.set_append_right _ _ (Nat.le_refl _), Nat.sub_self, List.set_cons_zero]
  have hpoints' : t.points = (F.lower' ++ k.map (ChoicePoint.raise F.shift)) ++ [p.raise F.shift] := by
    rw [h.points', List.map_append, ← List.append_assoc]
    rfl
  have hstacked : Stacked F.lower.length (k ++ [⟨m, .alternative n⟩]) :=
    h.stacked.of_concat.lone (p := ⟨m, .alternative n⟩) trivial
  refine .of_ok rfl rfl ⟨rfl, h.setChoices hstacked h.limit ?_ ?_⟩
  · rw [hset (h.points.trans (List.append_assoc ..).symm), List.append_assoc]
  · rw [hset hpoints', List.map_append, List.append_assoc]
    rfl

/-- What a native predicate has kept is taken back. -/
theorem popNativeState (hl : l ≠ []) : Surely F.Limited Engine.popNativeState Engine.popNativeState s t
    (fun a b s' t' => a = b ∧ ((∀ state ∈ a, ∃ m k, l = k ++ [⟨m, .native state⟩] ∧ F.Stands k s' t') ∧
      (a = none → F.Stands l s' t'))) F.Ended := by
  obtain ⟨k, ⟨m, kind⟩, rfl⟩ := List.eq_nil_or_concat' l |>.resolve_left hl
  refine (h.top? rfl).bind ?_
  rintro _ _ _ _ ⟨rfl, rfl, rfl, rfl⟩
  cases kind with
  | native state =>
    refine (h.pop hl).bind fun _ _ s' t' h' => ?_
    refine (h'.2.undoTo m).bind fun _ _ s'' t'' h'' => .pure ⟨rfl, fun state' hstate => ?_, by simp⟩
    cases hstate
    exact ⟨m, k, rfl, by simpa using h''.2⟩
  | _ => exact .pure ⟨rfl, by simp, fun _ => h⟩

/-- A cleanup goal is taken off the choice stack, if there is one on top. -/
theorem popCleanup (hl : l ≠ []) : Surely F.Limited Engine.popCleanup Engine.popCleanup s t
    (fun a b s' t' => a = b ∧ ∃ k, F.Stands k s' t') F.Ended := by
  obtain ⟨k, ⟨m, kind⟩, rfl⟩ := List.eq_nil_or_concat' l |>.resolve_left hl
  refine (h.top? rfl).bind ?_
  rintro _ _ _ _ ⟨rfl, rfl, rfl, rfl⟩
  cases kind with
  | cleanup goal => exact (h.pop hl).bind fun _ _ s' t' h' => .pure ⟨rfl, _, h'.2⟩
  | _ => exact .pure ⟨rfl, _, h⟩

/-! ### Calls that are counted -/

theorem checkDepth : Surely F.Limited Solver.checkDepth Solver.checkDepth s t (F.Agrees l) F.Ended := by
  refine Yields.imp (Workspace.refused_checkDepth h.told) ?_ fun _ _ h => .inl h
  rintro _ _ ⟨rfl, hdepth, hstack⟩
  refine .inr ⟨(), s, Solver.checkDepth_of_allowed ?_ ?_, rfl, h⟩
  · rw [h.config, h.depth'] at hdepth
    rw [h.depth]
    exact fun hle => hdepth (Nat.le_trans hle F.deeper)
  · rw [h.config, h.depth'] at hstack
    rw [h.depth]
    exact fun hlt => hstack (Nat.lt_of_lt_of_le hlt (Nat.mul_le_mul_right _ F.deeper))

/-- Both calls are counted. -/
theorem nested {x y : EngineM Answer} (hx : ∀ s t, F.inside.Stands l s t →
      Parallel F.Limited x y s t F.inside.Answered F.inside.Ended) :
    Parallel F.Limited (Solver.nested x) (Solver.nested y) s t F.Answered F.Ended := by
  have hin : F.inside.Stands l (s.atDepth (s.engine.depth + 1)) (t.atDepth (t.engine.depth + 1)) :=
    { h with depth := congrArg (· + 1) h.depth, depth' := congrArg (· + 1) h.depth' }
  have hout {k : List ChoicePoint} {s t : Workspace} (h : F.inside.Stands k s t) :
      F.Stands k (s.atDepth (s.engine.depth - 1)) (t.atDepth (t.engine.depth - 1)) :=
    { h with
      depth := by rw [Workspace.atDepth, h.depth]; rfl
      depth' := by rw [Workspace.atDepth, h.depth']; rfl }
  refine Solver.yields_nested.mpr (Yields.imp (hx _ _ hin) ?_ ?_)
  · rintro b t' (hl | ⟨_, s', hx, rfl, k, hk, hmore⟩)
    · exact .inl hl
    · exact .inr ⟨_, _, Solver.nested_of_ok hx, rfl, k, hout hk, hmore⟩
  · rintro e t' (hl | ⟨s', hx, hended⟩)
    · exact .inl hl
    · refine .inr ⟨_, Solver.nested_of_error hx, fun hne => ?_⟩
      obtain ⟨k, hk⟩ := hended hne
      exact ⟨k, hout hk⟩

end Stands

end Footing

end Resolvent
