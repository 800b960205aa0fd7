import Resolvent.Proofs.Pieces

/-!
# The two passes of the compiler agree

The first pass reads the clauses, counts the slots for the barriers and balls of their goals and gives
the variables slots behind them. The second pass takes slots and labels one by one as it comes to the goals
that need them. In what it writes, every slot that it takes is set once (`Listed.count_slotsSet`) and
every label that it takes is placed once (`Listed.count_labels`), and it refers to no others
(`Listed.refersBelow`). It takes as many slots as the first pass counts, for whatever nesting of the control
constructs, so it does not fail on clauses that have been read (`Program.passes_agree`).
-/

namespace Resolvent

namespace Program

/-! ### Slots of variables -/

/-- As many slots have been given behind the first ones as there are distinct variables, one to each. -/
structure Slots.Counts (first : Nat) (vs : List Var) (acc : Slots × Nat) : Prop where
  /-- The next slot. -/
  next : acc.2 = first + vs.toFinset.card
  /-- The variables have slots, and no others. -/
  contains : ∀ v : Var, acc.1.contains v.id ↔ v ∈ vs

theorem Slots.Counts.see {first : Nat} {vs : List Var} {acc : Slots × Nat} (h : Slots.Counts first vs acc)
    (w : Var) : Slots.Counts first (vs ++ [w]) (if acc.1.contains w.id then acc
      else (acc.1.insert w.id (.ofNat acc.2), acc.2 + 1)) := by
  have hfinset : (vs ++ [w]).toFinset = insert w vs.toFinset := by
    rw [List.toFinset_append, Finset.union_comm]
    rfl
  by_cases hw : w ∈ vs
  · rw [if_pos ((h.contains w).mpr hw)]
    refine ⟨?_, fun v => ?_⟩
    · rw [hfinset, Finset.insert_eq_of_mem (List.mem_toFinset.mpr hw)]
      exact h.next
    · rw [h.contains, List.mem_append, List.mem_singleton]
      exact ⟨.inl, fun hv => hv.elim id fun hv => hv ▸ hw⟩
  · rw [if_neg (hw ∘ (h.contains w).mp)]
    refine ⟨?_, fun v => ?_⟩
    · rw [hfinset, Finset.card_insert_of_notMem (hw ∘ List.mem_toFinset.mp), h.next, Nat.add_assoc]
    · simp only [Std.TreeMap.contains_insert, Bool.or_eq_true, beq_iff_eq, h.contains, List.mem_append,
        List.mem_singleton]
      rw [or_comm, Std.LawfulEqCmp.compare_eq_iff_eq]
      exact or_congr_right ⟨fun hv => (congrArg Var.mk hv).symm, fun hv => hv ▸ rfl⟩

/-- Every variable gets a slot. -/
theorem counts_variableSlots (first : Nat) (rules : List Rule) :
    Slots.Counts first (rules.flatMap (·.vars)) (variableSlots first rules) := by
  have hstep : variableSlots first rules = (rules.flatMap (·.vars)).foldl (fun acc v =>
      if acc.1.contains v.id then acc else (acc.1.insert v.id (.ofNat acc.2), acc.2 + 1)) (∅, first) := by
    rw [variableSlots, List.foldl_flatMap]
  rw [hstep]
  induction rules.flatMap (·.vars) using List.reverseRecOn with
  | nil => exact ⟨rfl, by simp⟩
  | append_singleton vs w ih =>
    rw [List.foldl_append]
    exact ih.see w

/-! ### Labels -/

/-- One for a number from `a` on and before `b`, and zero for another one. -/
def within (a b m : Nat) : Nat :=
  if a ≤ m ∧ m < b then 1 else 0

theorem within_self (a m : Nat) : within a a m = 0 :=
  if_neg (by omega)

theorem within_add {a b c : Nat} (hab : a ≤ b) (hbc : b ≤ c) (m : Nat) :
    within a b m + within b c m = within a c m := by
  unfold within
  split_ifs <;> omega

/-- How often a label is placed where a piece says so, and not by the goals in it. -/
def Piece.places (m : Nat) : Piece → Nat
  | .label n => if n = m then 1 else 0
  | .guarded k => [k.handler.start, k.handler.stop, k.handler.target, k.rethrow, k.done].count m
  | .rules pending _ _ => if pending = some m then 1 else 0
  | _ => 0

theorem Piece.Plain.places_eq (m : Nat) : ∀ {p : Piece}, p.Plain → p.places m = 0
  | .instruction _, _ | .tree _, _ | .store _, _ => rfl

/-- A goal places the labels that it takes once each. -/
theorem total_places_goal (b : UInt16) (n l m : Nat) (g : Goal) :
    total ((g.pieces b n l).map (Piece.places m)) = within l (l + g.ownLabels) m := by
  cases g <;> simp only [within, Goal.pieces, Goal.ownLabels, Piece.places, Function.comp_def,
    List.count_cons, List.count_nil, List.map_cons, List.map_nil, List.map_append, total_cons, total_nil,
      total_append, List.map_map, List.map_const', total_replicate_zero, beq_iff_eq] <;> grind

theorem total_places_catch (k : Catch) (m : Nat) :
    total (k.pieces.map (Piece.places m)) = [k.handler.target, k.rethrow, k.done].count m := by
  simp only [Catch.pieces, Piece.places, List.map_cons, List.map_nil, total_cons, total_nil,
    List.count_cons, List.count_nil, beq_iff_eq]
  omega

/-- The label that leads to the next clause is placed in front of it. -/
theorem total_places_chain (l m : Nat) (pending : Option Nat) (rest : List Rule) :
    total ((Rule.chainPieces l pending rest).map (Piece.places m)) +
        total ((Rule.restPieces l rest).map (Piece.places m)) =
      (if pending = some m then 1 else 0) + within l (l + Rule.ownLabels rest) m := by
  cases pending <;> cases rest <;>
    simp only [within, Rule.chainPieces, Rule.restPieces, Rule.ownLabels, Piece.places, List.map_cons,
      List.map_nil, total_cons, total_nil, Option.some.injEq, reduceCtorEq, if_false] <;> grind

theorem labels_cons_instruction (i : Instruction Term Tag Nat) (ls : List Line) :
    labels (.instruction i :: ls) = labels ls := rfl

theorem labels_cons_label (n : Nat) (ls : List Line) : labels (.label n :: ls) = n :: labels ls := rfl

theorem Entry.lines_map (ls : List Line) (scopes : List Catch) :
    (ls.map (Entry.mk · scopes)).map Entry.line = ls := by
  simp [Function.comp_def]

/-- Every label that is taken is placed once, and so is every label that the pieces place. -/
theorem Listed.count_labels {slots : Slots} {scopes : List Catch} {n l n' l' : Nat} {ps : List Piece}
    {es : List Entry} {ks : List Catch} (h : Listed slots scopes n l ps es ks n' l') (m : Nat) :
    l ≤ l' ∧ (labels (es.map Entry.line)).count m =
      total (ps.map (Piece.places m)) + within l l' m := by
  induction h with
  | nil => exact ⟨Nat.le_refl _, by simp [labels, within_self]⟩
  | instruction i _ ih =>
    simpa [labels_cons_instruction, Piece.places] using ih
  | label a _ ih =>
    refine ⟨ih.1, ?_⟩
    rw [List.map_cons, labels_cons_label, List.count_cons, ih.2]
    simp only [List.map_cons, total_cons, Piece.places, beq_iff_eq]
    omega
  | tree hls _ ih =>
    rw [List.map_append, Entry.lines_map, labels_append, hls.labels_eq, List.nil_append]
    simpa [Piece.places] using ih
  | store _ _ ih => simpa [labels_cons_instruction, Piece.places] using ih
  | none _ _ ih => simpa [Piece.places] using ih
  | @goal scopes n l n' l' ps es ks b g gs _ ih =>
    have hadd := within_add (Nat.le_add_right l g.ownLabels) ih.1 m
    refine ⟨by omega, ?_⟩
    rw [ih.2, List.map_append, total_append, total_places_goal]
    simp only [List.map_cons, total_cons, Piece.places]
    omega
  | @guarded scopes n l n₁ l₁ n₂ l₂ n' l' ps es₁ es₂ es ks₁ ks₂ ks k _ _ _ ihbody ihrest ih =>
    have hadd := within_add ihbody.1 ihrest.1 m
    have hadd' := within_add (ihbody.1.trans ihrest.1) ih.1 m
    refine ⟨by omega, ?_⟩
    rw [total_places_catch] at ihrest
    simp only [List.map_cons, List.map_append, labels_cons_instruction, labels_cons_label, labels_append,
      List.count_append, List.count_cons, List.count_nil, ihbody.2, ihrest.2, ih.2, Piece.places, total_cons,
      List.map_nil, total_nil]
    omega
  | @rules scopes n l n' l' ps es ks pending r rest _ ih =>
    have hchain := total_places_chain l m pending rest
    have hadd := within_add (Nat.le_add_right l (Rule.ownLabels rest)) ih.1 m
    refine ⟨by omega, ?_⟩
    rw [ih.2, List.map_append, List.map_append, List.map_append, total_append, total_append, total_append,
      total_rule fun _ => Piece.Plain.places_eq m]
    simp only [List.map_cons, total_cons, Piece.places]
    omega

namespace Emit

variable {slots : Slots}

mutual

/-- The code of a tree refers to no label and writes no slot. -/
theorem Writes.plain : ∀ {t : Tree} {ls : List Line}, Writes slots t ls →
    ∀ i, .instruction i ∈ ls → i.place? = none ∧ i.setSlot? = none
  | _, _, .var _, i, hi | _, _, .constant _, i, hi => by
    cases List.mem_singleton.mp hi
    exact ⟨rfl, rfl⟩
  | _, _, .compound h, i, hi => by
    obtain hi | hi := List.mem_append.mp hi
    · exact h.plain i hi
    · cases List.mem_singleton.mp hi
      exact ⟨rfl, rfl⟩

theorem WritesAll.plain : ∀ {ts : List Tree} {ls : List Line}, WritesAll slots ts ls →
    ∀ i, .instruction i ∈ ls → i.place? = none ∧ i.setSlot? = none
  | _, _, .nil, _, hi => absurd hi List.not_mem_nil
  | _, _, .cons h hs, i, hi => (List.mem_append.mp hi).elim (h.plain i) (hs.plain i)

end

end Emit

/-! ### Labels that are referred to -/

/-- The labels that a piece refers to itself, and not the goals in it, are below a number. -/
def Piece.Below (l : Nat) : Piece → Prop
  | .instruction i => ∀ n, i.place? = some n → n < l
  | .guarded k => ∀ n ∈ [k.handler.start, k.handler.stop, k.handler.target, k.rethrow, k.done], n < l
  | _ => True

theorem Piece.Below.mono {l l' : Nat} (hl : l ≤ l') : ∀ {p : Piece}, p.Below l → p.Below l'
  | .instruction _, h => fun n hn => Nat.lt_of_lt_of_le (h n hn) hl
  | .guarded _, h => fun n hn => Nat.lt_of_lt_of_le (h n hn) hl
  | .label _, _ | .tree _, _ | .store _, _ | .goals .., _ | .rules .., _ => trivial

theorem below_goal (b : UInt16) (n l : Nat) (g : Goal) : ∀ p ∈ g.pieces b n l, p.Below (l + g.ownLabels) := by
  cases g with
  | call tag args =>
    rw [Goal.pieces, List.forall_mem_append, List.forall_mem_map, List.forall_mem_singleton]
    exact ⟨fun t _ => trivial, fun n hn => by cases hn⟩
  | _ => simp [Goal.pieces, Goal.ownLabels, Piece.Below, Instruction.place?]

theorem below_catch {k : Catch} {l : Nat} (h : (Piece.guarded k).Below l) : ∀ p ∈ k.pieces, p.Below l := by
  simp [Piece.Below] at h
  simp [Catch.pieces, Piece.Below, Instruction.place?, h]

theorem Piece.Plain.below {l : Nat} : ∀ {p : Piece}, p.Plain → p.Below l
  | .instruction _, h => fun n hn => by rw [h.1] at hn; cases hn
  | .tree _, _ | .store _, _ => trivial

theorem below_rule (l : Nat) (r : Rule) : ∀ p ∈ r.pieces, p.Below l := by
  obtain ⟨front, hfront, hplain⟩ := exists_front r
  rw [hfront, List.forall_mem_append]
  exact ⟨fun p hp => (hplain p hp).below, by simp [Piece.Below, Instruction.place?]⟩

theorem below_chain (l : Nat) (pending : Option Nat) (rest : List Rule) :
    ∀ p ∈ Rule.chainPieces l pending rest, p.Below (l + Rule.ownLabels rest) := by
  cases pending <;> cases rest <;> simp [Rule.chainPieces, Rule.ownLabels, Piece.Below, Instruction.place?]

/-- The labels that lines and handlers refer to are below a number. -/
structure RefersBelow (l : Nat) (es : List Entry) (ks : List Catch) : Prop where
  /-- Those of the instructions. -/
  lines : ∀ i, .instruction i ∈ es.map Entry.line → ∀ n, i.place? = some n → n < l
  /-- Those of the handlers. -/
  handlers : ∀ k ∈ ks, ∀ n ∈ [k.handler.start, k.handler.stop, k.handler.target], n < l

namespace RefersBelow

variable {l l' : Nat} {es es' : List Entry} {ks ks' : List Catch}

theorem nil : RefersBelow l [] [] :=
  ⟨fun _ hi => absurd hi List.not_mem_nil, fun _ hk => absurd hk List.not_mem_nil⟩

theorem mono (h : RefersBelow l es ks) (hl : l ≤ l') : RefersBelow l' es ks :=
  ⟨fun i hi n hn => Nat.lt_of_lt_of_le (h.lines i hi n hn) hl,
    fun k hk n hn => Nat.lt_of_lt_of_le (h.handlers k hk n hn) hl⟩

theorem append (h : RefersBelow l es ks) (h' : RefersBelow l es' ks') :
    RefersBelow l (es ++ es') (ks ++ ks') := by
  refine ⟨fun i hi => ?_, List.forall_mem_append.mpr ⟨h.handlers, h'.handlers⟩⟩
  rw [List.map_append] at hi
  exact (List.mem_append.mp hi).elim (h.lines i) (h'.lines i)

/-- A line with an instruction. -/
theorem instruction {i : Instruction Term Tag Nat} (scopes : List Catch)
    (hi : ∀ n, i.place? = some n → n < l) (h : RefersBelow l es ks) :
    RefersBelow l (⟨.instruction i, scopes⟩ :: es) ks := by
  have hline : RefersBelow l [⟨.instruction i, scopes⟩] [] := by
    refine ⟨fun j hj => ?_, nil.handlers⟩
    cases List.mem_singleton.mp hj
    exact hi
  exact hline.append h

/-- A line with a label. -/
theorem label (n : Nat) (scopes : List Catch) (h : RefersBelow l es ks) :
    RefersBelow l (⟨.label n, scopes⟩ :: es) ks := by
  have hline : RefersBelow l [⟨.label n, scopes⟩] [] :=
    ⟨fun j hj => (by cases List.mem_singleton.mp hj), nil.handlers⟩
  exact hline.append h

end RefersBelow

/-- No label is referred to before it is taken. -/
theorem Listed.refersBelow {slots : Slots} {scopes : List Catch} {n l n' l' : Nat} {ps : List Piece}
    {es : List Entry} {ks : List Catch} (h : Listed slots scopes n l ps es ks n' l')
    (hps : ∀ p ∈ ps, p.Below l) : RefersBelow l' es ks := by
  induction h with
  | nil => exact .nil
  | instruction i h ih =>
    obtain ⟨hi, hps⟩ := List.forall_mem_cons.mp hps
    exact .instruction _ (fun m hm => Nat.lt_of_lt_of_le (hi m hm) (h.count_labels 0).1) (ih hps)
  | label a h ih => exact .label _ _ (ih (List.forall_mem_cons.mp hps).2)
  | @tree scopes n l n' l' ps es ks t ls hls h ih =>
    have hlines : RefersBelow l' (ls.map (Entry.mk · scopes)) [] := by
      refine ⟨fun i hi m hm => ?_, RefersBelow.nil.handlers⟩
      rw [Entry.lines_map] at hi
      rw [(hls.plain i hi).1] at hm
      cases hm
    exact hlines.append (ih (List.forall_mem_cons.mp hps).2)
  | store hv h ih => exact .instruction _ (fun m hm => by cases hm) (ih (List.forall_mem_cons.mp hps).2)
  | none b h ih => exact ih (List.forall_mem_cons.mp hps).2
  | @goal scopes n l n' l' ps es ks b g gs h ih =>
    refine ih ?_
    rw [List.forall_mem_append, List.forall_mem_cons]
    exact ⟨below_goal b n l g, trivial, fun p hp =>
      ((List.forall_mem_cons.mp hps).2 p hp).mono (Nat.le_add_right _ _)⟩
  | @guarded scopes n l n₁ l₁ n₂ l₂ n' l' ps es₁ es₂ es ks₁ ks₂ ks k hbody hrest h ihbody ihrest ih =>
    obtain ⟨hk, hps⟩ := List.forall_mem_cons.mp hps
    have hle := (hbody.count_labels 0).1
    have hle₁ := (hrest.count_labels 0).1
    have hle₂ := (h.count_labels 0).1
    have hes₁ := (ihbody (List.forall_mem_singleton.mpr trivial)).mono (hle₁.trans hle₂)
    have hes₂ := (ihrest fun p hp => (below_catch hk p hp).mono hle).mono hle₂
    have hes := ih fun p hp => (hps p hp).mono (hle.trans hle₁)
    have hself : RefersBelow l' [] [k] := by
      refine ⟨RefersBelow.nil.lines, List.forall_mem_singleton.mpr fun m hm => ?_⟩
      have := hk m (List.mem_append_left [k.rethrow, k.done] hm)
      omega
    exact .instruction _ (fun m hm => by cases hm)
      (.label _ _ (hes₁.append (.label _ _ (hes₂.append (hself.append hes)))))
  | @rules scopes n l n' l' ps es ks pending r rest h ih =>
    refine ih ?_
    rw [List.forall_mem_append, List.forall_mem_append, List.forall_mem_append]
    refine ⟨below_chain l pending rest, below_rule _ r, ?_, fun p hp =>
      ((List.forall_mem_cons.mp hps).2 p hp).mono (Nat.le_add_right _ _)⟩
    cases rest with
    | nil => exact fun p hp => absurd hp List.not_mem_nil
    | cons r' rest => exact List.forall_mem_singleton.mpr trivial

/-! ### Slots that are set -/

/-- Whether a slot is set where a piece says so, and not by the goals in it. -/
def Piece.sets (s : Nat) : Piece → Nat
  | .instruction i => if i.setSlot? = some (.ofNat s) then 1 else 0
  | .guarded k => [k.ball, k.handler.slot].count (.ofNat s)
  | _ => 0

theorem Piece.Plain.sets_eq (s : Nat) : ∀ {p : Piece}, p.Plain → p.sets s = 0
  | .instruction _, h => by rw [sets, if_neg (by rw [h.2]; nofun)]
  | .tree _, _ | .store _, _ => rfl

theorem ofNat_inj {m n : Nat} (hm : m < 65536) (hn : n < 65536) :
    UInt16.ofNat m = UInt16.ofNat n ↔ m = n := by
  refine ⟨fun h => ?_, congrArg _⟩
  have := congrArg UInt16.toNat h
  rwa [UInt16.toNat_ofNat_of_lt' hm, UInt16.toNat_ofNat_of_lt' hn] at this

/-- A goal sets the slots that it takes once each. -/
theorem total_sets_goal (b : UInt16) (l : Nat) {n s : Nat} {g : Goal} (hn : n + g.ownSlots ≤ 65536)
    (hs : s < 65536) :
    total ((g.pieces b n l).map (Piece.sets s)) = within n (n + g.ownSlots) s := by
  have hfirst (h : n < 65536) := ofNat_inj h hs
  have hsecond (h : n + 1 < 65536) := ofNat_inj h hs
  cases g <;> simp only [within, Goal.pieces, Goal.ownSlots, Piece.sets, Function.comp_def,
    Instruction.setSlot?, List.count_cons, List.count_nil, List.map_cons, List.map_nil, List.map_append,
    total_cons, total_nil, total_append, List.map_map, List.map_const', total_replicate_zero, beq_iff_eq, reduceCtorEq, if_false,
    Option.some.injEq] at hn ⊢ <;> grind

theorem total_sets_catch (k : Catch) (s : Nat) :
    total (k.pieces.map (Piece.sets s)) = [k.ball].count (.ofNat s) := by
  simp only [Catch.pieces, Piece.sets, Instruction.setSlot?, List.map_cons, List.map_nil, total_cons,
    total_nil, List.count_cons, List.count_nil, beq_iff_eq, reduceCtorEq, if_false, Option.some.injEq]
  omega

theorem total_sets_chain (l s : Nat) (pending : Option Nat) (rest : List Rule) :
    total ((Rule.chainPieces l pending rest).map (Piece.sets s)) = 0 := by
  cases pending <;> cases rest <;> rfl

theorem total_sets_rest (l s : Nat) (rest : List Rule) :
    total ((Rule.restPieces l rest).map (Piece.sets s)) = 0 := by
  cases rest <;> rfl

/-- The slots that the instructions of lines write. -/
def slotsSet (ls : List Line) : List UInt16 :=
  (ls.filterMap Line.instruction?).filterMap Instruction.setSlot?

theorem slotsSet_append (ls ls' : List Line) : slotsSet (ls ++ ls') = slotsSet ls ++ slotsSet ls' := by
  simp only [slotsSet, List.filterMap_append]

theorem slotsSet_label (n : Nat) (ls : List Line) : slotsSet (.label n :: ls) = slotsSet ls := rfl

theorem count_slotsSet_instruction (s : Nat) (i : Instruction Term Tag Nat) (ls : List Line) :
    (slotsSet (.instruction i :: ls)).count (.ofNat s) =
      (Piece.instruction i).sets s + (slotsSet ls).count (.ofNat s) := by
  have happend : slotsSet (.instruction i :: ls) = i.setSlot?.toList ++ slotsSet ls := by
    simp only [slotsSet, List.filterMap_cons, Line.instruction?]
    cases i.setSlot? <;> rfl
  rw [happend, List.count_append, Piece.sets]
  cases i.setSlot? with
  | none => rfl
  | some n => simp only [Option.toList_some, List.count_singleton, Option.some.injEq, beq_iff_eq]

/-- Every slot that is taken is set once, and so is every slot that the pieces set. -/
theorem Listed.count_slotsSet {slots : Slots} {scopes : List Catch} {n l n' l' : Nat} {ps : List Piece}
    {es : List Entry} {ks : List Catch} (h : Listed slots scopes n l ps es ks n' l') {last s : Nat}
    (hslots : ∀ (v : Nat) (t : UInt16), slots[v]? = some t → last < t.toNat) (hlast : n' ≤ 1 + last)
    (hlt : last < 65536) (hs : s ≤ last) : (slotsSet (es.map Entry.line)).count (.ofNat s) =
      total (ps.map (Piece.sets s)) + within n n' s := by
  induction h with
  | nil => simp [slotsSet, within_self]
  | instruction i _ ih =>
    rw [List.map_cons, count_slotsSet_instruction, ih hlast]
    simp only [List.map_cons, total_cons]
    omega
  | label a _ ih => simpa [slotsSet_label, Piece.sets] using ih hlast
  | @tree scopes n l n' l' ps es ks t ls hls _ ih =>
    have hplain : slotsSet ls = [] := by
      rw [slotsSet, List.filterMap_eq_nil_iff]
      intro i hi
      obtain ⟨x, hx, hxi⟩ := List.mem_filterMap.mp hi
      cases x with
      | instruction j => exact (hls.plain i (Option.some.inj hxi ▸ hx)).2
      | label m => cases hxi
    rw [List.map_append, Entry.lines_map, slotsSet_append, hplain, List.nil_append, ih hlast]
    simp [Piece.sets]
  | @store scopes n l n' l' ps es ks v t hv _ ih =>
    have hne : t ≠ .ofNat s := by
      rintro rfl
      have := hslots _ _ hv
      rw [UInt16.toNat_ofNat_of_lt' (show s < 65536 by omega)] at this
      omega
    rw [List.map_cons, count_slotsSet_instruction, ih hlast]
    simp [Piece.sets, Instruction.setSlot?, hne]
  | none _ _ ih => simpa [Piece.sets] using ih hlast
  | @goal scopes n l n' l' ps es ks b g gs h ih =>
    have hle := h.slots_eq
    have hadd := within_add (Nat.le_add_right n g.ownSlots) (show n + g.ownSlots ≤ n' by omega) s
    rw [ih hlast, List.map_append, total_append, total_sets_goal b l (by omega) (by omega)]
    simp only [List.map_cons, total_cons, Piece.sets]
    omega
  | @guarded scopes n l n₁ l₁ n₂ l₂ n' l' ps es₁ es₂ es ks₁ ks₂ ks k hbody hrest h ihbody ihrest ih =>
    have hle := hbody.slots_eq
    have hle₁ := hrest.slots_eq
    have hle₂ := h.slots_eq
    have hadd := within_add (show n ≤ n₁ by omega) (show n₁ ≤ n₂ by omega) s
    have hadd' := within_add (show n ≤ n₂ by omega) (show n₂ ≤ n' by omega) s
    have ihbody := ihbody (by omega)
    have ihrest := ihrest (by omega)
    rw [total_sets_catch] at ihrest
    simp only [List.map_cons, List.map_append, count_slotsSet_instruction, slotsSet_label, slotsSet_append,
      List.count_append, ihbody, ihrest, ih hlast, Piece.sets, total_cons, List.map_nil, total_nil,
      List.count_cons, List.count_nil, Instruction.setSlot?, Option.some.injEq, beq_iff_eq]
    omega
  | @rules scopes n l n' l' ps es ks pending r rest _ ih =>
    rw [ih hlast, List.map_append, List.map_append, List.map_append, total_append, total_append, total_append,
      total_rule fun _ => Piece.Plain.sets_eq s, total_sets_chain, total_sets_rest]
    simp only [List.map_cons, total_cons, Piece.sets]
    omega

/-! ### Programs -/

/-- The state in which the second pass starts. -/
def Emitter.start (size : UInt16) (last stamps : Nat) : Emitter :=
  ⟨#[.instruction (.allocate size), .instruction (.saveCut 0)], #[], 1, last, 0, stamps⟩

theorem yields_onSymbols {α : Type} {x : EStateM CompileError Symbols α} {u : Universe}
    {Q : α → Prop} {E : CompileError → Prop} :
    Yields (onSymbols x) u (fun a _ => Q a) (fun e _ => E e) ↔
      Yields x u.symbols (fun a _ => Q a) fun e _ => E e := by
  simp only [Yields, onSymbols]
  cases x u.symbols <;> rfl

theorem yields_enter {clauses : List Clause} {u : Universe} {Q : PUnit → Universe → Prop}
    {E : CompileError → Universe → Prop} (h : ∀ u', Q ⟨⟩ u') :
    Yields (clauses.forM fun c => modify fun u => (c.predicate? u).2 : EStateM CompileError Universe PUnit)
      u Q E := by
  induction clauses generalizing u with
  | nil => exact h u
  | cons c clauses ih =>
    rw [List.forM_eq_forM, List.forM_cons, yields_bind, yields_modify]
    exact ih

/-- How many slots the goals of clauses take. -/
def taken (rules : List Rule) : Nat :=
  total (rules.map fun r => Body.slots r.body)

/-- The slots of the variables of clauses, and the slot behind. -/
def numbering (rules : List Rule) : Slots × Nat :=
  variableSlots (1 + taken rules) rules

/-- The program is written by the second pass for clauses taken apart. -/
structure WrittenFor (p : Program) (rules : List Rule) : Prop where
  /-- Without clauses, it fails. -/
  fail : rules = [] → p.slots = 0 ∧ p.lines = #[.instruction .fail] ∧ p.handlers = #[]
  /-- With clauses, the second pass runs through them. -/
  run : rules ≠ [] → ∃ stamps e, Emit.rules (numbering rules).1 rules none
      (.start (.ofNat (numbering rules).2) (taken rules) stamps) = .ok () e ∧
    p.slots = .ofNat (numbering rules).2 ∧ p.lines = e.lines ∧ p.handlers = e.handlers

/-- A program is made of the clauses taken apart, unless there are too many slots or the second pass
fails. -/
theorem yields_ofClauses {tag : Tag} {clauses : List Clause} {u : Universe}
    (harity : u.symbols.arity tag ≤ maxOperand) {P : List Rule → Prop} {E : CompileError → Prop}
    (hrules : Yields (clauses.mapM (Rule.ofClause u.store)) u.symbols (fun rules _ => P rules)
      fun e _ => E e) :
    Yields (ofClauses tag clauses) u
      (fun p _ => ∃ rules, P rules ∧ (numbering rules).2 ≤ maxOperand ∧ p.WrittenFor rules)
      fun e _ => E e ∨ ∃ rules, P rules ∧ ((maxOperand < (numbering rules).2 ∧ e = .tooManySlots) ∨
        ((numbering rules).2 ≤ maxOperand ∧ rules ≠ [] ∧ ∃ stamps e', Emit.rules (numbering rules).1 rules
          none (.start (.ofNat (numbering rules).2) (taken rules) stamps) = .error e e')) := by
  rw [ofClauses, yields_bind, yields_get]
  dsimp only
  rw [if_neg (Nat.not_lt.mpr harity), yields_bind, yields_get, yields_bind]
  refine (yields_onSymbols.mpr hrules).imp (fun rules u₁ hP => ?_) fun e _ he => .inl he
  have hnumbering : variableSlots (1 + total (rules.map fun r => Body.slots r.body)) rules =
    numbering rules := rfl
  rw [hnumbering]
  by_cases hsize : maxOperand < (numbering rules).2
  · rw [if_pos hsize]
    exact .inr ⟨rules, hP, .inl ⟨hsize, rfl⟩⟩
  rw [if_neg hsize]
  have hle := Nat.le_of_not_lt hsize
  by_cases hempty : rules.isEmpty
  · rw [if_pos hempty]
    have hnil := List.isEmpty_iff.mp hempty
    exact ⟨rules, hP, hle, fun _ => ⟨rfl, rfl, rfl⟩, fun hne => absurd hnil hne⟩
  rw [if_neg hempty, yields_bind]
  refine yields_enter fun u₂ => ?_
  rw [yields_bind, yields_get]
  have hne : rules ≠ [] := fun hnil => hempty (List.isEmpty_iff.mpr hnil)
  split
  · rename_i e e' hemit
    exact .inr ⟨rules, hP, .inr ⟨hle, hne, _, e', hemit⟩⟩
  · rename_i e hemit
    exact ⟨rules, hP, hle, fun hnil => absurd hnil hne, fun _ => ⟨_, e, hemit, rfl, rfl, rfl⟩⟩

section Reading

variable {σ : Store} {clauses : List Clause} {rules : List Rule}

/-- The goals of clauses that are read take as many slots as the control constructs need. -/
theorem taken_eq (h : List.Forall₂ (Rule.Reads σ) clauses rules) :
    taken rules = Clause.reservedBy σ clauses := by
  induction h with
  | nil => rfl
  | cons h _ ih =>
    rw [taken] at ih
    rw [taken, List.map_cons, total_cons, ih, h.body.slots_eq]
    rfl

theorem mem_vars_iff (h : List.Forall₂ (Rule.Reads σ) clauses rules) (v : Var) :
    v ∈ rules.flatMap (·.vars) ↔ v ∈ Clause.variablesOf σ clauses := by
  rw [Clause.variablesOf, List.mem_toFinset]
  induction h with
  | nil => rfl
  | cons h _ ih => rw [List.flatMap_cons, List.flatMap_cons, List.mem_append, List.mem_append, ih, h.vars]

/-- There is a slot for the barrier of the predicate, for each barrier and ball and for each variable. -/
theorem numbering_eq (h : List.Forall₂ (Rule.Reads σ) clauses rules) : (numbering rules).2 =
    1 + Clause.reservedBy σ clauses + (Clause.variablesOf σ clauses).card := by
  have hvars : (rules.flatMap (·.vars)).toFinset = Clause.variablesOf σ clauses := by
    ext v
    rw [List.mem_toFinset, mem_vars_iff h]
  rw [numbering, (counts_variableSlots _ _).next, taken_eq h, hvars]

/-- Clauses whose heads have a tag have as many arguments as the tag says. -/
theorem length_args {u : Universe} {tag : Tag} (htag : ∀ c ∈ clauses, c.HasTag u tag)
    (h : List.Forall₂ (Rule.Reads u.store) clauses rules) :
    ∀ r ∈ rules, r.args.length = u.symbols.arity tag := by
  intro r hr
  obtain ⟨c, hc, hreads⟩ := exists_of_forall₂ h.flip hr
  rw [hreads.args]
  exact (htag c hc).length_arguments

/-- The variables of clauses that are read have slots. -/
theorem hasRule_of_reads (hlength : ∀ r ∈ rules, r.args.length ≤ 65536)
    (h : List.Forall₂ (Rule.Reads σ) clauses rules) : ∀ r ∈ rules, (numbering rules).1.HasRule r := by
  have hvars (r : Rule) (hr : r ∈ rules) (v : Var) (hv : v ∈ r.vars) :
      ∃ s, (numbering rules).1[v.id]? = some s := by
    have hcontains := ((counts_variableSlots (1 + taken rules) rules).contains v).mpr
      (List.mem_flatMap.mpr ⟨r, hr, hv⟩)
    rw [Std.TreeMap.contains_eq_isSome_getElem?] at hcontains
    exact Option.isSome_iff_exists.mp hcontains
  intro r hr
  obtain ⟨c, hc, hreads⟩ := exists_of_forall₂ h.flip hr
  have hover {t : Tree} (ht : t.Over (· ∈ c.occurrences σ)) : (numbering rules).1.Has t :=
    fun v hv => hvars r hr v ((hreads.vars v).mpr (ht v hv))
  refine ⟨hvars r hr, fun t ht => hover (hreads.over t ht), ?_, hlength r hr⟩
  refine Body.each_imp (fun t => hover) (hreads.body.each_over fun v hv => ?_)
  exact Clause.mem_occurrences.mpr (.inr hv)

end Reading

/-- The second pass writes the clauses if their variables have slots. -/
theorem exists_lists {slots : Slots} {r : Rule} {rest : List Rule} (h : ∀ r' ∈ r :: rest, slots.HasRule r')
    (size : UInt16) (stamps : Nat) : ∃ e es ks,
      Emit.rules slots (r :: rest) none (.start size (taken (r :: rest)) stamps) = .ok () e ∧
      Emit.Lists slots [] (.start size (taken (r :: rest)) stamps) [.rules none r rest] es ks e := by
  have hroom : Emit.Room [.rules none r rest] (.start size (taken (r :: rest)) stamps) := by
    show 1 + (taken (r :: rest) + 0) ≤ taken (r :: rest) + 1
    omega
  have hwritable : Emit.Writable slots [] [.rules none r rest] (.start size (taken (r :: rest)) stamps) :=
    Emit.writable _ _ _ (List.forall_mem_singleton.mpr h) hroom
  obtain ⟨e, hrun, es, ks, hlists⟩ := hwritable
  rw [List.forM_eq_forM, List.forM_cons, List.forM_nil, bind_pure_unit] at hrun
  exact ⟨e, es, ks, hrun, hlists⟩

section Listing

variable {slots : Slots} {r : Rule} {rest : List Rule} {size : UInt16} {last stamps : Nat} {e : Emitter}
  {es : List Entry} {ks : List Catch}

theorem lines_start (h : Emit.Lists slots [] (.start size last stamps) [.rules none r rest] es ks e) :
    e.lines.toList = .instruction (.allocate size) :: .instruction (.saveCut 0) :: es.map Entry.line :=
  h.lines

/-- All slots that are reserved are handed out. -/
theorem nextSlot_eq (h : Emit.Lists slots [] (.start size (taken (r :: rest)) stamps) [.rules none r rest]
    es ks e) : e.nextSlot = 1 + taken (r :: rest) :=
  h.listed.slots_eq

/-- Each of them is set once, and so is slot 0. -/
theorem count_slotsSet_start
    (h : Emit.Lists slots [] (.start size (taken (r :: rest)) stamps) [.rules none r rest] es ks e)
    (hslots : ∀ (v : Nat) (t : UInt16), slots[v]? = some t → taken (r :: rest) < t.toNat)
    (hlast : taken (r :: rest) < 65536) {s : Nat} (hs : s ≤ taken (r :: rest)) :
    (slotsSet e.lines.toList).count (.ofNat s) = 1 := by
  have hnext := nextSlot_eq h
  have hcount := h.listed.count_slotsSet hslots (Nat.le_of_eq hnext) hlast hs
  have hzero : (0 : UInt16) = .ofNat s ↔ 0 = s := ofNat_inj (by decide) (by omega)
  rw [hnext] at hcount
  rw [lines_start h, count_slotsSet_instruction, count_slotsSet_instruction, hcount]
  have hstart : (Emitter.start size (taken (r :: rest)) stamps).nextSlot = 1 := rfl
  simp only [Piece.sets, Instruction.setSlot?, reduceCtorEq, if_false, Option.some.injEq, List.map_cons,
    List.map_nil, total_cons, total_nil, within, hstart, hzero]
  split_ifs <;> omega

/-- A label that is referred to is placed once. -/
theorem count_labels_start (h : Emit.Lists slots [] (.start size last stamps) [.rules none r rest] es ks e)
    {n : Nat} (hn : n < e.nextLabel) : (labels e.lines.toList).count n = 1 := by
  have hcount := (h.listed.count_labels n).2
  rw [lines_start h, labels_cons_instruction, labels_cons_instruction, hcount]
  have hstart : (Emitter.start size last stamps).nextLabel = 0 := rfl
  simp only [Piece.places, reduceCtorEq, if_false, List.map_cons, List.map_nil, total_cons, total_nil, within,
    hstart, Nat.zero_le, true_and, if_pos hn]

/-- The labels that are referred to have been taken. -/
theorem references_lt (h : Emit.Lists slots [] (.start size last stamps) [.rules none r rest] es ks e)
    {p : Program} (hlines : p.lines = e.lines) (hhandlers : p.handlers = e.handlers) :
    ∀ n ∈ p.references, n < e.nextLabel := by
  have hbelow := h.listed.refersBelow (List.forall_mem_singleton.mpr trivial)
  have hks : e.handlers.toList = ks.map Catch.handler := h.handlers
  intro n hn
  obtain hn | hn := List.mem_append.mp hn
  · obtain ⟨i, hi, hn⟩ := List.mem_filterMap.mp hn
    obtain ⟨x, hx, hi⟩ := List.mem_filterMap.mp hi
    cases x with
    | label m => cases hi
    | instruction j =>
      obtain rfl : j = i := Option.some.inj hi
      rw [hlines, lines_start h, List.mem_cons, List.mem_cons] at hx
      obtain hx | hx | hx := hx
      · cases hx
        cases hn
      · cases hx
        cases hn
      · exact hbelow.lines j hx n hn
  · obtain ⟨k', hk', hn⟩ := List.mem_flatMap.mp hn
    rw [hhandlers, hks] at hk'
    obtain ⟨k, hk, rfl⟩ := List.mem_map.mp hk'
    exact hbelow.handlers k hk n hn

end Listing

/-- The program has slots for as many barriers, balls and variables, and labels that are placed. -/
structure Numbered (p : Program) (slots : Slots) (rules : List Rule) (reserved : Nat) (vs : Finset Var) :
    Prop where
  /-- There is a slot for the barrier of the predicate, for each barrier and ball and for each variable. -/
  size : p.slots.toNat = 1 + reserved + vs.card
  /-- The second pass hands out as many slots as are reserved. -/
  handed : ∃ stamps e, Emit.rules slots rules none (.start p.slots reserved stamps) = .ok () e ∧
    e.nextSlot = 1 + reserved ∧ p.lines = e.lines ∧ p.handlers = e.handlers
  /-- Each of them is set by one instruction, and so is slot 0. -/
  once : ∀ s ≤ reserved, (slotsSet p.lines.toList).count (.ofNat s) = 1
  /-- The variables have slots behind them. -/
  behind : ∀ v ∈ vs, ∃ s, slots[v.id]? = some s ∧ reserved < s.toNat ∧ s.toNat < p.slots.toNat
  /-- Variables do not share slots. -/
  injective : ∀ v ∈ vs, ∀ w ∈ vs, slots[v.id]? = slots[w.id]? → v = w
  /-- A label that an instruction or a handler refers to is placed once. -/
  placed : ∀ n ∈ p.references, (labels p.lines.toList).count n = 1

theorem numbered_of_reads {σ : Store} {clauses : List Clause} {rules : List Rule}
    (hlength : ∀ r ∈ rules, r.args.length ≤ 65536) (h : List.Forall₂ (Rule.Reads σ) clauses rules)
    (hne : rules ≠ []) (hsize : (numbering rules).2 ≤ maxOperand) {p : Program} (hp : p.WrittenFor rules) :
    p.Numbered (numbering rules).1 rules (Clause.reservedBy σ clauses) (Clause.variablesOf σ clauses) := by
  obtain ⟨r, rest, rfl⟩ := List.exists_cons_of_ne_nil hne
  obtain ⟨stamps, e, hrun, hslots, hlines, hhandlers⟩ := hp.run hne
  obtain ⟨e', es, ks, hrun', hlists⟩ := exists_lists (hasRule_of_reads hlength h)
    (.ofNat (numbering (r :: rest)).2) stamps
  obtain rfl : e = e' := by
    rw [hrun] at hrun'
    cases hrun'
    rfl
  have hnumbers := numbered_variableSlots (1 + taken (r :: rest)) (r :: rest)
  have hsize' : p.slots.toNat = (numbering (r :: rest)).2 := by
    rw [hslots, UInt16.toNat_ofNat_of_lt' (Nat.lt_succ_of_le hsize)]
  have hrange (v : Nat) (t : UInt16) (ht : (numbering (r :: rest)).1[v]? = some t) :
      taken (r :: rest) < t.toNat ∧ t.toNat < p.slots.toNat := by
    obtain ⟨n, hfirst, hn, rfl⟩ := hnumbers.range v t ht
    have hn : n < (numbering (r :: rest)).2 := hn
    have hmax : maxOperand = 65535 := rfl
    rw [hsize', UInt16.toNat_ofNat_of_lt' (show n < 65536 by omega)]
    omega
  have hslot (v : Var) (hv : v ∈ Clause.variablesOf σ clauses) :
      ∃ t, (numbering (r :: rest)).1[v.id]? = some t := by
    obtain ⟨r', hr', hv⟩ := List.mem_flatMap.mp ((mem_vars_iff h v).mpr hv)
    exact (hasRule_of_reads hlength h r' hr').vars v hv
  rw [← taken_eq h]
  refine ⟨?_, ⟨stamps, e, hslots ▸ hrun, nextSlot_eq hlists, hlines, hhandlers⟩, fun s hs => ?_,
    fun v hv => ?_, fun v hv w hw hvw => ?_, fun n hn => ?_⟩
  · rw [hsize', numbering_eq h, taken_eq h]
  · rw [hlines]
    exact count_slotsSet_start hlists (fun v t ht => (hrange v t ht).1) (by
      have := hnumbers.le
      have hle : (variableSlots (1 + taken (r :: rest)) (r :: rest)).2 ≤ 65535 := hsize
      omega) hs
  · obtain ⟨t, ht⟩ := hslot v hv
    exact ⟨t, ht, hrange _ t ht⟩
  · obtain ⟨t, ht⟩ := hslot v hv
    exact congrArg Var.mk (hnumbers.injective (Nat.le_succ_of_le hsize) v.id w.id t ht (hvw ▸ ht))
  · rw [hlines]
    exact count_labels_start hlists (references_lt hlists hlines hhandlers n hn)

/-- The second pass does not fail on clauses that have been read. -/
theorem rules_ne_error {σ : Store} {clauses : List Clause} {rules : List Rule}
    (hlength : ∀ r ∈ rules, r.args.length ≤ 65536) (h : List.Forall₂ (Rule.Reads σ) clauses rules)
    (hne : rules ≠ []) {size : UInt16} {stamps : Nat} {e : CompileError} {e' : Emitter} :
    Emit.rules (numbering rules).1 rules none (.start size (taken rules) stamps) ≠ .error e e' := by
  obtain ⟨r, rest, rfl⟩ := List.exists_cons_of_ne_nil hne
  obtain ⟨e₁, es, ks, hrun, -⟩ := exists_lists (hasRule_of_reads hlength h) size stamps
  rw [hrun]
  nofun

/-- A program all of whose labels are placed is packed unless its tables or its code are too large. -/
theorem assemble_error {p : Program} (h : ∀ n ∈ p.references, (labels p.lines.toList).count n = 1)
    {e : CompileError} (he : p.assemble = .error e) :
    e = .tooManyTags ∨ e = .tooManyConstants ∨ e = .codeTooLarge := by
  cases exceeds_of_assemble he with
  | unboundLabel href hplace =>
    have hcount := h _ href
    rw [List.count_eq_zero_of_not_mem fun hmem => hplace (mem_labels.mp hmem)] at hcount
    cases hcount
  | tooManyTags => exact .inl rfl
  | tooManyConstants => exact .inr (.inl rfl)
  | codeTooLarge => exact .inr (.inr rfl)

/-- Clauses whose heads have a tag are written unless a goal cannot be called or there are too many
slots. -/
theorem yields_of_hasTag {tag : Tag} {clauses : List Clause} {u : Universe}
    (harity : u.symbols.arity tag ≤ maxOperand) (htag : ∀ c ∈ clauses, c.HasTag u tag) :
    Yields (ofClauses tag clauses) u
      (fun p _ => clauses.findSome? (Clause.misplaced? u.store) = none ∧
        1 + Clause.reservedBy u.store clauses + (Clause.variablesOf u.store clauses).card ≤ maxOperand ∧
        ∃ rules, List.Forall₂ (Rule.Reads u.store) clauses rules ∧ (∀ r ∈ rules, r.args.length ≤ 65536) ∧
          (numbering rules).2 ≤ maxOperand ∧ p.WrittenFor rules)
      fun e _ => (∃ k, clauses.findSome? (Clause.misplaced? u.store) = some k ∧ e = .notCallable k) ∨
        (clauses.findSome? (Clause.misplaced? u.store) = none ∧ e = .tooManySlots ∧
          maxOperand < 1 + Clause.reservedBy u.store clauses +
            (Clause.variablesOf u.store clauses).card) := by
  have hmade := yields_ofClauses harity (Rule.screens_mapM u.store clauses u.symbols)
  rw [Clause.findSome?_refusal htag] at hmade
  have hlength {rules : List Rule} (hreads : List.Forall₂ (Rule.Reads u.store) clauses rules) :
      ∀ r ∈ rules, r.args.length ≤ 65536 :=
    fun r hr => (length_args htag hreads r hr).trans_le (Nat.le_succ_of_le harity)
  refine hmade.imp ?_ ?_
  · rintro p _ ⟨rules, ⟨hnone, hreads⟩, hsize, hp⟩
    exact ⟨Option.map_eq_none_iff.mp hnone, numbering_eq hreads ▸ hsize, rules, hreads, hlength hreads, hsize,
      hp⟩
  · rintro e _ (he | ⟨rules, ⟨hnone, hreads⟩, ⟨hsize, rfl⟩ | ⟨-, hne, stamps, e', hrun⟩⟩)
    · obtain ⟨k, hk, rfl⟩ := Option.map_eq_some_iff.mp he
      exact .inl ⟨k, hk, rfl⟩
    · exact .inr ⟨Option.map_eq_none_iff.mp hnone, rfl, numbering_eq hreads ▸ hsize⟩
    · exact (rules_ne_error (hlength hreads) hreads hne hrun).elim

/-- What is written fails without clauses, and otherwise its slots and labels are as they have been
counted. -/
theorem WrittenFor.agrees {σ : Store} {clauses : List Clause} {rules : List Rule} {p : Program}
    (hp : p.WrittenFor rules) (hreads : List.Forall₂ (Rule.Reads σ) clauses rules)
    (hlength : ∀ r ∈ rules, r.args.length ≤ 65536) (hsize : (numbering rules).2 ≤ maxOperand) :
    (clauses = [] → p.slots = 0 ∧ p.lines = #[.instruction .fail] ∧ p.handlers = #[]) ∧
    (clauses ≠ [] → p.Numbered (numbering rules).1 rules (Clause.reservedBy σ clauses)
      (Clause.variablesOf σ clauses)) ∧
    ∀ e, p.assemble = .error e → e = .tooManyTags ∨ e = .tooManyConstants ∨ e = .codeTooLarge := by
  obtain rfl | hclauses := eq_or_ne clauses []
  · cases hreads
    obtain ⟨hslots, hlines, hhandlers⟩ := hp.fail rfl
    refine ⟨fun _ => ⟨hslots, hlines, hhandlers⟩, fun h => absurd rfl h,
      fun e => assemble_error fun n hn => ?_⟩
    rw [references, instructions, hlines, hhandlers] at hn
    cases hn
  · have hne : rules ≠ [] := by
      rintro rfl
      exact hclauses (List.forall₂_nil_right_iff.mp hreads)
    have hnumbered := numbered_of_reads hlength hreads hne hsize hp
    exact ⟨fun h => absurd h hclauses, fun _ => hnumbered, fun e => assemble_error hnumbered.placed⟩

/-- The two passes of the compiler agree. Clauses whose heads have a tag are refused because of the first
goal that cannot be called, in the order in which they are written, and for no other reason than that or
that there are too many slots, so the second pass does not fail. It hands out the slots that the
first one counts, and every label it refers to is placed. -/
theorem passes_agree {tag : Tag} {clauses : List Clause} {u : Universe}
    (harity : u.symbols.arity tag ≤ maxOperand) (htag : ∀ c ∈ clauses, c.HasTag u tag) :
    (∀ c ∈ clauses, ∀ s, Yields (Rule.ofClause u.store c) s (fun _ _ => c.misplaced? u.store = none)
      fun e _ => ∃ k, c.misplaced? u.store = some k ∧ e = .notCallable k) ∧
    (∀ k, clauses.findSome? (Clause.misplaced? u.store) = some k →
      ∃ u', ofClauses tag clauses u = .error (.notCallable k) u') ∧
    (clauses.findSome? (Clause.misplaced? u.store) = none →
      (maxOperand < 1 + Clause.reservedBy u.store clauses + (Clause.variablesOf u.store clauses).card →
        ∃ u', ofClauses tag clauses u = .error .tooManySlots u') ∧
      (1 + Clause.reservedBy u.store clauses + (Clause.variablesOf u.store clauses).card ≤ maxOperand →
        ∃ p u', ofClauses tag clauses u = .ok p u' ∧
          (clauses = [] → p.slots = 0 ∧ p.lines = #[.instruction .fail] ∧ p.handlers = #[]) ∧
          (clauses ≠ [] → ∃ slots rules, List.Forall₂ (Rule.Reads u.store) clauses rules ∧
            p.Numbered slots rules (Clause.reservedBy u.store clauses) (Clause.variablesOf u.store clauses)) ∧
          ∀ e, p.assemble = .error e → e = .tooManyTags ∨ e = .tooManyConstants ∨ e = .codeTooLarge)) := by
  have hmade := yields_of_hasTag harity htag
  refine ⟨fun c hc s => (Rule.screens_ofClause u.store c s).imp (fun _ _ h => ?_) fun e _ h => ?_,
    fun k hk => ?_, fun hnone => ⟨fun hlarge => ?_, fun hsmall => ?_⟩⟩
  · rw [(htag c hc).refusal_eq] at h
    exact Option.map_eq_none_iff.mp h.1
  · rw [(htag c hc).refusal_eq] at h
    obtain ⟨k, hk, rfl⟩ := Option.map_eq_some_iff.mp h
    exact ⟨k, hk, rfl⟩
  · cases ho : ofClauses tag clauses u with
    | ok p u' => exact absurd (hk.symm.trans (yields_ok hmade ho).1) (by simp)
    | error e u' =>
      obtain ⟨k', hk', rfl⟩ | ⟨hnone, -⟩ := yields_error hmade ho
      · exact ⟨u', by rw [Option.some.inj (hk'.symm.trans hk)]⟩
      · exact absurd (hk.symm.trans hnone) (by simp)
  · cases ho : ofClauses tag clauses u with
    | ok p u' => exact absurd (yields_ok hmade ho).2.1 (Nat.not_le.mpr hlarge)
    | error e u' =>
      obtain ⟨k, hk, -⟩ | ⟨-, rfl, -⟩ := yields_error hmade ho
      · exact absurd (hk.symm.trans hnone) (by simp)
      · exact ⟨u', rfl⟩
  · cases ho : ofClauses tag clauses u with
    | ok p u' =>
      obtain ⟨-, -, rules, hreads, hlength, hsize, hp⟩ := yields_ok hmade ho
      obtain ⟨hfail, hnumbered, hassemble⟩ := hp.agrees hreads hlength hsize
      exact ⟨p, u', rfl, hfail, fun h => ⟨_, rules, hreads, hnumbered h⟩, hassemble⟩
    | error e u' =>
      obtain ⟨k, hk, -⟩ | ⟨-, -, hlarge⟩ := yields_error hmade ho
      · exact absurd (hk.symm.trans hnone) (by simp)
      · exact absurd hsmall (Nat.not_le.mpr hlarge)

/-- The clause `X / Y :- catch(X, Y, \+ Y)` needs three slots for its control constructs and two for its
variables, behind slot 0. -/
theorem passes_agree_guard :
    let c : Clause := ⟨.compound 0 .slash [.var ⟨0⟩, .var ⟨1⟩],
      .compound 1 .catchGoal [.var ⟨0⟩, .var ⟨1⟩, .compound 2 .negation [.var ⟨1⟩]]⟩
    Universe.initial.symbols.arity .slash ≤ maxOperand ∧ c.HasTag .initial .slash ∧
      ∃ p u', ofClauses .slash [c] .initial = .ok p u' ∧ p.slots = 6 := by
  intro c
  have harity : Universe.initial.symbols.arity .slash = 2 := by decide +kernel
  have htag : ∀ c' ∈ [c], c'.HasTag .initial .slash := List.forall_mem_singleton.mpr ⟨rfl, harity.symm⟩
  have hreserved : Clause.reservedBy Universe.initial.store [c] = 3 := by decide +kernel
  have hvars : (Clause.variablesOf Universe.initial.store [c]).card = 2 := by decide +kernel
  have hcallable : [c].findSome? (Clause.misplaced? Universe.initial.store) = none := by decide +kernel
  have hagree := (passes_agree (harity.trans_le (by decide)) htag).2.2 hcallable
  rw [hreserved, hvars] at hagree
  obtain ⟨p, u', hp, -, hnumbered, -⟩ := hagree.2 (by decide)
  obtain ⟨slots, rules, -, hnumbered⟩ := hnumbered (List.cons_ne_nil _ _)
  have hsize := hnumbered.size
  rw [hvars] at hsize
  exact ⟨harity.trans_le (by decide), htag c (.head _), p, u', hp, UInt16.toNat.inj hsize⟩

end Program

end Resolvent
