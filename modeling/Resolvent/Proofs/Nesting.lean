import Resolvent.Proofs.Heads
import Resolvent.Proofs.Numbering

/-!
# Ranges of handlers

The range of a goal `catch/3` is the code of its first argument, which begins behind the instruction that
saves the height of the choice stack. A handler is entered into the table behind the code of the
whole goal, so that those of the goals `catch/3` in its arguments are in front of it. Ranges are not empty,
because a body has goals and every goal has code. Therefore two ranges are apart or one is inside the other
(`Program.Nested`), the handlers whose ranges an instruction lies in are those of the goals `catch/3` in
whose first arguments it has been written, and the one that is found first is that of the innermost
goal (`Chunk.handlers_nested`).
-/

namespace Resolvent

/-! ### First arguments have goals -/

mutual

/-- Every goal `catch/3` in the goal has goals in its first argument. -/
def Goal.Full : Goal → Prop
  | .callVar _ | .succeed | .fail | .cut | .unify .. | .raise _ | .call .. => True
  | .either x y | .ifThen x y => Body.Full x ∧ Body.Full y
  | .ifThenElse x y z => Body.Full x ∧ Body.Full y ∧ Body.Full z
  | .negation x => Body.Full x
  | .guard x _ y => x ≠ [] ∧ Body.Full x ∧ Body.Full y

/-- Every goal `catch/3` in the goals has goals in its first argument. -/
def Body.Full : List Goal → Prop
  | [] => True
  | g :: gs => Goal.Full g ∧ Body.Full gs

end

namespace Body

theorem full_append {x y : List Goal} (hx : Full x) (hy : Full y) : Full (x ++ y) := by
  induction x with
  | nil => exact hy
  | cons g x ih =>
    rw [Full] at hx
    rw [List.cons_append, Full]
    exact ⟨hx.1, ih hx.2⟩

theorem full_either {x y : List Goal} (hx : Full x) (hy : Full y) : (either x y).Full := by
  unfold either
  split
  · rw [Full, Goal.Full] at hx
    rw [Goal.Full]
    exact ⟨hx.1.1, hx.1.2, hy⟩
  · rw [Goal.Full]
    exact ⟨hx, hy⟩

theorem full_singleton {g : Goal} (h : g.Full) : Full [g] := by
  rw [Full]
  exact ⟨h, trivial⟩

/-- The goals of a body that is read are such. -/
theorem Reads.full {t : Tree} {gs : List Goal} (h : Reads t gs) : Full gs := by
  induction h with
  | conj _ _ iha ihb => exact full_append iha ihb
  | disj _ _ iha ihb => exact full_singleton (full_either iha ihb)
  | arrow _ _ iha ihb =>
    refine full_singleton ?_
    rw [Goal.Full]
    exact ⟨iha, ihb⟩
  | negation _ iha =>
    refine full_singleton ?_
    rw [Goal.Full]
    exact iha
  | guard ha _ iha ihc =>
    refine full_singleton ?_
    rw [Goal.Full]
    exact ⟨ha.ne_nil, iha, ihc⟩
  | _ =>
    refine full_singleton ?_
    rw [Goal.Full]
    trivial

end Body

namespace Program

/-- Every goal `catch/3` in the piece has goals in its first argument. -/
def Piece.Full : Piece → Prop
  | .goals _ gs => Body.Full gs
  | .guarded k => k.body ≠ [] ∧ Body.Full k.body ∧ Body.Full k.recovery
  | .rules _ r rest => ∀ r' ∈ r :: rest, Body.Full r'.body
  | .instruction _ | .label _ | .tree _ | .store _ => True

theorem full_goal (b : UInt16) (n l : Nat) {g : Goal} (h : g.Full) : ∀ p ∈ g.pieces b n l, p.Full := by
  cases g with
  | call tag args =>
    rw [Goal.pieces, List.forall_mem_append, List.forall_mem_map, List.forall_mem_singleton]
    exact ⟨fun t _ => trivial, trivial⟩
  | _ => simp_all [Goal.pieces, Goal.Full, Piece.Full]

theorem full_catch {k : Catch} (h : Body.Full k.recovery) : ∀ p ∈ k.pieces, p.Full := by
  simp [Catch.pieces, Piece.Full, h]

theorem Piece.Plain.full : ∀ {p : Piece}, p.Plain → p.Full
  | .instruction _, _ | .tree _, _ | .store _, _ => trivial

theorem full_rule {r : Rule} (h : Body.Full r.body) : ∀ p ∈ r.pieces, p.Full := by
  obtain ⟨front, hfront, hplain⟩ := exists_front r
  rw [hfront, List.forall_mem_append]
  exact ⟨fun p hp => (hplain p hp).full, by simp [Piece.Full, h]⟩

theorem full_chain (l : Nat) (pending : Option Nat) (rest : List Rule) :
    ∀ p ∈ Rule.chainPieces l pending rest, p.Full := by
  cases pending <;> cases rest <;> simp [Rule.chainPieces, Piece.Full]

theorem full_rest (l : Nat) {rest : List Rule} (h : ∀ r ∈ rest, Body.Full r.body) :
    ∀ p ∈ Rule.restPieces l rest, p.Full := by
  cases rest with
  | nil => exact fun p hp => absurd hp List.not_mem_nil
  | cons r rest => exact List.forall_mem_singleton.mpr h

/-! ### Goals have code -/

theorem Emit.Writes.offset_pos {slots : Slots} {t : Tree} {ls : List Line} (h : Emit.Writes slots t ls) :
    0 < offset ls := by
  cases h with
  | var h => exact Emit.size_pos _
  | constant h => exact Emit.size_pos _
  | compound h =>
    rw [offset_append]
    exact Nat.add_pos_right _ (Emit.size_pos _)

/-- What is listed for a goal is not empty. -/
theorem Listed.offset_pos {slots : Slots} {scopes : List Catch} {n l n' l' : Nat} {b : UInt16}
    {gs : List Goal} {es : List Entry} {ks : List Catch} (hgs : gs ≠ [])
    (h : Listed slots scopes n l [.goals b gs] es ks n' l') : 0 < offset (es.map Entry.line) := by
  cases h with
  | none => exact absurd rfl hgs
  | @goal _ _ _ _ _ _ _ _ _ g gs h =>
    -- the first piece of a goal is an instruction, a tree or a goal `catch/3`
    have htree {t : Tree} {ps : List Piece}
        (h : Listed slots scopes (n + g.ownSlots) (l + g.ownLabels) (.tree t :: ps) es ks n' l') :
        0 < offset (es.map Entry.line) := by
      cases h with | tree hls _ =>
      rw [List.map_append, Entry.lines_map, offset_append]
      exact Nat.add_pos_left hls.offset_pos _
    have hinstruction {i : Instruction Term Tag Nat} {ps : List Piece}
        (h : Listed slots scopes (n + g.ownSlots) (l + g.ownLabels) (.instruction i :: ps) es ks n' l') :
        0 < offset (es.map Entry.line) := by
      cases h with | instruction _ _ =>
      exact Nat.add_pos_left (Emit.size_pos _) _
    cases g with
    | call tag args =>
      cases args with
      | nil => exact hinstruction h
      | cons t args => exact htree h
    | callVar v | unify s t | raise t => exact htree h
    | guard x catcher y =>
      cases h with | guarded _ _ _ =>
      exact Nat.add_pos_left (Emit.size_pos _) _
    | _ => exact hinstruction h

/-! ### Where entries stand -/

/-- The instructions of entries, each with its offset and the goals `catch/3` around it, the innermost
one first. -/
def Entry.locate : Nat → List Entry → List (Nat × Instruction Term Tag Nat × List Catch)
  | _, [] => []
  | o, ⟨.instruction i, scopes⟩ :: es => (o, i, scopes) :: locate (o + i.size) es
  | o, ⟨.label _, _⟩ :: es => locate o es

/-- Where a label stands among entries, there it is placed. -/
def Located (place : Nat → Nat) : Nat → List Entry → Prop
  | _, [] => True
  | o, ⟨.instruction i, _⟩ :: es => Located place (o + i.size) es
  | o, ⟨.label n, _⟩ :: es => place n = o ∧ Located place o es

namespace Entry

theorem locate_append : ∀ (es es' : List Entry) (o : Nat),
    locate o (es ++ es') = locate o es ++ locate (o + offset (es.map Entry.line)) es'
  | [], _, _ => rfl
  | ⟨.instruction i, scopes⟩ :: es, es', o => by
    rw [List.cons_append, locate, locate, locate_append es es', List.map_cons, offset_cons, ← Nat.add_assoc]
    rfl
  | ⟨.label n, scopes⟩ :: es, es', o => by
    rw [List.cons_append, locate, locate, locate_append es es', List.map_cons, offset_cons]
    exact congrArg (fun m => locate o es ++ locate (o + m) es') (Nat.zero_add _).symm

theorem locate_bounds : ∀ {es : List Entry} {o : Nat}, ∀ x ∈ locate o es,
    o ≤ x.1 ∧ x.1 < o + offset (es.map Entry.line)
  | [], _, x, hx => absurd hx List.not_mem_nil
  | ⟨.instruction i, scopes⟩ :: es, o, x, hx => by
    have hsize : (Line.instruction i).size = i.size := rfl
    have hpos := Emit.size_pos i
    rw [List.map_cons, offset_cons, hsize]
    obtain rfl | hx := List.mem_cons.mp hx
    · exact ⟨Nat.le_refl _, by show o < _; omega⟩
    · have := locate_bounds x hx
      omega
  | ⟨.label n, scopes⟩ :: es, o, x, hx => by
    have hsize : (Line.label n).size = 0 := rfl
    have := locate_bounds x (show x ∈ locate o es from hx)
    rw [List.map_cons, offset_cons, hsize]
    omega

/-- The instructions are those of the lines. -/
theorem map_locate : ∀ (es : List Entry) (o : Nat), (locate o es).map (fun x => (x.1, x.2.1)) =
    Instruction.locate o ((es.map Entry.line).filterMap Line.instruction?)
  | [], _ => rfl
  | ⟨.instruction i, _⟩ :: es, o => congrArg ((o, i) :: ·) (map_locate es (o + i.size))
  | ⟨.label _, _⟩ :: es, o => map_locate es o

theorem locate_lines (scopes : List Catch) : ∀ (ls : List Line) (o : Nat),
    ∀ x ∈ locate o (ls.map (Entry.mk · scopes)), x.2.2 = scopes
  | [], _, x, hx => absurd hx List.not_mem_nil
  | .instruction _ :: ls, _, x, hx => by
    obtain rfl | hx := List.mem_cons.mp hx
    · rfl
    · exact locate_lines scopes ls _ x hx
  | .label _ :: ls, o, x, hx => locate_lines scopes ls o x hx

end Entry

theorem located_append {place : Nat → Nat} : ∀ {es es' : List Entry} {o : Nat},
    Located place o (es ++ es') → Located place o es ∧ Located place (o + offset (es.map Entry.line)) es'
  | [], _, _, h => ⟨trivial, h⟩
  | ⟨.instruction i, scopes⟩ :: es, es', o, h => by
    obtain ⟨hes, hes'⟩ := located_append (show Located place (o + i.size) (es ++ es') from h)
    refine ⟨hes, ?_⟩
    rw [List.map_cons, offset_cons, ← Nat.add_assoc]
    exact hes'
  | ⟨.label n, scopes⟩ :: es, es', o, ⟨hn, h⟩ => by
    obtain ⟨hes, hes'⟩ := located_append h
    refine ⟨⟨hn, hes⟩, ?_⟩
    rw [List.map_cons, offset_cons, ← Nat.add_assoc]
    exact hes'

/-! ### Nested ranges -/

/-- Whether an offset lies in the range of the goal. -/
def Catch.spans (place : Nat → Nat) (k : Catch) (o : Nat) : Bool :=
  place k.handler.start ≤ o && o < place k.handler.stop

theorem Catch.spans_iff {place : Nat → Nat} {k : Catch} {o : Nat} :
    k.spans place o ↔ place k.handler.start ≤ o ∧ o < place k.handler.stop := by
  rw [spans, Bool.and_eq_true, decide_eq_true_iff, decide_eq_true_iff]

/-- The two ranges are apart, or the first one is inside the second one. -/
def Catch.Precedes (place : Nat → Nat) (k k' : Catch) : Prop :=
  place k.handler.stop ≤ place k'.handler.start ∨ place k'.handler.stop ≤ place k.handler.start ∨
    (place k'.handler.start < place k.handler.start ∧ place k.handler.stop ≤ place k'.handler.stop)

/-- The ranges of the goals `catch/3` in code that stands from an offset on in the first arguments of the
goals `scopes`. -/
structure Nested (place : Nat → Nat) (scopes : List Catch) (o : Nat) (es : List Entry) (ks : List Catch) :
    Prop where
  /-- They are not empty, and they lie in the code and behind its first offset. -/
  bounds : ∀ k ∈ ks, o < place k.handler.start ∧ place k.handler.start < place k.handler.stop ∧
    place k.handler.stop ≤ o + offset (es.map Entry.line)
  /-- An inner one is in front of an outer one. -/
  pairwise : ks.Pairwise (Catch.Precedes place)
  /-- An instruction lies in the ranges of the goals around it. -/
  around : ∀ x ∈ Entry.locate o es, x.2.2 = ks.filter (·.spans place x.1) ++ scopes

namespace Nested

variable {place : Nat → Nat} {scopes : List Catch} {o : Nat} {es es' : List Entry} {ks ks' : List Catch}

/-- Lines without goals `catch/3`. -/
theorem lines (ls : List Line) : Nested place scopes o (ls.map (Entry.mk · scopes)) [] :=
  ⟨fun _ hk => absurd hk List.not_mem_nil, .nil, Entry.locate_lines scopes ls o⟩

/-- An offset in front of the code lies in no range. -/
theorem filter_before (h : Nested place scopes o es ks) {m : Nat} (hm : m ≤ o) :
    ks.filter (·.spans place m) = [] := by
  refine List.filter_eq_nil_iff.mpr fun k hk hspans => ?_
  have := Catch.spans_iff.mp hspans
  have := h.bounds k hk
  omega

/-- An offset behind the code lies in no range. -/
theorem filter_behind (h : Nested place scopes o es ks) {m : Nat}
    (hm : o + offset (es.map Entry.line) ≤ m) : ks.filter (·.spans place m) = [] := by
  refine List.filter_eq_nil_iff.mpr fun k hk hspans => ?_
  have := Catch.spans_iff.mp hspans
  have := h.bounds k hk
  omega

theorem append (h : Nested place scopes o es ks)
    (h' : Nested place scopes (o + offset (es.map Entry.line)) es' ks') :
    Nested place scopes o (es ++ es') (ks ++ ks') := by
  refine ⟨List.forall_mem_append.mpr ⟨fun k hk => ?_, fun k hk => ?_⟩,
    List.pairwise_append.mpr ⟨h.pairwise, h'.pairwise, fun k hk k' hk' => .inl ?_⟩, ?_⟩
  · have := h.bounds k hk
    rw [List.map_append, offset_append]
    omega
  · have := h'.bounds k hk
    rw [List.map_append, offset_append]
    omega
  · have := h.bounds k hk
    have := h'.bounds k' hk'
    omega
  · rw [Entry.locate_append, List.forall_mem_append]
    refine ⟨fun x hx => ?_, fun x hx => ?_⟩ <;> have hx' := Entry.locate_bounds x hx
    · rw [List.filter_append, h'.filter_before (Nat.le_of_lt hx'.2), List.append_nil, h.around x hx]
    · rw [List.filter_append, h.filter_behind hx'.1, List.nil_append, h'.around x hx]

/-- Saving the height of the choice stack takes three bytes. -/
theorem offset_guarded (k : Catch) (scopes : List Catch) (es es' : List Entry) :
    offset ((⟨.instruction (.saveCut k.handler.slot), scopes⟩ :: ⟨.label k.handler.start, scopes⟩ ::
      (es ++ ⟨.label k.handler.stop, scopes⟩ :: es')).map Entry.line) =
        3 + offset (es.map Entry.line) + offset (es'.map Entry.line) := by
  have hsize : (Line.instruction (.saveCut k.handler.slot)).size = 3 := rfl
  have hlabel (n : Nat) : (Line.label n).size = 0 := rfl
  simp only [List.map_cons, List.map_append, offset_cons, offset_append, hsize, hlabel]
  omega

/-- The code of a goal `catch/3`: its first argument, and behind it the rest. -/
theorem guarded {k : Catch} (hbody : Nested place (k :: scopes) (o + 3) es ks)
    (hpos : 0 < offset (es.map Entry.line)) (hstart : place k.handler.start = o + 3)
    (hstop : place k.handler.stop = o + 3 + offset (es.map Entry.line))
    (hrest : Nested place scopes (o + 3 + offset (es.map Entry.line)) es' ks') :
    Nested place scopes o (⟨.instruction (.saveCut k.handler.slot), scopes⟩ ::
      ⟨.label k.handler.start, scopes⟩ :: (es ++ ⟨.label k.handler.stop, scopes⟩ :: es'))
      (ks ++ (ks' ++ [k])) := by
  have hlocate : Entry.locate o (⟨.instruction (.saveCut k.handler.slot), scopes⟩ ::
      ⟨.label k.handler.start, scopes⟩ :: (es ++ ⟨.label k.handler.stop, scopes⟩ :: es')) =
      (o, .saveCut k.handler.slot, scopes) :: (Entry.locate (o + 3) es ++
        Entry.locate (o + 3 + offset (es.map Entry.line)) es') :=
    congrArg (_ :: ·) (Entry.locate_append es _ (o + 3))
  refine ⟨fun k' hk' => ?_, ?_, ?_⟩
  · rw [offset_guarded]
    rw [List.mem_append, List.mem_append, List.mem_singleton] at hk'
    obtain hk' | hk' | rfl := hk'
    · have := hbody.bounds k' hk'
      omega
    · have := hrest.bounds k' hk'
      omega
    · omega
  · refine List.pairwise_append.mpr ⟨hbody.pairwise, List.pairwise_append.mpr ⟨hrest.pairwise,
      List.pairwise_singleton _ _, fun a ha b hb => ?_⟩, fun a ha b hb => ?_⟩
    · -- those in the rest are behind the range of the goal
      cases List.mem_singleton.mp hb
      have := hrest.bounds a ha
      exact .inr (.inl (by omega))
    have hinner := hbody.bounds a ha
    obtain hb | hb := List.mem_append.mp hb
    · have := hrest.bounds b hb
      exact .inl (by omega)
    · -- those in the first argument are inside it
      cases List.mem_singleton.mp hb
      exact .inr (.inr (by omega))
  · rw [hlocate, List.forall_mem_cons, List.forall_mem_append]
    have hself {m : Nat} (hm : m < o + 3 ∨ o + 3 + offset (es.map Entry.line) ≤ m) :
        [k].filter (·.spans place m) = [] :=
      List.filter_cons_of_neg fun hspans => by
        have := Catch.spans_iff.mp hspans
        omega
    refine ⟨?_, fun x hx => ?_, fun x hx => ?_⟩
    · rw [List.filter_append, List.filter_append, hbody.filter_before (by omega),
        hrest.filter_before (by omega), hself (.inl (by omega))]
      rfl
    · have hx' := Entry.locate_bounds x hx
      have hinside : [k].filter (·.spans place x.1) = [k] :=
        List.filter_cons_of_pos (Catch.spans_iff.mpr (by omega))
      rw [List.filter_append, List.filter_append, hrest.filter_before (Nat.le_of_lt hx'.2), hinside,
        hbody.around x hx]
      simp
    · have hx' := Entry.locate_bounds x hx
      rw [List.filter_append, List.filter_append, hbody.filter_behind hx'.1, hself (.inr hx'.1),
        hrest.around x hx]
      simp

end Nested

/-- The ranges of the goals `catch/3` that are listed are nested, wherever the code stands. -/
theorem Listed.nested {slots : Slots} {place : Nat → Nat} {scopes : List Catch} {n l n' l' : Nat}
    {ps : List Piece} {es : List Entry} {ks : List Catch} (h : Listed slots scopes n l ps es ks n' l')
    (hps : ∀ p ∈ ps, p.Full) {o : Nat} (hplace : Located place o es) : Nested place scopes o es ks := by
  induction h generalizing o with
  | nil scopes => exact .lines []
  | @instruction scopes _ _ _ _ _ _ _ i _ ih =>
    obtain ⟨-, hplace⟩ := @located_append place [_] _ _ hplace
    exact (Nested.lines [.instruction i]).append (ih (List.forall_mem_cons.mp hps).2 hplace)
  | @label scopes _ _ _ _ _ _ _ m _ ih =>
    obtain ⟨-, hplace⟩ := @located_append place [_] _ _ hplace
    exact (Nested.lines [.label m]).append (ih (List.forall_mem_cons.mp hps).2 hplace)
  | @tree scopes _ _ _ _ _ _ _ t ls _ _ ih =>
    obtain ⟨-, hplace⟩ := located_append hplace
    exact (Nested.lines ls).append (ih (List.forall_mem_cons.mp hps).2 hplace)
  | @store scopes _ _ _ _ _ _ _ v s _ _ ih =>
    obtain ⟨-, hplace⟩ := @located_append place [_] _ _ hplace
    exact (Nested.lines [.instruction (.storeEnvironment s)]).append
      (ih (List.forall_mem_cons.mp hps).2 hplace)
  | none b _ ih => exact ih (List.forall_mem_cons.mp hps).2 hplace
  | @goal scopes n l _ _ ps _ _ b g gs _ ih =>
    obtain ⟨hgoals, hps⟩ := List.forall_mem_cons.mp hps
    obtain ⟨hg, hgs⟩ : g.Full ∧ Body.Full gs := hgoals
    refine ih ?_ hplace
    rw [List.forall_mem_append, List.forall_mem_cons]
    exact ⟨full_goal b n l hg, hgs, hps⟩
  | @guarded scopes n l n₁ l₁ n₂ l₂ n' l' ps es₁ es₂ es ks₁ ks₂ ks k hbody _ _ ihbody ihrest ih =>
    obtain ⟨⟨hne, hfull, hrecovery⟩, hps⟩ := List.forall_mem_cons.mp hps
    -- where the three parts stand
    obtain ⟨hstart, hplace⟩ : place k.handler.start = o + 3 ∧ Located place (o + 3)
        (es₁ ++ ⟨.label k.handler.stop, scopes⟩ :: (es₂ ++ es)) := hplace
    obtain ⟨hplace₁, hplace⟩ := located_append hplace
    obtain ⟨hstop, hplace⟩ : place k.handler.stop = o + 3 + offset (es₁.map Entry.line) ∧
      Located place (o + 3 + offset (es₁.map Entry.line)) (es₂ ++ es) := hplace
    obtain ⟨hplace₂, hplace⟩ := located_append hplace
    have hnested := Nested.guarded (ihbody (List.forall_mem_singleton.mpr hfull) hplace₁)
      (hbody.offset_pos hne) hstart hstop (ihrest (full_catch hrecovery) hplace₂)
    rw [Nat.add_assoc o, Nat.add_assoc o, ← Nested.offset_guarded k scopes] at hplace
    simpa using hnested.append (ih hps hplace)
  | @rules scopes n l _ _ ps _ _ pending r rest _ ih =>
    obtain ⟨hrules, hps⟩ := List.forall_mem_cons.mp hps
    obtain ⟨hr, hrest⟩ := List.forall_mem_cons.mp hrules
    refine ih ?_ hplace
    rw [List.forall_mem_append, List.forall_mem_append, List.forall_mem_append]
    exact ⟨full_chain l pending rest, full_rule hr, full_rest l hrest, hps⟩

/-! ### The code of a goal -/

/-- What is listed for pieces in front of others is listed in front of what is listed for those. -/
def Splits (slots : Slots) (scopes : List Catch) (n l : Nat) (ps ps' : List Piece) (es : List Entry)
    (ks : List Catch) (n' l' : Nat) : Prop :=
  ∃ n₁ l₁ es₁ es₂ ks₁ ks₂, es = es₁ ++ es₂ ∧ ks = ks₁ ++ ks₂ ∧ Listed slots scopes n l ps es₁ ks₁ n₁ l₁ ∧
    Listed slots scopes n₁ l₁ ps' es₂ ks₂ n' l'

theorem Listed.splits_nil {slots : Slots} {scopes : List Catch} {n l n' l' : Nat} {ps qs : List Piece}
    {es : List Entry} {ks : List Catch} (h : Listed slots scopes n l ps es ks n' l') (hps : ps = [] ++ qs) :
    Splits slots scopes n l [] qs es ks n' l' :=
  ⟨n, l, [], es, [], ks, rfl, rfl, .nil scopes n l, (show ps = qs from hps) ▸ h⟩

/-- More is listed in front. -/
theorem Splits.imp {slots : Slots} {scopes : List Catch} {n l n₀ l₀ n' l' : Nat} {ps ps' qs : List Piece}
    {es : List Entry} {ks : List Catch} (h : Splits slots scopes n l ps ps' es ks n' l') (xs : List Entry)
    (zs : List Catch) (hps : ∀ {n₁ l₁ : Nat} {es : List Entry} {ks : List Catch},
      Listed slots scopes n l ps es ks n₁ l₁ → Listed slots scopes n₀ l₀ qs (xs ++ es) (zs ++ ks) n₁ l₁) :
    Splits slots scopes n₀ l₀ qs ps' (xs ++ es) (zs ++ ks) n' l' := by
  obtain ⟨n₁, l₁, es₁, es₂, ks₁, ks₂, rfl, rfl, h₁, h₂⟩ := h
  exact ⟨n₁, l₁, _, es₂, _, ks₂, (List.append_assoc ..).symm, (List.append_assoc ..).symm, hps h₁, h₂⟩

/-- Pieces in front of others are listed in front of them. -/
theorem Listed.splits {slots : Slots} {scopes : List Catch} {n l n' l' : Nat} {qs ps ps' : List Piece}
    {es : List Entry} {ks : List Catch} (h : Listed slots scopes n l qs es ks n' l') (hqs : qs = ps ++ ps') :
    Splits slots scopes n l ps ps' es ks n' l' := by
  induction h generalizing ps with
  | nil scopes n l =>
    obtain ⟨rfl, rfl⟩ := List.append_eq_nil_iff.mp hqs.symm
    exact splits_nil (.nil scopes n l) rfl
  | instruction i h ih =>
    cases ps with
    | nil => exact splits_nil (.instruction i h) hqs
    | cons p ps =>
      cases hqs
      exact (ih rfl).imp [_] [] (.instruction i)
  | label m h ih =>
    cases ps with
    | nil => exact splits_nil (.label m h) hqs
    | cons p ps =>
      cases hqs
      exact (ih rfl).imp [_] [] (.label m)
  | tree hls h ih =>
    cases ps with
    | nil => exact splits_nil (.tree hls h) hqs
    | cons p ps =>
      cases hqs
      exact (ih rfl).imp _ [] (.tree hls)
  | store hv h ih =>
    cases ps with
    | nil => exact splits_nil (.store hv h) hqs
    | cons p ps =>
      cases hqs
      exact (ih rfl).imp [_] [] (.store hv)
  | none b h ih =>
    cases ps with
    | nil => exact splits_nil (.none b h) hqs
    | cons p ps =>
      cases hqs
      exact (ih rfl).imp [] [] (.none b)
  | goal h ih =>
    cases ps with
    | nil => exact splits_nil (.goal h) hqs
    | cons p ps =>
      cases hqs
      exact (ih (List.append_assoc _ (_ :: ps) _).symm).imp [] [] .goal
  | @guarded scopes _ _ _ _ _ _ _ _ _ es₁ es₂ _ ks₁ ks₂ _ k hbody hrest h _ _ ih =>
    cases ps with
    | nil => exact splits_nil (.guarded hbody hrest h) hqs
    | cons p ps =>
      cases hqs
      have hguarded := (ih rfl).imp (⟨.instruction (.saveCut k.handler.slot), scopes⟩ ::
        ⟨.label k.handler.start, scopes⟩ :: (es₁ ++ ⟨.label k.handler.stop, scopes⟩ :: es₂))
        (ks₁ ++ (ks₂ ++ [k])) fun h => by simpa using Listed.guarded hbody hrest h
      simpa using hguarded
  | @rules _ _ l _ _ _ _ _ pending r rest h ih =>
    cases ps with
    | nil => exact splits_nil (.rules h) hqs
    | cons p ps =>
      cases hqs
      have hassoc : Rule.chainPieces l pending rest ++ (r.pieces ++ (Rule.restPieces l rest ++ (ps ++ ps'))) =
          Rule.chainPieces l pending rest ++ (r.pieces ++ (Rule.restPieces l rest ++ ps)) ++ ps' := by
        simp only [List.append_assoc]
      exact (ih hassoc).imp [] [] .rules

/-- Around entries there are goals `catch/3` that are listed, and outside of those the goals `scopes`. -/
def Enclosed (scopes : List Catch) (es : List Entry) (ks : List Catch) : Prop :=
  ∀ x ∈ es, ∃ inner, (∀ k ∈ inner, k ∈ ks) ∧ x.scopes = inner ++ scopes

namespace Enclosed

variable {scopes : List Catch} {es es' : List Entry} {ks ks' : List Catch}

theorem lines (ls : List Line) : Enclosed scopes (ls.map (Entry.mk · scopes)) [] := by
  rw [Enclosed, List.forall_mem_map]
  exact fun _ _ => ⟨[], fun _ hk => absurd hk List.not_mem_nil, rfl⟩

theorem mono (h : Enclosed scopes es ks) (hks : ∀ k ∈ ks, k ∈ ks') : Enclosed scopes es ks' := by
  intro x hx
  obtain ⟨inner, hinner, hscopes⟩ := h x hx
  exact ⟨inner, fun k hk => hks k (hinner k hk), hscopes⟩

theorem append (h : Enclosed scopes es ks) (h' : Enclosed scopes es' ks') :
    Enclosed scopes (es ++ es') (ks ++ ks') :=
  List.forall_mem_append.mpr ⟨h.mono fun _ hk => List.mem_append_left _ hk,
    h'.mono fun _ hk => List.mem_append_right _ hk⟩

/-- A goal `catch/3` is listed itself. -/
theorem enter {k : Catch} (h : Enclosed (k :: scopes) es ks) : Enclosed scopes es (ks ++ [k]) := by
  intro x hx
  obtain ⟨inner, hinner, hscopes⟩ := h x hx
  refine ⟨inner ++ [k], List.forall_mem_append.mpr ⟨fun k hk => List.mem_append_left _ (hinner k hk),
    fun k hk => List.mem_append_right _ hk⟩, ?_⟩
  rw [hscopes, List.append_assoc]
  rfl

/-- Entries behind each other without goals `catch/3` in them. -/
theorem eq (h : Enclosed scopes es []) : ∀ x ∈ es, x.scopes = scopes := by
  intro x hx
  obtain ⟨inner, hinner, hscopes⟩ := h x hx
  rw [hscopes, List.eq_nil_iff_forall_not_mem.mpr fun k hk => List.not_mem_nil (hinner k hk), List.nil_append]

end Enclosed

theorem Listed.enclosed {slots : Slots} {scopes : List Catch} {n l n' l' : Nat} {ps : List Piece}
    {es : List Entry} {ks : List Catch} (h : Listed slots scopes n l ps es ks n' l') :
    Enclosed scopes es ks := by
  induction h with
  | nil scopes n l => exact .lines []
  | instruction i _ ih => exact (Enclosed.lines [.instruction i]).append ih
  | label m _ ih => exact (Enclosed.lines [.label m]).append ih
  | @tree _ _ _ _ _ _ _ _ t ls _ _ ih => exact (Enclosed.lines ls).append ih
  | @store _ _ _ _ _ _ _ _ v s _ _ ih => exact (Enclosed.lines [.instruction (.storeEnvironment s)]).append ih
  | none _ _ ih | goal _ ih | rules _ ih => exact ih
  | @guarded scopes _ _ _ _ _ _ _ _ _ es₁ es₂ es ks₁ ks₂ ks k _ _ _ ihbody ihrest ih =>
    have hall := (Enclosed.lines [.instruction (.saveCut k.handler.slot), .label k.handler.start]).append
      (ihbody.enter.append ((Enclosed.lines [.label k.handler.stop]).append (ihrest.append ih)))
    refine Enclosed.mono (by simpa using hall) fun k' hk' => ?_
    simp only [List.mem_append, List.mem_cons] at hk' ⊢
    tauto

/-- The code of a goal `catch/3`, and the goals `catch/3` in it. -/
structure Catch.Code where
  /-- Those around it, the innermost one first. -/
  scopes : List Catch
  /-- The code of the first argument. -/
  body : List Entry
  /-- The goals `catch/3` in it. -/
  inner : List Catch
  /-- The code that balls go to, up to the third argument. -/
  handler : List Entry
  /-- The code of the third argument. -/
  recovery : List Entry
  /-- The goals `catch/3` in it. -/
  inside : List Catch
  /-- The code behind the third argument, which throws balls again. -/
  rethrow : List Entry

/-- The pieces between the first and the third argument. -/
def Catch.handlerPieces (k : Catch) : List Piece :=
  [.instruction (.jump k.done), .label k.handler.target, .instruction (.storeEnvironment k.ball),
    .instruction (.tryMeElse k.rethrow), .tree k.catcher, .instruction (.pushEnvironment k.ball),
    .instruction .unify, .instruction .trustMe]

/-- The pieces behind the third argument. -/
def Catch.rethrowPieces (k : Catch) : List Piece :=
  [.instruction (.jump k.done), .label k.rethrow, .instruction .trustMe,
    .instruction (.pushEnvironment k.ball), .instruction .raise, .label k.done]

theorem Catch.pieces_eq (k : Catch) :
    k.pieces = k.handlerPieces ++ ([.goals k.handler.slot k.recovery] ++ k.rethrowPieces) := rfl

/-- The entries of the code of a goal `catch/3`. -/
def Catch.entries (k : Catch) (d : Code) : List Entry :=
  ⟨.instruction (.saveCut k.handler.slot), d.scopes⟩ :: ⟨.label k.handler.start, d.scopes⟩ ::
    (d.body ++ ⟨.label k.handler.stop, d.scopes⟩ :: (d.handler ++ (d.recovery ++ d.rethrow)))

/-- Pieces are listed from some slot and label on. -/
def Lists (slots : Slots) (scopes : List Catch) (ps : List Piece) (es : List Entry) (ks : List Catch) :
    Prop :=
  ∃ n l n' l', Listed slots scopes n l ps es ks n' l'

/-- What the code of a goal `catch/3` is made of. -/
structure Catch.Made (slots : Slots) (k : Catch) (d : Catch.Code) : Prop where
  /-- The first argument, inside the goal. -/
  body : Lists slots (k :: d.scopes) [.goals k.handler.slot k.body] d.body d.inner
  /-- What is behind it stands outside of the goal. -/
  handler : Lists slots d.scopes k.handlerPieces d.handler []
  /-- The third argument. -/
  recovery : Lists slots d.scopes [.goals k.handler.slot k.recovery] d.recovery d.inside
  /-- The rest. -/
  rethrow : Lists slots d.scopes k.rethrowPieces d.rethrow []

/-- Flat pieces list no goals `catch/3`. -/
def Piece.flat : Piece → Bool
  | .goals .. | .guarded _ | .rules .. => false
  | _ => true

theorem Listed.eq_nil {slots : Slots} {scopes : List Catch} {n l n' l' : Nat} {ps : List Piece}
    {es : List Entry} {ks : List Catch} (h : Listed slots scopes n l ps es ks n' l')
    (hps : ∀ p ∈ ps, p.flat) : ks = [] := by
  induction h with
  | nil => rfl
  | instruction _ _ ih | label _ _ ih | tree _ _ ih | store _ _ ih => exact ih (List.forall_mem_cons.mp hps).2
  | none | goal | guarded | rules => cases hps _ (.head _)

/-- The code behind the first argument of a goal `catch/3` has three parts. -/
theorem Listed.exists_parts {slots : Slots} {scopes : List Catch} {n l n' l' : Nat} {k : Catch}
    {es : List Entry} {ks : List Catch} (h : Listed slots scopes n l k.pieces es ks n' l') :
    ∃ handler recovery rethrow, es = handler ++ (recovery ++ rethrow) ∧
      Lists slots scopes k.handlerPieces handler [] ∧
      Lists slots scopes [.goals k.handler.slot k.recovery] recovery ks ∧
      Lists slots scopes k.rethrowPieces rethrow [] := by
  obtain ⟨n₁, l₁, es₁, _, ks₁, _, rfl, rfl, h₁, h⟩ := h.splits k.pieces_eq
  obtain ⟨n₂, l₂, es₂, es₃, ks₂, ks₃, rfl, rfl, h₂, h₃⟩ := h.splits rfl
  obtain rfl : ks₁ = [] := h₁.eq_nil (List.all_eq_true.mp rfl)
  obtain rfl : ks₃ = [] := h₃.eq_nil (List.all_eq_true.mp rfl)
  rw [List.nil_append, List.append_nil]
  exact ⟨es₁, es₂, es₃, rfl, ⟨_, _, _, _, h₁⟩, ⟨_, _, _, _, h₂⟩, ⟨_, _, _, _, h₃⟩⟩

/-- A goal `catch/3` stands among entries, and among the goals `catch/3` that are listed. -/
structure Catch.Stands (slots : Slots) (scopes : List Catch) (es : List Entry) (ks : List Catch) (k : Catch)
    (d : Code) : Prop where
  /-- What its code is made of. -/
  made : k.Made slots d
  /-- Where its code is. -/
  code : ∃ before after, es = before ++ (k.entries d ++ after)
  /-- Those in its arguments are listed before it, and those around it behind it. -/
  table : ∃ before outer after, ks = before ++ (d.inner ++ (d.inside ++ k :: after)) ∧
    d.scopes = outer ++ scopes ∧ ∀ k' ∈ outer, k' ∈ after

namespace Catch.Stands

variable {slots : Slots} {scopes : List Catch} {es : List Entry} {ks : List Catch} {k k' : Catch}
  {d : Catch.Code}

/-- It stands among more entries. -/
theorem extend (h : k.Stands slots scopes es ks d) {es' : List Entry} {ks' : List Catch}
    (es₁ es₂ : List Entry) (ks₁ ks₂ : List Catch) (hes : es' = es₁ ++ (es ++ es₂))
    (hks : ks' = ks₁ ++ (ks ++ ks₂)) : k.Stands slots scopes es' ks' d := by
  subst hes hks
  obtain ⟨before, after, rfl⟩ := h.code
  obtain ⟨before', outer, after', rfl, hscopes, houter⟩ := h.table
  exact ⟨h.made, ⟨es₁ ++ before, after ++ es₂, by simp⟩, ks₁ ++ before', outer, after' ++ ks₂, by simp,
    hscopes, fun k hk => List.mem_append_left _ (houter k hk)⟩

/-- What stands in the first argument of a goal that is listed behind it. -/
theorem leave (h : k.Stands slots (k' :: scopes) es ks d) {ks' : List Catch} (hk' : k' ∈ ks') :
    k.Stands slots scopes es (ks ++ ks') d := by
  obtain ⟨before, outer, after, rfl, hscopes, houter⟩ := h.table
  refine ⟨h.made, h.code, before, outer ++ [k'], after ++ ks', by simp, by simp [hscopes], ?_⟩
  rw [List.forall_mem_append, List.forall_mem_singleton]
  exact ⟨fun k hk => List.mem_append_left _ (houter k hk), List.mem_append_right _ hk'⟩

end Catch.Stands

/-- Every goal `catch/3` that is listed has its code among the entries. -/
theorem Listed.stands {slots : Slots} {scopes : List Catch} {n l n' l' : Nat} {ps : List Piece}
    {es : List Entry} {ks : List Catch} (h : Listed slots scopes n l ps es ks n' l') :
    ∀ k ∈ ks, ∃ d, k.Stands slots scopes es ks d := by
  -- entries in front of those where a goal stands
  have hbehind {scopes : List Catch} {es : List Entry} {ks : List Catch} (xs : List Entry)
      (h : ∀ k ∈ ks, ∃ d, k.Stands slots scopes es ks d) :
      ∀ k ∈ ks, ∃ d, k.Stands slots scopes (xs ++ es) ks d := by
    intro k hk
    obtain ⟨d, hd⟩ := h k hk
    exact ⟨d, hd.extend xs [] [] [] (by simp) (by simp)⟩
  induction h with
  | nil => exact fun k hk => absurd hk List.not_mem_nil
  | instruction i _ ih => exact hbehind [_] ih
  | label m _ ih => exact hbehind [_] ih
  | tree _ _ ih => exact hbehind _ ih
  | store _ _ ih => exact hbehind [_] ih
  | none _ _ ih | goal _ ih | rules _ ih => exact ih
  | @guarded scopes n l n₁ l₁ n₂ l₂ n' l' ps es₁ es₂ es ks₁ ks₂ ks k hbody hrest _ ihbody ihrest ih =>
    obtain ⟨handler, recovery, rethrow, rfl, hhandler, hrecovery, hrethrow⟩ := hrest.exists_parts
    simp only [List.forall_mem_append, List.forall_mem_cons]
    refine ⟨fun k' hk' => ?_, fun k' hk' => ?_, ?_, fun k' hk' => ?_⟩
    · obtain ⟨d, hd⟩ := ihbody k' hk'
      have hd := hd.leave (List.mem_append_right ks₂ (List.mem_cons_self (a := k) (l := ks)))
      exact ⟨d, hd.extend [_, _] _ [] [] rfl (by simp)⟩
    · obtain ⟨d, hd⟩ := ihrest k' hk'
      exact ⟨d, hd.extend (⟨.instruction (.saveCut k.handler.slot), scopes⟩ ::
        ⟨.label k.handler.start, scopes⟩ :: (es₁ ++ [⟨.label k.handler.stop, scopes⟩])) es ks₁ (k :: ks)
        (by simp) rfl⟩
    · let d : Catch.Code := ⟨scopes, es₁, ks₁, handler, recovery, ks₂, rethrow⟩
      exact ⟨d, ⟨⟨_, _, _, _, hbody⟩, hhandler, hrecovery, hrethrow⟩,
        ⟨[], es, by simp [Catch.entries, d]⟩, [], [], ks, rfl, rfl, fun k hk => absurd hk List.not_mem_nil⟩
    · obtain ⟨d, hd⟩ := ih k' hk'
      exact ⟨d, hd.extend (⟨.instruction (.saveCut k.handler.slot), scopes⟩ ::
        ⟨.label k.handler.start, scopes⟩ :: (es₁ ++ ⟨.label k.handler.stop, scopes⟩ ::
          (handler ++ (recovery ++ rethrow)))) [] (ks₁ ++ (ks₂ ++ [k])) [] (by simp) (by simp)⟩

/-! ### Predicates -/

/-- Entries and goals `catch/3` are listed for the code of a predicate. -/
inductive Listing : List Rule → List Entry → List Catch → Prop
  | fail : Listing [] [⟨.instruction .fail, []⟩] []
  | rules {r : Rule} {rest : List Rule} {es : List Entry} {ks : List Catch} {n l : Nat}
    (h : Listed (numbering (r :: rest)).1 [] 1 0 [.rules none r rest] es ks n l) :
    Listing (r :: rest) (⟨.instruction (.allocate (.ofNat (numbering (r :: rest)).2)), []⟩ ::
      ⟨.instruction (.saveCut 0), []⟩ :: es) ks

/-- Labels stand where they are placed. -/
theorem exists_place (ls : List Line) : ∃ place : Nat → Nat, ∀ n o, Places ls n o → place n = o := by
  have hplace (n : Nat) : ∃ m, ∀ o, Places ls n o → m = o := by
    by_cases h : ∃ o, Places ls n o
    · obtain ⟨m, hm⟩ := h
      exact ⟨m, fun o => hm.unique⟩
    · exact ⟨0, fun o ho => absurd ⟨o, ho⟩ h⟩
  exact ⟨fun n => (hplace n).choose, fun n => (hplace n).choose_spec⟩

theorem located_of_nodup {place : Nat → Nat} {before es : List Entry}
    (hnodup : (labels ((before ++ es).map Entry.line)).Nodup)
    (hplace : ∀ n o, Places ((before ++ es).map Entry.line) n o → place n = o) :
    Located place (offset (before.map Entry.line)) es := by
  induction es generalizing before with
  | nil => trivial
  | cons x es ih =>
    have hrest := @ih (before ++ [x]) (by simpa using hnodup) (by simpa using hplace)
    rw [List.map_append, offset_append] at hrest
    obtain ⟨_ | n, scopes⟩ := x
    · exact hrest
    · refine ⟨hplace n _ ?_, hrest⟩
      rw [List.map_append] at hnodup ⊢
      exact places_of_nodup hnodup

namespace Listing

variable {rules : List Rule} {es : List Entry} {ks : List Catch}

/-- Every label is placed once. -/
theorem nodup (h : Listing rules es ks) : (labels (es.map Entry.line)).Nodup := by
  cases h with
  | fail => exact .nil
  | @rules r rest es _ n l h =>
    have hlabels : labels ((⟨.instruction (.allocate (.ofNat (numbering (r :: rest)).2)), []⟩ ::
      ⟨.instruction (.saveCut 0), []⟩ :: es : List Entry).map Entry.line) = labels (es.map Entry.line) := rfl
    rw [hlabels, List.nodup_iff_count_le_one]
    intro m
    have hcount := (h.count_labels m).2
    simp only [List.map_cons, List.map_nil, total_cons, total_nil, Piece.places, reduceCtorEq, if_false,
      within] at hcount
    split at hcount <;> omega

theorem nested {place : Nat → Nat} (h : Listing rules es ks) (hrules : ∀ r ∈ rules, Body.Full r.body)
    (hplace : Located place 0 es) : Nested place [] 0 es ks := by
  cases h with
  | fail => exact .lines [.instruction .fail]
  | @rules r rest es _ n l h =>
    exact (Nested.lines [.instruction (.allocate (.ofNat (numbering (r :: rest)).2)),
      .instruction (.saveCut 0)]).append (h.nested (List.forall_mem_singleton.mpr hrules) hplace)

theorem stands (h : Listing rules es ks) : ∀ k ∈ ks, ∃ d, k.Stands (numbering rules).1 [] es ks d := by
  cases h with
  | fail => exact fun k hk => absurd hk List.not_mem_nil
  | rules h =>
    intro k hk
    obtain ⟨d, hd⟩ := h.stands k hk
    exact ⟨d, hd.extend [_, _] [] [] [] (congrArg (_ :: _ :: ·) (List.append_nil _).symm) (by simp)⟩

end Listing

end Program

/-- There are no more arguments in the head of a clause than numbers for them. -/
theorem Chunk.Holds.length_le {c : Chunk} {rules : List Rule} (h : c.Holds rules) :
    ∀ r ∈ rules, r.args.length ≤ 65536 := by
  intro r hr
  obtain ⟨pc₁, pc₂, -, -, hall⟩ := h.rules (List.ne_nil_of_mem hr)
  obtain ⟨pc, pc', pc₀, -, hhead⟩ := hall.begins r hr
  have hlength := hhead.le.2
  rw [← List.length_pos_iff, List.length_zip, Rule.length_directArguments, Nat.min_self] at hlength
  omega

namespace Program

/-- The code of a predicate is listed for its clauses. -/
theorem exists_listing {tag : Tag} {clauses : List Clause} {u u' : Universe} {c : Chunk}
    (h : Chunk.ofClauses tag clauses u = .ok c u') :
    ∃ (rules : List Rule) (p : Program) (es : List Entry) (ks : List Catch),
      List.Forall₂ (Rule.Reads u.store) clauses rules ∧ Listing rules es ks ∧
      p.assemble = .ok c ∧ p.lines.toList = es.map Entry.line ∧ p.handlers.toList = ks.map Catch.handler := by
  obtain ⟨rules, s, hrules, hholds, harity, -⟩ := Chunk.holds_of_ofClauses h
  obtain ⟨p, u₁, hp, h⟩ := Emit.bind_eq_ok.mp h
  have hassemble : p.assemble = .ok c := by
    cases hassemble : p.assemble with
    | error e =>
      rw [hassemble] at h
      cases h
    | ok chunk =>
      rw [hassemble] at h
      cases h
      rfl
  have hreads := (yields_ok (Rule.screens_mapM u.store clauses u.symbols) hrules).2
  have hmade : Yields (clauses.mapM (Rule.ofClause u.store)) u.symbols (fun rules' _ => rules' = rules)
      fun _ _ => True := by
    rw [Yields, hrules]
  obtain ⟨rules', heq, -, hwritten⟩ := yields_ok (yields_ofClauses harity hmade) hp
  rw [heq] at hwritten
  cases rules with
  | nil =>
    obtain ⟨-, hlines, hhandlers⟩ := hwritten.fail rfl
    exact ⟨[], p, _, _, hreads, .fail, hassemble, by rw [hlines]; rfl, by rw [hhandlers]; rfl⟩
  | cons r rest =>
    obtain ⟨stamps, e, hrun, -, hlines, hhandlers⟩ := hwritten.run (List.cons_ne_nil _ _)
    obtain ⟨e', es, ks, hrun', hlists⟩ := exists_lists (hasRule_of_reads hholds.length_le hreads)
      (.ofNat (numbering (r :: rest)).2) stamps
    obtain rfl : e = e' := by
      rw [hrun] at hrun'
      cases hrun'
      rfl
    exact ⟨_, p, _, _, hreads, .rules hlists.listed, hassemble, by rw [hlines, lines_start hlists]; rfl,
      by rw [hhandlers, hlists.handlers]; rfl⟩

/-- Around the parts of the code of a goal `catch/3` there are the goals around it; it is itself around its
first argument only, and so are those in its first and its third argument around these. -/
structure Catch.Guards (k : Catch) (d : Catch.Code) : Prop where
  /-- The first argument. -/
  body : Enclosed (k :: d.scopes) d.body d.inner
  /-- The code behind it but for the third argument. -/
  rest : ∀ x ∈ d.handler ++ d.rethrow, x.scopes = d.scopes
  /-- The third argument. -/
  recovery : Enclosed d.scopes d.recovery d.inside
  /-- The goal is none of the others. -/
  other : k ∉ d.inner ++ (d.inside ++ d.scopes)

theorem Catch.Stands.guards {slots : Slots} {es : List Entry} {ks : List Catch} {k : Catch} {d : Catch.Code}
    (h : k.Stands slots [] es ks d) (hks : ks.Nodup) : k.Guards d := by
  obtain ⟨_, _, _, _, hbody⟩ := h.made.body
  obtain ⟨_, _, _, _, hhandler⟩ := h.made.handler
  obtain ⟨_, _, _, _, hrecovery⟩ := h.made.recovery
  obtain ⟨_, _, _, _, hrethrow⟩ := h.made.rethrow
  refine ⟨hbody.enclosed, List.forall_mem_append.mpr ⟨hhandler.enclosed.eq, hrethrow.enclosed.eq⟩,
    hrecovery.enclosed, ?_⟩
  obtain ⟨before, outer, after, rfl, hscopes, houter⟩ := h.table
  rw [hscopes, List.append_nil]
  simp only [List.nodup_append, List.nodup_cons, List.mem_append, List.mem_cons] at hks ⊢
  rintro (hk | hk | hk)
  · exact hks.2.1.2.2 k hk k (.inr (.inl rfl)) rfl
  · exact hks.2.1.2.1.2.2 k hk k (.inl rfl) rfl
  · exact hks.2.1.2.1.2.1.1 (houter k hk)

/-- Goals with nested ranges are distinct. -/
theorem Nested.nodup {place : Nat → Nat} {scopes : List Catch} {o : Nat} {es : List Entry}
    {ks : List Catch} (h : Nested place scopes o es ks) : ks.Nodup := by
  refine h.pairwise.imp_of_mem fun {k k'} hk _ hprecedes heq => ?_
  have := h.bounds k hk
  subst heq
  obtain hle | hle | hlt := hprecedes <;> omega

theorem pairwise_of_forall₂ {α β : Type} {R : α → β → Prop} {S : α → α → Prop} {T : β → β → Prop}
    {as : List α} {bs : List β} (h : List.Forall₂ R as bs) (has : as.Pairwise S)
    (hST : ∀ {a a' : α} {b b' : β}, R a b → R a' b' → S a a' → T b b') : bs.Pairwise T := by
  induction h with
  | nil => exact .nil
  | cons hab hrest ih =>
    obtain ⟨hhead, htail⟩ := List.pairwise_cons.mp has
    refine List.pairwise_cons.mpr ⟨fun b' hb' => ?_, ih htail⟩
    obtain ⟨a', ha', hab'⟩ := exists_of_forall₂ hrest.flip hb'
    exact hST hab hab' (hhead a' ha')

end Program

namespace Chunk

open Program

/-- Packed code goes back to entries. -/
structure Traces (c : Chunk) (es : List Entry) (ks : List Catch) : Prop where
  /-- The handlers are those of the goals `catch/3`, in order. -/
  handlers : List.Forall₂ (fun k h => PackedHandler (es.map Entry.line) k.handler h) ks c.handlers.toList
  /-- The instructions that are read are those of the entries, at their offsets. The handlers whose ranges
  an instruction lies in are those of the goals `catch/3` around it, and balls go to the innermost one. -/
  instructions : ∃ js, c.decode 0 = .ok js ∧ List.Forall₂ (fun x y => y.1 = x.1 ∧
    c.Packs (fun n o => Places (es.map Entry.line) n o.toNat) x.2.1 y.2 ∧
    List.Forall₂ (fun k h => PackedHandler (es.map Entry.line) k.handler h) x.2.2
      (c.handlers.toList.filter (·.covers y.1)) ∧
    Option.Rel (fun k h => PackedHandler (es.map Entry.line) k.handler h) x.2.2.head? (c.handlerFor? y.1))
    (Entry.locate 0 es) js

/-- Where ranges are nested, balls go to the goals `catch/3` around. -/
theorem traces_of_nested {c : Chunk} {p : Program} {es : List Entry} {ks : List Catch}
    {place : Nat → Nat} (h : p.assemble = .ok c) (hlines : p.lines.toList = es.map Entry.line)
    (hhandlers : p.handlers.toList = ks.map Catch.handler)
    (hplace : ∀ n o, Places (es.map Entry.line) n o → place n = o) (hnested : Nested place [] 0 es ks) :
    c.Traces es ks := by
  have hrepresents := represents_of_assemble h
  have hpacked := hrepresents.handlers
  rw [hhandlers, hlines, List.forall₂_map_left_iff] at hpacked
  refine ⟨hpacked, ?_⟩
  obtain ⟨js, hdecode, hjs, -⟩ := hrepresents.instructions
  rw [Program.instructions, hlines, ← Entry.map_locate, List.forall₂_map_left_iff] at hjs
  refine ⟨js, hdecode, ((List.forall₂_and_left _ _).mpr ⟨hnested.around, hjs⟩).imp ?_⟩
  rintro x y ⟨haround, hoffset, hpacks⟩
  have hcovers {k : Catch} {h : Handler} (hk : PackedHandler (es.map Entry.line) k.handler h) :
      k.spans place x.1 ↔ h.covers y.1 := by
    rw [Catch.spans_iff, hplace _ _ hk.start, hplace _ _ hk.stop, hoffset, Handler.covers, Bool.and_eq_true,
      decide_eq_true_iff, decide_eq_true_iff]
  have hscopes : List.Forall₂ (fun k h => PackedHandler (es.map Entry.line) k.handler h) x.2.2
      (c.handlers.toList.filter (·.covers y.1)) := by
    rw [haround, List.append_nil]
    exact List.rel_filter (fun _ _ hk => hcovers hk) hpacked
  refine ⟨hoffset, hpacks, hscopes, ?_⟩
  rw [handlerFor?, ← Array.find?_toList, ← List.head?_filter]
  generalize x.2.2 = scopes at hscopes
  generalize c.handlers.toList.filter (·.covers y.1) = hs at hscopes
  cases hscopes with
  | nil => exact .none
  | cons hk _ => exact .some hk

/-- The ranges of the handlers of a predicate are not empty, two of them are apart or the one that is in
front in the table is inside the other, and balls thrown by an instruction go to the innermost goal
`catch/3` in whose first argument it has been written. -/
theorem handlers_nested {tag : Tag} {clauses : List Clause} {u u' : Universe} {c : Chunk}
    (h : ofClauses tag clauses u = .ok c u') :
    (∀ k ∈ c.handlers.toList, k.start < k.stop) ∧
    c.handlers.toList.Pairwise (fun k k' => k.stop ≤ k'.start ∨ k'.stop ≤ k.start ∨
      (k'.start < k.start ∧ k.stop ≤ k'.stop)) ∧
    ∃ rules es ks, List.Forall₂ (Rule.Reads u.store) clauses rules ∧ Listing rules es ks ∧
      c.Traces es ks ∧ ∀ k ∈ ks, ∃ d, k.Stands (numbering rules).1 [] es ks d ∧ k.Guards d := by
  obtain ⟨rules, p, es, ks, hreads, hlisting, hassemble, hlines, hhandlers⟩ := exists_listing h
  obtain ⟨place, hplace⟩ := exists_place (es.map Entry.line)
  have hfull : ∀ r ∈ rules, Body.Full r.body := by
    intro r hr
    obtain ⟨c, -, hread⟩ := exists_of_forall₂ hreads.flip hr
    exact hread.body.full
  have hnested := hlisting.nested hfull (@located_of_nodup place [] es hlisting.nodup hplace)
  have htraces := traces_of_nested hassemble hlines hhandlers hplace hnested
  refine ⟨fun h hh => ?_, pairwise_of_forall₂ htraces.handlers hnested.pairwise fun {k k' h h'} hk hk' => ?_,
    rules, es, ks, hreads, hlisting, htraces, fun k hk => ?_⟩
  · obtain ⟨k, hk, hpacked⟩ := exists_of_forall₂ htraces.handlers.flip hh
    rw [UInt32.lt_iff_toNat_lt, ← hplace _ _ hpacked.start, ← hplace _ _ hpacked.stop]
    exact (hnested.bounds k hk).2.1
  · rw [UInt32.le_iff_toNat_le, UInt32.le_iff_toNat_le, UInt32.lt_iff_toNat_lt, UInt32.le_iff_toNat_le,
      ← hplace _ _ hk.start, ← hplace _ _ hk.stop, ← hplace _ _ hk'.start, ← hplace _ _ hk'.stop]
    exact id
  · obtain ⟨d, hd⟩ := hlisting.stands k hk
    exact ⟨d, hd, hd.guards hnested.nodup⟩

/-- In `X / Y :- catch(catch(X, Y, \+ Y), X, Y)` the range of the inner goal is in front in the table, and
it is inside that of the outer one. -/
theorem handlers_nested_twice :
    let clause : Clause := ⟨.compound 0 .slash [.var ⟨0⟩, .var ⟨1⟩], .compound 1 .catchGoal
      [.compound 2 .catchGoal [.var ⟨0⟩, .var ⟨1⟩, .compound 3 .negation [.var ⟨1⟩]], .var ⟨0⟩, .var ⟨1⟩]⟩
    ∃ c u' k k', ofClauses .slash [clause] .initial = .ok c u' ∧ c.handlers.toList = [k, k'] ∧
      k.start < k.stop ∧ k'.start < k.start ∧ k.stop ≤ k'.stop := by
  intro clause
  have hranges : ((answer? (ofClauses .slash [clause]) .initial).map fun x =>
      x.1.handlers.toList.map fun k => (k.start.toNat, k.stop.toNat)) = some [(24, 30), (21, 81)] := by
    decide +kernel
  obtain ⟨⟨c, u'⟩, hanswer, hmap⟩ := Option.map_eq_some_iff.mp hranges
  have hmade := answer?_eq_some.mp hanswer
  obtain ⟨hpos, hpairwise, -⟩ := handlers_nested hmade
  obtain ⟨k, hs, hcons, hk, hs'⟩ := List.map_eq_cons_iff.mp hmap
  obtain ⟨k', rfl, hk'⟩ := List.map_eq_singleton_iff.mp hs'
  obtain ⟨hstart, hstop⟩ := Prod.mk.inj hk
  obtain ⟨hstart', hstop'⟩ := Prod.mk.inj hk'
  have hcons : c.handlers.toList = [k, k'] := hcons
  rw [hcons] at hpos hpairwise
  refine ⟨c, u', k, k', hmade, hcons, hpos k (.head _), ?_⟩
  -- the two ranges are not apart
  obtain hle | hle | hinside := List.pairwise_pair.mp hpairwise
  · rw [UInt32.le_iff_toNat_le] at hle
    omega
  · rw [UInt32.le_iff_toNat_le] at hle
    omega
  · exact hinside

end Chunk

end Resolvent
