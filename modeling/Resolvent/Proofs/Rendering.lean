import Resolvent.Proofs.Sharing
import Resolvent.Proofs.StandardOrder
import Resolvent.Proofs.Wording

/-!
# Texts of terms are read in one way only

A tree is written piece by piece, and what is written is what the pieces are, one after the other
(`Tree.toList_write`). A tree that is no list cell begins with a token, and what follows a tree begins with a
comma, a bar or a closing bracket, which ends the token. So a tree is found again at the beginning of a longer
text: its first token is found again, it tells the kind of the tree, and its arguments or the elements of the
list are found again one after the other (`Tree.Readable.apart`). No tree begins with a closing bracket, which
tells an application without arguments from one with some, and the atom `[]` from a list.

A term is written as the tree that it denotes (`Store.Denotes.resolve_eq`), so terms are written alike exactly
if they denote the same tree (`Universe.render_unambiguous`).
-/

namespace Resolvent

open Text

namespace Tree

variable {symbols : Symbols} {f : Tag} {args : List Tree} {s t head tail : Tree} {lead out : String}
  {ps qs rest : List Piece}

/-! ### The text of a tree -/

/-- Head and tail of a tree that is a list cell. -/
def split? : Tree → Option (Tree × Tree)
  | .compound f args => cell? f args
  | _ => none

theorem write_cell (h : cell? f args = some (head, tail)) :
    write symbols (.tree lead (.compound f args) :: rest) out =
      write symbols (.tree "[" head :: .tail tail :: rest) (out ++ lead) := by
  rw [write]
  split
  · rename_i h'
    obtain ⟨rfl, rfl⟩ := Prod.mk.inj (Option.some.inj (h'.symm.trans h))
    rfl
  · rename_i h'
    rw [h'] at h
    cases h

theorem write_compound (h : cell? f args = none) :
    write symbols (.tree lead (.compound f args) :: rest) out =
      write symbols (argumentPieces args ++ .text ")" :: rest)
        (out ++ lead ++ quoteName (symbols.tagName f) ++ "(") := by
  rw [write]
  split
  · rename_i h'
    rw [h'] at h
    cases h
  · rfl

theorem write_tail_cell (h : cell? f args = some (head, tail)) :
    write symbols (.tail (.compound f args) :: rest) out =
      write symbols (.tree "," head :: .tail tail :: rest) out := by
  rw [write]
  split
  · rename_i h'
    obtain ⟨rfl, rfl⟩ := Prod.mk.inj (Option.some.inj (h'.symm.trans h))
    rfl
  · rename_i h'
    rw [h'] at h
    cases h

theorem write_tail_leaf (h : ∀ f args, t ≠ .compound f args) :
    write symbols (.tail t :: rest) out =
      if t = .atom .nil then write symbols rest (out ++ "]")
      else write symbols (.tree "|" t :: .text "]" :: rest) out := by
  rw [write]
  exact h

theorem write_tail_nil :
    write symbols (.tail (.atom .nil) :: rest) out = write symbols rest (out ++ "]") := by
  rw [write_tail_leaf (by simp), if_pos rfl]

/-- Behind a bar stands what is neither a list cell nor the empty list. -/
theorem write_tail_other (h : t.split? = none) (hnil : t ≠ .atom .nil) :
    write symbols (.tail t :: rest) out = write symbols (.tree "|" t :: .text "]" :: rest) out := by
  obtain _ | _ | ⟨f, args⟩ := t
  · rw [write_tail_leaf (by simp), if_neg hnil]
  · rw [write_tail_leaf (by simp), if_neg hnil]
  · conv_lhs => rw [write]
    split
    · rename_i h'
      rw [split?, h'] at h
      cases h
    · rfl

/-- Pieces are written one after the other, behind what has been written. -/
theorem write_append (ps qs : List Piece) (out : String) :
    ∀ pre : String,
      write symbols (ps ++ qs) (pre ++ out) = write symbols qs (pre ++ write symbols ps out) := by
  fun_induction write symbols ps out with
  | case1 => exact fun pre => rfl
  | case2 s rest out ih =>
    intro pre
    rw [← ih, List.cons_append, write, String.append_assoc]
  | case3 lead v rest out ih =>
    intro pre
    rw [← ih, List.cons_append, write, String.append_assoc, String.append_assoc, String.append_assoc]
  | case4 lead c rest out ih =>
    intro pre
    rw [← ih, List.cons_append, write, String.append_assoc, String.append_assoc, String.append_assoc]
  | case5 lead f args rest out head tail h ih =>
    intro pre
    rw [← ih, List.cons_append, write_cell h, String.append_assoc]
    rfl
  | case6 lead f args rest out h ih =>
    intro pre
    rw [← ih, List.cons_append, write_compound h, List.append_assoc]
    simp only [String.append_assoc]
    rfl
  | case7 f args rest out head tail h ih =>
    intro pre
    rw [← ih, List.cons_append, write_tail_cell h]
    rfl
  | case8 f args rest out h ih =>
    intro pre
    rw [← ih, List.cons_append, write_tail_other (by exact h) (by simp)]
    rfl
  | case9 rest out _ ih =>
    intro pre
    rw [← ih, List.cons_append, write_tail_nil, String.append_assoc]
  | case10 t rest out hno hnil ih =>
    intro pre
    have hsplit : t.split? = none := by
      obtain _ | _ | ⟨f, args⟩ := t
      · rfl
      · rfl
      · exact (hno f args rfl).elim
    rw [← ih, List.cons_append, write_tail_other hsplit hnil]
    rfl

/-- The text that leads to a tree is written before it. -/
theorem write_lead (lead out : String) (t : Tree) (rest : List Piece) :
    write symbols (.tree lead t :: rest) out = write symbols (.tree "" t :: rest) (out ++ lead) := by
  obtain v | c | ⟨f, args⟩ := t
  · rw [write, write, String.append_empty]
  · rw [write, write, String.append_empty]
  · cases h : cell? f args with
    | none => rw [write_compound h, write_compound h, String.append_empty]
    | some p => rw [write_cell h, write_cell h, String.append_empty]

/-- A tree as a list of characters. -/
def letters (symbols : Symbols) (t : Tree) : List Char :=
  (t.render symbols).toList

/-- The rest of a list as a list of characters. -/
def tailLetters (symbols : Symbols) (t : Tree) : List Char :=
  (write symbols [.tail t] "").toList

/-- The arguments of a compound as a list of characters, a comma before each but the first. -/
def argumentLetters (symbols : Symbols) : List Tree → List Char
  | [] => []
  | t :: ts => letters symbols t ++ ts.flatMap fun t => ',' :: letters symbols t

/-- A piece as a list of characters. -/
def Piece.letters (symbols : Symbols) : Piece → List Char
  | .tree lead t => lead.toList ++ t.letters symbols
  | .tail t => t.tailLetters symbols
  | .text s => s.toList

/-- The pieces are written one after the other. -/
theorem toList_write (ps : List Piece) (out : String) :
    (write symbols ps out).toList = out.toList ++ ps.flatMap (Piece.letters symbols) := by
  have hone : ∀ p, (write symbols [p] "").toList = p.letters symbols
    | .tree lead t => by
      have hlead : "" ++ lead = lead ++ "" := by rw [String.empty_append, String.append_empty]
      rw [write_lead, hlead, ← List.append_nil [Piece.tree "" t], write_append, write, String.toList_append]
      rfl
    | .tail t => rfl
    | .text s => by rw [write, write, String.empty_append]; rfl
  induction ps generalizing out with
  | nil => simp [write]
  | cons p ps ih =>
    rw [← List.singleton_append, ← @String.append_empty out, write_append, ih, String.toList_append, hone,
      List.flatMap_append, List.append_assoc]
    simp

theorem letters_var (v : Var) : letters symbols (.var v) = v.text.toList := by
  simp [letters, render, write]

theorem letters_const (c : Constant) : letters symbols (.const c) = (c.text symbols).toList := by
  simp [letters, render, write]

theorem letters_compound (h : cell? f args = none) : letters symbols (.compound f args) =
    nameChars (symbols.tagName f).toList ++ '(' :: (argumentLetters symbols args ++ [')']) := by
  have hargs : (argumentPieces args).flatMap (Piece.letters symbols) = argumentLetters symbols args := by
    cases args with
    | nil => rfl
    | cons t ts => simp [argumentPieces, argumentLetters, Piece.letters, List.flatMap_map]
  rw [letters, render, write_compound h, toList_write, List.flatMap_append, hargs]
  simp [Piece.letters, quoteName]

theorem letters_cell (h : t.split? = some (head, tail)) :
    letters symbols t = '[' :: (letters symbols head ++ tailLetters symbols tail) := by
  obtain _ | _ | ⟨f, args⟩ := t
  · cases h
  · cases h
  · rw [letters, render, write_cell h, toList_write]
    simp [Piece.letters]

theorem tailLetters_cell (h : t.split? = some (head, tail)) :
    tailLetters symbols t = ',' :: (letters symbols head ++ tailLetters symbols tail) := by
  obtain _ | _ | ⟨f, args⟩ := t
  · cases h
  · cases h
  · rw [tailLetters, write_tail_cell h, toList_write]
    simp [Piece.letters]

theorem tailLetters_nil : tailLetters symbols (.atom .nil) = [']'] := by
  rw [tailLetters, write_tail_nil, write]
  rfl

theorem tailLetters_other (h : t.split? = none) (hnil : t ≠ .atom .nil) :
    tailLetters symbols t = '|' :: (letters symbols t ++ [']']) := by
  rw [tailLetters, write_tail_other h hnil, toList_write]
  simp [Piece.letters]

/-! ### Reading a tree back -/

/-- The tree is made of variables, atoms with known names, exact numbers in their canonical form, and known
functors with as many arguments as they take. -/
inductive Readable (symbols : Symbols) : Tree → Prop
  | var (v : Var) : Readable symbols (.var v)
  | const {c : Constant} (hc : c.Proper symbols) (hlegible : c.isLegible = true) : Readable symbols (.const c)
  | compound {f : Tag} {args : List Tree} (hf : f.index < symbols.tagCount)
    (harity : args.length = symbols.arity f) (hargs : ∀ t ∈ args, Readable symbols t) :
    Readable symbols (.compound f args)

theorem eq_of_split? (h : t.split? = some (head, tail)) : t = .compound .cons [head, tail] := by
  unfold split? cell? at h
  split at h
  · split at h
    · split at h
      · rename_i hf
        obtain ⟨rfl, rfl⟩ := Prod.mk.inj (Option.some.inj h)
        rw [hf]
      · cases h
    · cases h
  · cases h

/-- Head and tail of a list cell that can be read can be read. -/
theorem Readable.parts (ht : t.Readable symbols) (h : t.split? = some (head, tail)) :
    head.Readable symbols ∧ tail.Readable symbols := by
  rw [eq_of_split? h] at ht
  obtain _ | _ | ⟨-, -, hargs⟩ := ht
  exact ⟨hargs _ (.head _), hargs _ (.tail _ (.head _))⟩

/-- The token that a tree that is no list cell begins with. -/
def front (symbols : Symbols) : Tree → List Char
  | .var v => v.text.toList
  | .const c => (c.text symbols).toList
  | .compound f _ => nameChars (symbols.tagName f).toList

/-- What stands behind the first token of a tree that is no list cell. -/
def behind (symbols : Symbols) : Tree → List Char
  | .var _ | .const _ => []
  | .compound _ args => '(' :: (argumentLetters symbols args ++ [')'])

theorem letters_whole (h : t.split? = none) : letters symbols t = front symbols t ++ behind symbols t := by
  obtain v | c | ⟨f, args⟩ := t
  · rw [letters_var, front, behind, List.append_nil]
  · rw [letters_const, front, behind, List.append_nil]
  · rw [letters_compound h, front, behind]

theorem Readable.token_front (ht : t.Readable symbols) : Token (front symbols t) := by
  cases ht with
  | var v => exact .word v.figure_text.toWord
  | const hc hlegible => exact Constant.token_text hlegible hc
  | compound => exact token_nameChars _

/-- No tree begins with a closing bracket. -/
theorem Readable.letters_eq_cons (ht : t.Readable symbols) :
    ∃ c v, letters symbols t = c :: v ∧ c ≠ ')' ∧ c ≠ ']' := by
  cases h : t.split? with
  | none =>
    obtain ⟨c, v, hfront, hround, hsquare, -⟩ := ht.token_front.head
    exact ⟨c, _, by rw [letters_whole h, hfront, List.cons_append], hround, hsquare⟩
  | some p => exact ⟨'[', _, letters_cell h, by decide, by decide⟩

/-- The text is empty or begins with a character that ends a tree. -/
def Closes (r : List Char) : Prop :=
  ∀ c ∈ r.head?, c ∈ [',', '|', ')', ']']

theorem Closes.stops {r : List Char} (h : Closes r) : Stops r := by
  have hstop : [',', '|', ')', ']'].all isStop = true := by decide
  exact fun c hc => List.all_eq_true.mp hstop c (h c hc)

/-- A list goes on with a comma, a bar or its end. -/
theorem closes_tailLetters (symbols : Symbols) (t : Tree) (r : List Char) :
    Closes (tailLetters symbols t ++ r) := by
  cases h : t.split? with
  | some p =>
    rw [tailLetters_cell h]
    rintro c ⟨⟩
    decide
  | none =>
    by_cases hnil : t = .atom .nil
    · rw [hnil, tailLetters_nil]
      rintro c ⟨⟩
      decide
    · rw [tailLetters_other h hnil]
      rintro c ⟨⟩
      decide

/-- The tree is found again in what its text is the beginning of. -/
def Apart (symbols : Symbols) (s : Tree) : Prop :=
  ∀ (t : Tree) (r r' : List Char), t.Readable symbols → Closes r → Closes r' →
    letters symbols s ++ r = letters symbols t ++ r' → s = t ∧ r = r'

/-- The rest of a list is found again in what its text is the beginning of. -/
def TailApart (symbols : Symbols) (s : Tree) : Prop :=
  ∀ (t : Tree) (r r' : List Char), t.Readable symbols →
    tailLetters symbols s ++ r = tailLetters symbols t ++ r' → s = t ∧ r = r'

theorem flatMap_letters_inj {ss : List Tree} (hss : ∀ s ∈ ss, Apart symbols s) :
    ∀ {ts : List Tree} {r r' : List Char}, (∀ t ∈ ts, t.Readable symbols) →
      (ss.flatMap fun s => ',' :: letters symbols s) ++ ')' :: r =
        (ts.flatMap fun t => ',' :: letters symbols t) ++ ')' :: r' → ss = ts ∧ r = r' := by
  have hcloses (ts : List Tree) (r : List Char) :
      Closes ((ts.flatMap fun t => ',' :: letters symbols t) ++ ')' :: r) := by
    cases ts with
    | nil => rintro c ⟨⟩; decide
    | cons t ts => rintro c ⟨⟩; decide
  induction ss with
  | nil =>
    rintro (_ | ⟨t, ts⟩) r r' hts h
    · exact ⟨rfl, (List.cons.inj h).2⟩
    · cases (List.cons.inj h).1
  | cons s ss ih =>
    rintro (_ | ⟨t, ts⟩) r r' hts h
    · cases (List.cons.inj h).1
    · rw [List.flatMap_cons, List.flatMap_cons, List.cons_append, List.cons_append, List.cons_append,
        List.cons_append, List.append_assoc, List.append_assoc] at h
      obtain ⟨rfl, hrest⟩ := hss s (.head _) t _ _ (hts t (.head _)) (hcloses ss r) (hcloses ts r')
        (List.cons.inj h).2
      obtain ⟨rfl, rfl⟩ := ih (fun s hs => hss s (.tail _ hs)) (fun t ht => hts t (.tail _ ht)) hrest
      exact ⟨rfl, rfl⟩

theorem argumentLetters_inj {ss ts : List Tree} {r r' : List Char} (hss : ∀ s ∈ ss, Apart symbols s)
    (hss' : ∀ s ∈ ss, s.Readable symbols) (hts : ∀ t ∈ ts, t.Readable symbols)
    (h : argumentLetters symbols ss ++ ')' :: r = argumentLetters symbols ts ++ ')' :: r') :
    ss = ts ∧ r = r' := by
  have hne {t : Tree} {v w : List Char} (ht : t.Readable symbols) : ')' :: v ≠ letters symbols t ++ w := by
    obtain ⟨c, cs, hcs, hround, -⟩ := ht.letters_eq_cons
    rw [hcs]
    exact fun h => hround (List.cons.inj h).1.symm
  cases ss with
  | nil =>
    cases ts with
    | nil => exact ⟨rfl, (List.cons.inj h).2⟩
    | cons t ts =>
      rw [argumentLetters, argumentLetters, List.append_assoc] at h
      exact absurd h (hne (hts t (.head _)))
  | cons s ss =>
    cases ts with
    | nil =>
      rw [argumentLetters, argumentLetters, List.append_assoc] at h
      exact absurd h.symm (hne (hss' s (.head _)))
    | cons t ts =>
      -- with a comma before the first argument as well, all of them are alike
      refine flatMap_letters_inj hss hts ?_
      rw [List.flatMap_cons, List.flatMap_cons]
      exact congrArg (',' :: ·) h

/-- A list does not begin like a tree that is none. -/
theorem front_append_ne (hs : s.Readable symbols) (hhead : head.Readable symbols) (r r' : List Char) :
    front symbols s ++ r ≠ '[' :: (letters symbols head ++ r') := by
  obtain ⟨c, v, hfront, -, -, hbrackets⟩ := hs.token_front.head
  obtain ⟨d, w, hletters, -, hsquare⟩ := hhead.letters_eq_cons
  rw [hfront, hletters]
  intro h
  obtain ⟨rfl, hrest⟩ := List.cons.inj h
  rw [hbrackets rfl] at hrest
  exact hsquare (List.cons.inj hrest).1.symm

/-- A list is read back element by element. -/
theorem cell_inj {head' tail' : Tree} {r r' : List Char} (hhead : Apart symbols head)
    (htail : TailApart symbols tail) (ht : t.Readable symbols) (h : s.split? = some (head, tail))
    (h' : t.split? = some (head', tail'))
    (heq : letters symbols head ++ tailLetters symbols tail ++ r =
      letters symbols head' ++ tailLetters symbols tail' ++ r') : s = t ∧ r = r' := by
  rw [List.append_assoc, List.append_assoc] at heq
  obtain ⟨hhead', htail'⟩ := ht.parts h'
  obtain ⟨rfl, hrest⟩ := hhead head' _ _ hhead' (closes_tailLetters symbols tail r)
    (closes_tailLetters symbols tail' r') heq
  obtain ⟨rfl, rfl⟩ := htail tail' r r' htail' hrest
  exact ⟨by rw [eq_of_split? h, eq_of_split? h'], rfl⟩

theorem apart_of_cell (h : s.split? = some (head, tail)) (hs : s.Readable symbols)
    (hhead : Apart symbols head) (htail : TailApart symbols tail) : Apart symbols s := by
  intro t r r' ht hr hr' heq
  rw [letters_cell h, List.cons_append] at heq
  cases h' : t.split? with
  | none =>
    rw [letters_whole h', List.append_assoc, List.append_assoc] at heq
    exact absurd heq.symm (front_append_ne ht (hs.parts h).1 _ _)
  | some p =>
    rw [letters_cell h', List.cons_append] at heq
    exact cell_inj hhead htail ht h h' (List.cons.inj heq).2

theorem apart_of_whole (hsymbols : symbols.Distinct) (h : s.split? = none) (hs : s.Readable symbols)
    (hargs : ∀ f args, s = .compound f args → ∀ a ∈ args, Apart symbols a) : Apart symbols s := by
  intro t r r' ht hr hr' heq
  rw [letters_whole h, List.append_assoc] at heq
  cases h' : t.split? with
  | some p =>
    rw [letters_cell h', List.cons_append, List.append_assoc] at heq
    exact absurd heq (front_append_ne hs (ht.parts h').1 _ _)
  | none =>
    rw [letters_whole h', List.append_assoc] at heq
    have hstops {t : Tree} {r : List Char} (hr : Closes r) : Stops (behind symbols t ++ r) := by
      cases t with
      | compound => rintro c ⟨⟩; rfl
      | _ => exact hr.stops
    obtain ⟨hfront, hbehind⟩ := hs.token_front.append_inj ht.token_front (hstops hr) (hstops hr') heq
    have hopen {r w : List Char} (hr : Closes r) : r ≠ '(' :: w := by
      rintro rfl
      have := hr '(' rfl
      simp at this
    cases hs with
    | var v =>
      cases ht with
      | var w => exact ⟨by rw [Var.text_injective (String.toList_injective hfront)], hbehind⟩
      | const hd hlegible => exact absurd hfront (Constant.text_ne_var hlegible hd v)
      | compound => exact absurd hfront v.figure_text.ne_nameChars
    | const hc hlegible =>
      cases ht with
      | var w => exact absurd hfront.symm (Constant.text_ne_var hlegible hc w)
      | const hd hlegible' =>
        exact ⟨by rw [Constant.eq_of_text hsymbols hc hd hlegible hlegible' hfront], hbehind⟩
      | compound => exact absurd hbehind (hopen hr)
    | @compound f ss hf hss hss' =>
      cases ht with
      | var w => exact absurd hfront.symm w.figure_text.ne_nameChars
      | const => exact absurd hbehind.symm (hopen hr')
      | @compound g ts hg hts hts' =>
        have hname := String.toList_injective (nameChars_injective hfront)
        rw [behind, behind, List.cons_append, List.cons_append, List.append_assoc, List.append_assoc]
          at hbehind
        obtain ⟨rfl, rfl⟩ := argumentLetters_inj (hargs f ss rfl) hss' hts' (List.cons.inj hbehind).2
        exact ⟨by rw [hsymbols.tag_eq hf hg (hss.symm.trans hts) hname], rfl⟩

/-- The rest of a list tells by its first character whether there is another element, and whether what is
left is the empty list. -/
theorem tailApart_of_apart (hapart : Apart symbols s)
    (hparts : ∀ head tail, s.split? = some (head, tail) → Apart symbols head ∧ TailApart symbols tail) :
    TailApart symbols s := by
  have hcases (t : Tree) : (∃ head tail, t.split? = some (head, tail) ∧
      tailLetters symbols t = ',' :: (letters symbols head ++ tailLetters symbols tail)) ∨
      (t = .atom .nil ∧ tailLetters symbols t = [']']) ∨
      tailLetters symbols t = '|' :: (letters symbols t ++ [']']) := by
    cases h : t.split? with
    | some p => exact .inl ⟨p.1, p.2, rfl, tailLetters_cell h⟩
    | none =>
      by_cases hnil : t = .atom .nil
      · exact .inr (.inl ⟨hnil, hnil ▸ tailLetters_nil⟩)
      · exact .inr (.inr (tailLetters_other h hnil))
  have hend (r : List Char) : Closes (']' :: r) := by rintro c ⟨⟩; decide
  intro t r r' ht heq
  obtain ⟨head, tail, h, hletters⟩ | ⟨hnil, hletters⟩ | hletters := hcases s
  all_goals
    rw [hletters] at heq
    obtain ⟨head', tail', h', hletters'⟩ | ⟨hnil', hletters'⟩ | hletters' := hcases t
    all_goals rw [hletters', List.cons_append, List.cons_append] at heq
  · obtain ⟨hhead, htail⟩ := hparts head tail h
    exact cell_inj hhead htail ht h h' (List.cons.inj heq).2
  · cases (List.cons.inj heq).1
  · cases (List.cons.inj heq).1
  · cases (List.cons.inj heq).1
  · exact ⟨hnil.trans hnil'.symm, (List.cons.inj heq).2⟩
  · cases (List.cons.inj heq).1
  · cases (List.cons.inj heq).1
  · cases (List.cons.inj heq).1
  · rw [List.append_assoc, List.append_assoc] at heq
    obtain ⟨rfl, hrest⟩ := hapart t _ _ ht (hend r) (hend r') (List.cons.inj heq).2
    exact ⟨rfl, (List.cons.inj hrest).2⟩

/-- Every tree that can be read is found again in what its text is the beginning of. -/
theorem Readable.apart (hsymbols : symbols.Distinct) (hs : s.Readable symbols) :
    Apart symbols s ∧ TailApart symbols s := by
  induction hs with
  | var v =>
    have hs : (Tree.var v).Readable symbols := .var v
    have hapart := apart_of_whole hsymbols rfl hs (by rintro f args ⟨⟩)
    exact ⟨hapart, tailApart_of_apart hapart (by rintro head tail ⟨⟩)⟩
  | const hc hlegible =>
    have hapart := apart_of_whole hsymbols rfl (.const hc hlegible) (by rintro f args ⟨⟩)
    exact ⟨hapart, tailApart_of_apart hapart (by rintro head tail ⟨⟩)⟩
  | @compound f args hf harity hargs ih =>
    have hs : (Tree.compound f args).Readable symbols := .compound hf harity hargs
    cases h : (Tree.compound f args).split? with
    | none =>
      have hapart := apart_of_whole hsymbols h hs (by rintro _ _ ⟨⟩ a ha; exact (ih a ha).1)
      exact ⟨hapart, tailApart_of_apart hapart (by simp [h])⟩
    | some p =>
      obtain ⟨head, tail⟩ := p
      obtain ⟨rfl, rfl⟩ := Tree.compound.inj (eq_of_split? h)
      obtain ⟨hhead, htail⟩ : Apart symbols head ∧ TailApart symbols tail :=
        ⟨(ih _ (.head _)).1, (ih _ (.tail _ (.head _))).2⟩
      have hapart := apart_of_cell h hs hhead htail
      exact ⟨hapart, tailApart_of_apart hapart (by rintro _ _ ⟨⟩; exact ⟨hhead, htail⟩)⟩

/-- Trees that can be read are written alike only if they are the same. -/
theorem render_inj (hsymbols : symbols.Distinct) (hs : s.Readable symbols) (ht : t.Readable symbols) :
    s.render symbols = t.render symbols ↔ s = t := by
  refine ⟨fun h => ?_, fun h => h ▸ rfl⟩
  have hnil : Closes [] := by rintro c ⟨⟩
  exact ((hs.apart hsymbols).1 t [] [] ht hnil hnil (congrArg (String.toList · ++ []) h)).1

end Tree

/-! ### Terms -/

namespace Store

variable {σ : Store} {t : Term} {u : Tree}

/-- The bindings read in a term that denotes a tree come to an end. -/
theorem Denotes.acc (h : σ.Denotes t u) : ∀ v, t.Occurs v → Acc (flip σ.Mentions) v := by
  induction h with
  | bound hv _ ih =>
    rintro _ ⟨⟩
    refine ⟨_, fun w ⟨t', hv', hw⟩ => ih w ?_⟩
    rw [hv] at hv'
    cases hv'
    exact hw
  | unbound hv =>
    rintro _ ⟨⟩
    exact ⟨_, fun w ⟨t, hv', _⟩ => by rw [hv] at hv'; cases hv'⟩
  | const => rintro _ ⟨⟩
  | compound _ _ ih =>
    rintro v (_ | ⟨hmem, hv⟩)
    exact ih _ hmem v hv

/-- As many bindings are read as there are variables, and that is enough: what a term denotes is what is
read, whatever circles there are elsewhere. -/
theorem Denotes.resolve_eq (h : σ.Denotes t u) : σ.resolve t = u := by
  obtain ⟨rank, hle, hpos, hlt⟩ := σ.exists_rank_of_acc
  have hread : ∀ n, Covers rank n t → σ.treeWithin n t = u := by
    induction h with
    | @bound v t u hv ht ih =>
      intro n hn
      have hle := hn v .var
      have hpos := hpos v (by rw [hv]; exact Option.some_ne_none t)
      obtain ⟨k, rfl⟩ : ∃ k, n = k + 1 := ⟨n - 1, by omega⟩
      rw [treeWithin, hv]
      refine ih k fun w hw => ?_
      have := hlt v w ((Denotes.bound hv ht).acc v .var) ⟨t, hv, hw⟩
      omega
    | unbound hv => exact fun n _ => treeWithin_unbound hv n
    | const c => exact fun n _ => by rw [treeWithin]
    | compound f _ ih =>
      intro n hn
      rw [treeWithin, treesWithin_eq_map]
      congr 1
      exact List.map_congr_left fun t hmem => ih t hmem n fun w hw => hn w (.compound hmem hw)
  rw [resolve_eq_treeWithin]
  exact hread _ fun v _ => hle v

/-- A compound denotes what its arguments denote, under the same functor. -/
theorem denotes_compound {args : List Term} {us : List Tree} (h : List.Forall₂ σ.Denotes args us)
    (stamp : Nat) (f : Tag) : σ.Denotes (.compound stamp f args) (.compound f us) := by
  have hmap : us = args.map σ.resolve ∧ ∀ t ∈ args, σ.Denotes t (σ.resolve t) := by
    induction h with
    | nil => exact ⟨rfl, by simp⟩
    | cons ht _ ih =>
      rw [List.map_cons, List.forall_mem_cons, ht.resolve_eq, ← ih.1]
      exact ⟨rfl, ht, ih.2⟩
  rw [hmap.1]
  exact .compound σ.resolve hmap.2

end Store

/-- Two terms that denote trees of variables, atoms and exact numbers are written alike exactly if they
denote the same tree: no comma, bracket or quote in a name is taken for one of the notation. -/
theorem Universe.render_unambiguous {u : Universe} {s t : Term} {S T : Tree} (hsymbols : u.symbols.Entered)
    (hs : u.store.Denotes s S) (ht : u.store.Denotes t T) (hS : S.Readable u.symbols)
    (hT : T.Readable u.symbols) : u.render s = u.render t ↔ S = T := by
  rw [render, render, hs.resolve_eq, ht.resolve_eq]
  exact Tree.render_inj hsymbols.distinct hS hT

/-- A list of a comma and a negative number, which is read through a variable, and an atom whose name is the
text of that list. -/
theorem Universe.render_unambiguous_list :
    let symbols := (Symbols.initial.intern "[,,-1]").2
    let u : Universe := ⟨symbols, ⟨#[some (.const (.int (-1)))], 2⟩⟩
    u.render (.compound 0 .cons [.atom ⟨13⟩, .compound 1 .cons [.var ⟨0⟩, .atom .nil]]) =
        u.render (.atom ⟨25⟩) ↔
      Tree.compound .cons [.atom ⟨13⟩, .compound .cons [.const (.int (-1)), .atom .nil]] = .atom ⟨25⟩ := by
  intro symbols u
  have hsymbols : symbols.Entered := Symbols.entered_initial.intern "[,,-1]"
  have hcount : symbols.atomCount = 26 := by decide +kernel
  have hcons : Tag.cons.index < symbols.tagCount := by decide +kernel
  have harity : symbols.arity .cons = 2 := by decide +kernel
  -- nothing else of the table matters
  clear_value symbols
  have hatom (i : Nat) (hi : i < 26) : (Tree.atom ⟨i⟩).Readable symbols :=
    .const ⟨by rintro _ ⟨⟩; rw [hcount]; exact hi, by rintro _ ⟨⟩⟩ rfl
  have hint : (Tree.const (.int (-1))).Readable symbols := by
    refine .const ⟨by rintro _ ⟨⟩, fun q hq => ?_⟩ rfl
    obtain rfl := Option.some.inj hq
    rw [Constant.ofRat_intCast, Constant.ofInt_toInt]
  have hcell (S T : Tree) (hS : S.Readable symbols) (hT : T.Readable symbols) :
      (Tree.compound .cons [S, T]).Readable symbols :=
    .compound hcons harity.symm (by simpa using ⟨hS, hT⟩)
  have hitem : u.store.Denotes (.var ⟨0⟩) (.const (.int (-1))) := .bound rfl (.const _)
  have hrest : u.store.Denotes (.compound 1 .cons [.var ⟨0⟩, .atom .nil])
      (.compound .cons [.const (.int (-1)), .atom .nil]) :=
    Store.denotes_compound (.cons hitem (.cons (.const _) .nil)) _ _
  exact Universe.render_unambiguous hsymbols
    (Store.denotes_compound (.cons (.const _) (.cons hrest .nil)) _ _) (.const _)
    (hcell _ _ (hatom 13 (by decide)) (hcell _ _ hint (hatom 1 (by decide)))) (hatom 25 (by decide))

end Resolvent
