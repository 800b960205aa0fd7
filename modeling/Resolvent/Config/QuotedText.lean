import Resolvent.Config.Scalar

/-!
# Texts in quotes

A text stands between single or double quotes on one line, or between three of them on any number
of lines. Between double quotes a backslash introduces a character that is not written as itself; at
the end of a line it joins the line to the next character that is not blank.
-/

namespace Resolvent

namespace Config.QuotedText

/-- How a text stands in quotes. -/
structure Quoting where
  /-- The quote. -/
  quote : Char
  /-- Whether there are three quotes on each side, so that the text may have several lines. -/
  isLong : Bool

/-- Whether a character may stand for itself in a text or a comment. -/
def isPlain (c : Char) : Bool :=
  c = '\t' || (0x20 ≤ c.toNat && c.toNat ≠ 0x7f)

/-- The rest of a line behind its blanks. -/
def skipBlanks (cs : List Char) : List Char :=
  cs.dropWhile fun c => c = ' ' || c = '\t'

/-- The text behind the end of a line, if that stands first. -/
def behindBreak? : List Char → Option (List Char)
  | '\n' :: cs => some cs
  | '\r' :: '\n' :: cs => some cs
  | _ => none

/-- The character with the number that `n` hexadecimal digits write. -/
def numbered? (n : Nat) (cs : List Char) : Option Char :=
  if cs.length < n then none
  else
    match (cs.take n).foldlM (fun m c => (Scalar.digit? 16 c).map (16 * m + ·)) 0 with
    | some m => if m.isValidChar then some (Char.ofNat m) else none
    | none => none

/-- The character that stands behind a backslash, and how many characters write it. -/
def escaped? : List Char → Option (Char × Nat)
  | [] => none
  | 'u' :: cs => (numbered? 4 cs).map (·, 5)
  | 'U' :: cs => (numbered? 8 cs).map (·, 9)
  | c :: _ =>
    ([('b', '\x08'), ('t', '\t'), ('n', '\n'), ('f', '\x0c'), ('r', '\r'), ('"', '"'),
      ('\\', '\\')].lookup c).map (·, 1)

/-- Reads a text up to its end, `found` being what has been read of it, last character first. While
`joining`, blanks and ends of lines are skipped. -/
def readFrom (q : Quoting) (joining : Bool) (cs found : List Char) :
    Option (String × List Char) :=
  match cs with
  | [] => none
  | c :: cs =>
    if q.isLong && c = '\r' && cs.head? = some '\n' then readFrom q joining cs found
    else if q.isLong && c = '\n' then readFrom q joining cs (if joining then found else c :: found)
    else if joining && (c = ' ' || c = '\t') then readFrom q joining cs found
    else if c = q.quote then
      if !q.isLong then some (String.ofList found.reverse, cs)
      else if cs.take 2 = [c, c] then
        let more := ((cs.drop 2).take 2).takeWhile (· = c)
        some (String.ofList (found.reverse ++ more), cs.drop (2 + more.length))
      else readFrom q false cs (c :: found)
    else if q.quote = '"' && c = '\\' then
      if q.isLong && (behindBreak? (skipBlanks cs)).isSome then readFrom q true cs found
      else
        match escaped? cs with
        | some (e, n) => readFrom q false (cs.drop n) (e :: found)
        | none => none
    else if isPlain c then readFrom q false cs (c :: found)
    else none
termination_by cs.length

/-- Reads a text on one line, from its opening quote. -/
def readShort? : List Char → Option (String × List Char)
  | [] => none
  | quote :: cs => readFrom ⟨quote, false⟩ false cs []

/-- Reads a text, from its opening quotes. The end of a line behind three of them does not belong
to it. -/
def read? : List Char → Option (String × List Char)
  | [] => none
  | quote :: cs =>
    if cs.take 2 = [quote, quote] then
      readFrom ⟨quote, true⟩ false ((behindBreak? (cs.drop 2)).getD (cs.drop 2)) []
    else readFrom ⟨quote, false⟩ false cs []

end Config.QuotedText

end Resolvent
