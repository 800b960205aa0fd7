import Resolvent.Text.Alphanumeric
import Resolvent.Text.Hidden
import Resolvent.Text.Lowercase

/-!
# Quoted text

An atom is written bare if its name is a word that starts with a lowercase letter, one of a few
names of punctuation, or made of symbol characters only; any other name is put in single quotes. A
text for diagnosis is put in double quotes, and characters that do not show are written by number.
-/

namespace Resolvent

namespace Text

/-- The characters that symbolic names are made of. -/
def symbolChars : List Char := "+-*/\\^<>=~:.?@#&$".toList

/-- Whether a name needs no quotes. -/
def isBare (name : List Char) : Bool :=
  match name with
  | [] => false
  | c :: _ =>
    if isLowercase c then name.all fun c => isAlphanumeric c || c = '_'
    else name ∈ [['[', ']'], ['!'], [';'], [','], ['{', '}']] || name.all (· ∈ symbolChars)

/-- A character as it stands between single quotes. -/
def escapeQuoted (c : Char) : List Char :=
  if c = '\\' ∨ c = '\'' then ['\\', c] else [c]

/-- A name as it is written in a term. -/
def nameChars (name : List Char) : List Char :=
  if isBare name then name else '\'' :: (name.flatMap escapeQuoted ++ ['\''])

/-- A name as it is written in a term. -/
def quoteName (name : String) : String :=
  String.ofList (nameChars name.toList)

/-- A character as it stands between double quotes. -/
def escapeShown (c : Char) : List Char :=
  if c = '"' ∨ c = '\\' then ['\\', c]
  else if c = '\n' then ['\\', 'n']
  else if c = '\r' then ['\\', 'r']
  else if c = '\t' then ['\\', 't']
  else if c.toNat = 0 then ['\\', '0']
  else if isHidden c then '\\' :: 'u' :: '\x7b' :: (Nat.toDigits 16 c.toNat ++ ['\x7d'])
  else [c]

/-- A text in double quotes, with nothing hidden in it. -/
def quoteShown (text : String) : String :=
  String.ofList ('"' :: (text.toList.flatMap escapeShown ++ ['"']))

example : quoteName "foo_Bar1" = "foo_Bar1" ∧ quoteName "=.." = "=.." ∧ quoteName "[]" = "[]" ∧
    quoteName "Hello" = "'Hello'" ∧ quoteName "" = "''" ∧ quoteName "a'b\\" = "'a\\'b\\\\'" := by
  decide +kernel

end Text

end Resolvent
