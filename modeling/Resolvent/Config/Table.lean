/-!
# Tables of a configuration document

A document consists of tables, which give names to values; a value can be a table in turn, or a list
of tables. A table can be entered in four ways: by a line with its name, by the name of a table in
it, by a key with dots, or in braces. How it was entered decides where it may be extended:

* a line may open a table that has only been implied so far, and one inside any table but those in
  braces;
* a key with dots may extend tables that were entered by such keys, and pass through implied ones;
* nothing is named twice.

`Table.addEntry?` and `Table.openTable?` refuse what these rules do not allow.
-/

namespace Resolvent

namespace Config

/-- How a table was entered. -/
inductive Origin where
  /-- By a line with its name. -/
  | header
  /-- By the name of a table in it. -/
  | implied
  /-- By a key with dots. -/
  | dotted
  /-- In braces. -/
  | braces
deriving DecidableEq

/-- A value in a document. -/
inductive Value where
  /-- A text. -/
  | text (s : String)
  /-- An integer. -/
  | integer (n : Int)
  /-- A truth value. -/
  | boolean (b : Bool)
  /-- A float or a moment; nothing in a configuration is one. -/
  | other
  /-- A list in brackets. -/
  | list (isEmpty : Bool)
  /-- A table with its names and values, latest first. -/
  | table (origin : Origin) (fields : List (String × Value))
  /-- A list of tables opened by lines; only the last one can still be extended. -/
  | tables (last : List (String × Value))

/-- Whether a value is a list or a table without anything in it. -/
def Value.isEmpty : Value → Bool
  | .list isEmpty => isEmpty
  | .table _ fields => fields.isEmpty
  | _ => false

/-- The names and values of a table, latest first. -/
abbrev Fields := List (String × Value)

namespace Table

/-- Whether a table that was entered in one way may be passed through in another. -/
def canPass (entered passed : Origin) : Bool :=
  match entered, passed with
  | .braces, _ => false
  | .header, .dotted => false
  | _, _ => true

/-- A table with the value of one name replaced. -/
def put (name : String) (v : Value) (fields : Fields) : Fields :=
  (name, v) :: fields.filter (·.1 ≠ name)

/-- Changes the table that a path leads to from a table that was entered as `here` says. Tables on
the way that are not there yet are entered as `way` says. -/
def changeAt (way : Origin) (f : Origin → Fields → Option Fields) :
    List String → Origin → Fields → Option Fields
  | [], here, fields => f here fields
  | name :: path, _, fields =>
    match fields.lookup name with
    | none => (changeAt way f path way []).map fun inner => put name (.table way inner) fields
    | some (.table origin inner) =>
      if canPass origin way then
        (changeAt way f path origin inner).map fun inner => put name (.table origin inner) fields
      else none
    | some (.tables last) =>
      (changeAt way f path .header last).map fun last => put name (.tables last) fields
    | some _ => none

/-- Gives a value to a key, the parts of which are `path` and `name`. -/
def addEntry? (path : List String) (name : String) (v : Value) (fields : Fields) : Option Fields :=
  changeAt .dotted
    (fun here fields =>
      if (path.isEmpty || here = .dotted) && (fields.lookup name).isNone then
        some (put name v fields)
      else none)
    path .header fields

/-- Opens a table by a line with its name, the parts of which are `path` and `name`. -/
def openTable? (path : List String) (name : String) (fields : Fields) : Option Fields :=
  changeAt .implied
    (fun _ fields =>
      match fields.lookup name with
      | none => some (put name (.table .header []) fields)
      | some (.table .implied inner) => some (put name (.table .header inner) fields)
      | some _ => none)
    path .header fields

/-- Opens one more table of a list of tables. -/
def openListed? (path : List String) (name : String) (fields : Fields) : Option Fields :=
  changeAt .implied
    (fun _ fields =>
      match fields.lookup name with
      | none | some (.tables _) => some (put name (.tables []) fields)
      | some _ => none)
    path .header fields

end Table

end Config

end Resolvent
