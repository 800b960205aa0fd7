import Resolvent.Text.Render

/-!
# Exceptions

An exception carries a term, its ball, that no later binding can change. The errors of the engine
are exceptions with a ball `error(Formal, Context)`, where `Formal` names the error and what it
concerns; `ErrorKind` lists them.
-/

namespace Resolvent

/-- A thrown term. -/
structure Exception where
  /-- The term, a copy made when it was thrown. -/
  ball : Term

/-- The errors that the engine raises. -/
inductive ErrorKind where
  /-- A variable where something else is needed. -/
  | instantiation
  /-- A culprit that is not of the expected type. -/
  | type (expected : String) (culprit : Term)
  /-- A culprit of the right type outside the domain. -/
  | domain (domain : String) (culprit : Term)
  /-- A value that cannot be represented. -/
  | representation (flag : String)
  /-- Something that does not exist. -/
  | existence (kind : String) (culprit : Term)
  /-- Something that must not be done. -/
  | permission (action kind : String) (culprit : Term)
  /-- A value that cannot be computed. -/
  | evaluation (error : String)
  /-- Something of which there is not enough. -/
  | resource (resource : String)
  /-- A fault of the engine. -/
  | system (message : String)

/-- The error of a name, with the words and the culprit that belong to it. -/
def ErrorKind.ofName? (name : String) (words : List String) (culprit : Term) : Option ErrorKind :=
  match name, words with
  | "instantiation_error", _ => some .instantiation
  | "type_error", [a] => some (.type a culprit)
  | "domain_error", [a] => some (.domain a culprit)
  | "representation_error", [a] => some (.representation a)
  | "existence_error", [a] => some (.existence a culprit)
  | "permission_error", [a, b] => some (.permission a b culprit)
  | "evaluation_error", [a] => some (.evaluation a)
  | "resource_error", [a] => some (.resource a)
  | "system_error", [a] => some (.system a)
  | _, _ => none

namespace Exception

/-- Throws a term: the ball is a copy of it. -/
def ofTerm (t : Term) : StateM Universe Exception := do
  return ⟨← Universe.copy t⟩

/-- The term `name(word, ..., culprit)`, its words entered into the symbols first. -/
def formalTerm (name : String) (words : List String) (culprit : Option Term) :
    StateM Universe Term := do
  let words ← words.mapM fun word => return Term.atom (← Universe.atom word)
  let args := words ++ culprit.toList
  Universe.compound (← Universe.tagNamed name args.length) args

/-- The formal term of an error. -/
def formalOf : ErrorKind → StateM Universe Term
  | .instantiation => return .atom (← Universe.atom "instantiation_error")
  | .type expected culprit => formalTerm "type_error" [expected] culprit
  | .domain domain culprit => formalTerm "domain_error" [domain] culprit
  | .representation flag => formalTerm "representation_error" [flag] none
  | .existence kind culprit => formalTerm "existence_error" [kind] culprit
  | .permission action kind culprit => formalTerm "permission_error" [action, kind] culprit
  | .evaluation error => formalTerm "evaluation_error" [error] none
  | .resource resource => formalTerm "resource_error" [resource] none
  | .system message => formalTerm "system_error" [message] none

/-- Raises an error: its ball is `error(Formal, Context)` with an unbound context. -/
def ofError (e : ErrorKind) : StateM Universe Exception := do
  let formal ← formalOf e
  let context ← Universe.fresh
  ofTerm (← Universe.compound .error [formal, .var context])

/-- The indicator `Name/Arity` of a predicate. -/
def indicatorTerm (tag : Tag) : StateM Universe Term := do
  let (name, arity) := (← get).symbols.parts tag
  Universe.compound .slash [.atom name, .int (Int64.ofNat arity)]

/-- The error of a call to a predicate that does not exist. -/
def unknownProcedure (tag : Tag) : StateM Universe Exception := do
  ofError (.existence "procedure" (← indicatorTerm tag))

/-- The formal term of an exception, if its ball is that of an error. -/
def formal? (u : Universe) (e : Exception) : Option Term :=
  match u.store.deref e.ball with
  | .compound _ tag (formal :: _) => if tag = .error then some formal else none
  | _ => none

/-- The name of the formal term of an exception. -/
def kind? (u : Universe) (e : Exception) : Option String :=
  (formal? u e).bind fun formal =>
    match u.store.deref formal with
    | .const (.atom a) => some (u.symbols.name a)
    | .compound _ tag _ => some (u.symbols.tagName tag)
    | _ => none

/-- What is reported of an exception that nothing has caught. -/
def message (u : Universe) (e : Exception) : String :=
  "Uncaught exception: " ++ u.render e.ball

end Exception

end Resolvent
