import Resolvent.Chunk.Assemble
import Resolvent.Chunk.Listing
import Resolvent.Choice
import Resolvent.CodeCache
import Resolvent.Config

/-!
# The database

A `Database` says how every predicate is given: by clauses in order, or natively. The predicates of
the control constructs are given by neither and cannot be changed.

Every change starts a new generation, makes the changed predicate lose its compiled code, and is
entered into the journal once for every listener. What a call leads to is found by
`Database.resolve`, which compiles clauses when they are first called.
-/

namespace Resolvent

/-- How a predicate is given. -/
inductive Predicate where
  /-- By clauses, tried in order. -/
  | clauses (cs : List Clause)
  /-- Natively. -/
  | native (n : Native)

/-- A change of the database. -/
inductive Change where
  /-- The clauses of a predicate changed. -/
  | clauses (tag : Tag)
  /-- A predicate is now given natively. -/
  | native (tag : Tag)
  /-- A predicate is not given any more. -/
  | abolished (tag : Tag)
  /-- What holds for all predicates changed. -/
  | flags
deriving DecidableEq

/-- The predicate that a change concerns. -/
def Change.tag? : Change → Option Tag
  | clauses tag | native tag | abolished tag => some tag
  | flags => none

/-- What is reported of a change. -/
def Change.message (symbols : Symbols) : Change → String
  | clauses tag => "clauses " ++ symbols.indicator tag
  | native tag => "native " ++ symbols.indicator tag
  | abolished tag => "abolished " ++ symbols.indicator tag
  | flags => "flags"

/-- An entry of the journal. -/
inductive Event where
  /-- A listener was told of a change. -/
  | change (c : Change)
  /-- Something was noted. -/
  | note (text : String)

/-- An entry of the journal as text. -/
def Event.message (symbols : Symbols) : Event → String
  | change c => c.message symbols
  | note text => text

/-- What a call of a tag leads to. -/
inductive Resolved where
  /-- A callee. -/
  | callee (c : Callee)
  /-- A control construct. -/
  | control
  /-- Nothing: the predicate is not given. -/
  | undefined

/-- What a call leads to, for diagnosis. -/
def Resolved.inspect : Resolved → String
  | callee c => c.inspect
  | control => "Control"
  | undefined => "Undefined"

/-- The predicates, and the symbols and bindings that all engines over them share. -/
structure Database where
  /-- The symbols and bindings. -/
  terms : Universe
  /-- The predicates that are given, by the numbers of their tags. -/
  predicates : Std.TreeMap Nat Predicate
  /-- The compiled code of predicates. -/
  codeCache : CodeCache
  /-- The call sites of all loaded code, each with the tag that is called there. -/
  sites : Array (Tag × CallSite)
  /-- How many changes there have been. -/
  generation : Nat
  /-- What a call of an unknown predicate does, if that is not left to the engines. -/
  unknown : Option UnknownPolicy
  /-- How many listeners are told of changes. -/
  listeners : Nat
  /-- What has been told and noted, the latest last. -/
  journal : Array Event

/-- A step that looks at the database and may change it or raise an exception. -/
abbrev DatabaseM := EStateM Exception Database

namespace Database

/-- The database in which no predicate is given. -/
def empty : Database := ⟨.initial, ∅, .empty, #[], 0, none, 0, #[]⟩

/-- A step on the symbols and bindings. -/
@[inline] def onTerms {α : Type} (step : StateM Universe α) : DatabaseM α :=
  fun ⟨terms, predicates, codeCache, sites, generation, unknown, listeners, journal⟩ =>
    let (a, terms) := step terms
    .ok a ⟨terms, predicates, codeCache, sites, generation, unknown, listeners, journal⟩

instance : MonadLift (StateM Universe) DatabaseM := ⟨onTerms⟩

/-- Raises an error. -/
def raise {α : Type} (e : ErrorKind) : DatabaseM α := do
  throw (← onTerms (Exception.ofError e))

/-- A step of a compilation; for its error, the one that `kind` gives is raised. -/
def compile {α : Type} (step : EStateM CompileError Universe α)
    (kind : CompileError → ErrorKind := CompileError.kind) : DatabaseM α :=
  fun ⟨terms, predicates, codeCache, sites, generation, unknown, listeners, journal⟩ =>
    match step terms with
    | .ok a terms =>
      .ok a ⟨terms, predicates, codeCache, sites, generation, unknown, listeners, journal⟩
    | .error e terms =>
      let (e, terms) := Exception.ofError (kind e) terms
      .error e ⟨terms, predicates, codeCache, sites, generation, unknown, listeners, journal⟩

/-- Enters a text into the journal. -/
def note (text : String) : DatabaseM Unit :=
  modify fun db => { db with journal := db.journal.push (.note text) }

/-! ### Changes -/

/-- A change has been made. -/
def changed (c : Change) : DatabaseM Unit :=
  modify fun db => { db with
    generation := db.generation + 1
    codeCache := match c.tag? with
      | some tag => (db.codeCache.evict tag).2
      | none => db.codeCache
    journal := db.journal ++ Array.replicate db.listeners (.change c) }

/-- Says how a predicate is given. -/
def setPredicate (tag : Tag) (p : Predicate) : DatabaseM Unit :=
  modify fun db => { db with predicates := db.predicates.insert tag.index p }

/-- The clauses of a predicate, if it is given by clauses. -/
def clauses? (db : Database) (tag : Tag) : Option (List Clause) :=
  match db.predicates[tag.index]? with
  | some (.clauses cs) => some cs
  | _ => none

/-- Whether a predicate is given. -/
def isDefined (db : Database) (tag : Tag) : Bool :=
  db.predicates.contains tag.index

/-- Whether a predicate is given natively. -/
def isNative (db : Database) (tag : Tag) : Bool :=
  match db.predicates[tag.index]? with
  | some (.native _) => true
  | _ => false

/-- Raises the error of an attempt to change a predicate that cannot be changed. -/
def refuseChange {α : Type} (tag : Tag) : DatabaseM α := do
  raise (.permission "modify" "static_procedure" (← onTerms (Exception.indicatorTerm tag)))

/-- Makes sure that the clauses of a predicate can be changed. -/
def checkModifiable (tag : Tag) : DatabaseM Unit := do
  if (← get).isNative tag || tag.isControl then refuseChange tag

/-- Makes sure that a clause can be compiled. -/
def checkClause (c : Clause) : DatabaseM Unit :=
  compile do
    let σ := (← get).store
    discard (Program.onSymbols (Rule.ofClause σ c))

/-- A clause to be added, and the predicate that it is added to. -/
def placeClause (c : Clause) : DatabaseM (Tag × Clause) := do
  checkClause c
  match ← onTerms c.predicate? with
  | none => raise (.type "callable" c.head)
  | some tag =>
    checkModifiable tag
    return (tag, c)

/-- A copy of a term as a clause to be added, and the predicate that it is added to. -/
def readClause (t : Term) : DatabaseM (Tag × Clause) := do
  let t ← onTerms (Universe.copy t)
  if let .var _ := t then raise .instantiation
  placeClause (← onTerms (Clause.ofTerm t))

/-- Changes the clauses of a predicate. -/
def updateClauses (tag : Tag) (f : List Clause → List Clause) : DatabaseM Unit := do
  setPredicate tag (.clauses (f (((← get).clauses? tag).getD [])))
  changed (.clauses tag)

/-- Adds a clause behind the others. -/
def addClause (t : Term) : DatabaseM Unit := do
  let (tag, c) ← readClause t
  updateClauses tag (· ++ [c])

/-- Adds a clause in front of the others. -/
def addClauseFront (t : Term) : DatabaseM Unit := do
  let (tag, c) ← readClause t
  updateClauses tag (c :: ·)

/-- Removes the clause at an index; the result tells whether there was one. -/
def removeClause (tag : Tag) (i : Nat) : DatabaseM Bool := do
  checkModifiable tag
  if i < (((← get).clauses? tag).getD []).length then
    updateClauses tag (·.eraseIdx i)
    return true
  else return false

/-- Replaces the clauses of a predicate. -/
def define (tag : Tag) (cs : List Clause) : DatabaseM Unit := do
  checkModifiable tag
  cs.forM fun c => do
    checkClause c
    unless (← onTerms c.predicate?) = some tag do raise (.domain "clause_head" c.head)
  updateClauses tag fun _ => cs

/-- Gives a predicate natively. -/
def registerNative (tag : Tag) (n : Native) : DatabaseM Unit := do
  if tag.isControl then refuseChange tag
  setPredicate tag (.native n)
  changed (.native tag)

/-- Makes a predicate one that is not given; the result tells whether it was. -/
def abolish (tag : Tag) : DatabaseM Bool := do
  if tag.isControl then refuseChange tag
  if (← get).isDefined tag then
    modify fun db => { db with predicates := db.predicates.erase tag.index }
    changed (.abolished tag)
    return true
  else return false

/-- Says what a call of an unknown predicate does; `none` leaves it to the engines. -/
def setUnknown (policy : Option UnknownPolicy) : DatabaseM Unit := do
  modify fun db => { db with unknown := policy }
  changed .flags

/-- Adds a listener. -/
def subscribe : DatabaseM Unit :=
  modify fun db => { db with listeners := db.listeners + 1 }

/-! ### Calls -/

/-- Loads code, with a call site for every tag. -/
def load (chunk : Chunk) : DatabaseM Code :=
  modifyGet fun db =>
    (⟨chunk, db.sites.size⟩,
      { db with sites := db.sites ++ chunk.tags.map fun tag => (tag, .empty) })

/-- What a call of a tag at a call site has led to since the last change. -/
def known? (db : Database) (site : Nat) (tag : Tag) : Option Callee :=
  match db.sites[site]? with
  | some (called, s) => if called = tag then s.get? db.generation else none
  | none => none

/-- What a call of a tag leads to. -/
def resolve (tag : Tag) : DatabaseM Resolved := do
  if tag.isControl then return .control
  match (← get).predicates[tag.index]? with
  | none => return .undefined
  | some (.native n) => return .callee (.native n)
  | some (.clauses cs) =>
    let found ← modifyGet fun db =>
      let (found, codeCache) := db.codeCache.get tag
      (found, { db with codeCache := codeCache })
    match found with
    | some code => return .callee (.code code)
    | none =>
      let code ← load (← compile (Chunk.ofClauses tag cs))
      modify fun db => { db with codeCache := db.codeCache.insert tag code }
      return .callee (.code code)

/-- The listing of the code of a predicate, if it is given by clauses. -/
def disassemble (tag : Tag) : DatabaseM (Option String) := do
  match ← resolve tag with
  | .callee (.code code) => return some (code.chunk.listing (← get).terms)
  | _ => return none

/-! ### The database at the start -/

/-- The names and arities of the predicates that every database has. -/
def builtins : List (String × Nat × Builtin) :=
  [("between", 3, .between), ("findall", 3, .findall), ("call_cleanup", 2, .callCleanup),
    ("halt", 0, .halt), ("halt", 1, .halt)]

/-- Gives the predicates that every database has. -/
def registerBuiltins : DatabaseM Unit :=
  builtins.forM fun (name, arity, b) => do
    registerNative (← onTerms (Universe.tagNamed name arity)) (.builtin b)

/-- The database in which only the predicates are given that every database has. -/
def initial : Database :=
  match registerBuiltins empty with
  | .ok _ db | .error _ db => db

/-! ### Diagnosis -/

/-- A code cache for diagnosis. -/
def inspectCache (c : CodeCache) : String :=
  Text.record "CodeCacheStats"
    [("hits", toString c.hits), ("misses", toString c.misses), ("entries", toString c.size)]

/-- A database for diagnosis. -/
def inspect (db : Database) : String :=
  Text.record "Database" [("predicates", toString db.predicates.size),
    ("generation", toString db.generation), ("code_cache", inspectCache db.codeCache)]

end Database

end Resolvent
