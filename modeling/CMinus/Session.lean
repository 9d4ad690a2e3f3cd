import CMinus.Failure
import CMinus.Scoping
import CMinus.Typing

/-!
# Sessions

A session is the analysis of one program while it is under way: its options,
its table, its log and how far it has come.  The passes run in one order and
each of them once.  A pass that is asked for out of turn is refused, and then
there is no new session and no new tree: the caller keeps the ones it has.
-/

namespace CMinus

/-- The options of an analysis. -/
structure Config where
  /-- Report progress. -/
  verbose : Bool := false
  /-- Add the symbol table to the report. -/
  trace : Bool := false
  /-- Poison a failed operator instead of leaving it without a type. -/
  poisonFailed : Bool := true
  deriving DecidableEq

/-- How far an analysis has come. -/
inductive Phase where
  | unbuilt
  | symbolsBuilt
  | typesChecked
  deriving DecidableEq

/-- An analysis under way. -/
structure Session where
  config : Config := {}
  table : Table := .empty
  log : Log := {}
  phase : Phase := .unbuilt
  deriving DecidableEq

namespace Session

/-- A fresh session. -/
def start (config : Config) : Session := { config }

/-- Add a diagnostic from outside the passes. -/
def report (s : Session) (d : Diagnostic) : Session := { s with log := s.log.report d }

/-- The first pass: fill the table and mark the tree with scopes. -/
def build (s : Session) (f : Forest) : Except Failure (Forest × Session) :=
  match s.phase with
  | .unbuilt =>
    let (f, table, log) := Scoping.run s.table s.log f
    .ok (f, { s with table, log, phase := .symbolsBuilt })
  | .symbolsBuilt | .typesChecked => .error (.ofRefusal .alreadyBuilt)

/-- The second pass: type the tree.  A tree that was marked by another session
can name a scope that this table lacks, and is refused before it is touched. -/
def check (s : Session) (f : Forest) : Except Failure (Forest × Session) :=
  match s.phase with
  | .unbuilt => .error (.ofRefusal .notYetBuilt)
  | .typesChecked => .error (.ofRefusal .alreadyChecked)
  | .symbolsBuilt =>
    match (Typing.consulted f).find? (s.table.scopes.size ≤ ·) with
    | some scope => .error (.unknownScope scope)
    | none =>
      let (f, log) := Typing.run s.config.poisonFailed s.table s.log f
      .ok (f, { s with log, phase := .typesChecked })

end Session

end CMinus
