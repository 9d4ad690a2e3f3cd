import CMinus.Session
import CMinus.Table.Listing

/-!
# Analysis

Both passes over one program, and the report about it.
-/

namespace CMinus

/-- A finished analysis. -/
structure Analysis where
  config : Config
  table : Table
  log : Log
  /-- The program, marked with scopes and types. -/
  forest : Forest

/-- Run both passes in a fresh session.  Violations of the language's rules
are collected in the log and never make the analysis fail. -/
def analyze (config : Config) (f : Forest) : Except Failure Analysis := do
  let (f, s) ← (Session.start config).build f
  let (f, s) ← s.check f
  return { config := s.config, table := s.table, log := s.log, forest := f }

namespace Analysis

/-- Whether anything was reported. -/
def hadError (a : Analysis) : Bool := a.log.hadError

/-- The diagnostics and, if tracing was asked for, the symbol table. -/
def report (a : Analysis) : String :=
  a.log.text ++ if a.config.trace then "\nSymbol table:\n\n" ++ a.table.listing else ""

end Analysis

/-- How much of a text gets into a buffer that holds `limit` bytes, and whether
that is all of it. -/
def writtenWithin (limit : Nat) (text : String) : Bool × Nat :=
  (text.utf8ByteSize ≤ limit, min limit text.utf8ByteSize)

end CMinus
