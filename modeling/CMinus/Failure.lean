/-!
# Failures

What can go wrong around an analysis: the input cannot be read, it does not
describe a tree, or the passes are run out of order.  None of these is a
statement about the analysed program; those are diagnostics and never stop
anything.
-/

namespace CMinus

/-- Why a pass was refused. -/
inductive Refusal where
  | alreadyBuilt
  | notYetBuilt
  | alreadyChecked
  deriving DecidableEq

/-- The reason given for refusing a pass. -/
def Refusal.reason : Refusal → String
  | alreadyBuilt => "the symbol table of this unit is already built"
  | notYetBuilt => "type checking needs the symbol table to be built first"
  | alreadyChecked => "this unit is already type checked"

/-- A failure outside the semantic rules. -/
inductive Failure where
  /-- The input could not be read as text. -/
  | unreadable (detail : String)
  /-- The text is no document, or the document describes no tree. -/
  | badFormat (detail : String)
  /-- The document describes a tree that has no room for all its parts. -/
  | malformed (reason : String) (line : UInt32)
  /-- A pass was run before or after its turn. -/
  | outOfOrder (reason : String)
  /-- A node is marked with a scope that the table does not have. -/
  | unknownScope (scope : Nat)
  deriving DecidableEq

namespace Failure

/-- The refusal of a pass as a failure. -/
def ofRefusal (r : Refusal) : Failure := outOfOrder r.reason

/-- A node with more child slots than a tree has room for. -/
def tooManySlots (count : Nat) (line : UInt32) : Failure :=
  malformed s!"node has {count} child slots, at most 3 are allowed" line

/-- The text of the failure. -/
def message : Failure → String
  | unreadable detail => s!"IO error: {detail}"
  | badFormat detail => s!"AST format error: {detail}"
  | malformed reason line => s!"Malformed AST at line {line}: {reason}"
  | outOfOrder reason => s!"Pass order error: {reason}"
  | unknownScope scope => s!"Scope {scope} is not in the symbol table"

end Failure

end CMinus
