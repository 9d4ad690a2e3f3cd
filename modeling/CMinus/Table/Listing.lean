import CMinus.Table.Basic
import CMinus.Text.Pad

/-!
# The listing of a symbol table

Two header lines and one row per symbol, in fixed columns: name, type, scope,
storage slot, and then every line on which the symbol is declared or used.
Rows are grouped by scope in the order the scopes were made, and within a
scope they follow `Table.symbolsIn`.
-/

namespace CMinus

open Text

namespace Table

/-- The column titles and the rule below them. -/
def listingHeader : String :=
  "Variable Name  Variable Type  Scope Name  Location   Line Numbers\n" ++
  "-------------  -------------  ----------  --------   ------------\n"

/-- The row of one symbol in a scope of the given name. -/
def listingRow (scopeName : String) (s : Symbol) : String :=
  padRight 13 s.name ++ "  " ++ padRight 13 s.ty.word ++ "  " ++
    padRight 10 scopeName ++ "  " ++ padRight 8 (toString s.slot) ++ "  " ++
    String.join (s.lines.map fun line => padLeft 4 (toString line) ++ " ") ++ "\n"

/-- The rows of one scope. -/
def listingRows (t : Table) (scope : ScopeId) : List String :=
  match t.scopes[scope]? with
  | none => []
  | some s => (t.symbolsIn scope).map (listingRow s.name)

/-- The whole listing. -/
def listing (t : Table) : String :=
  listingHeader ++ String.join ((List.range t.scopes.size).flatMap t.listingRows)

end Table

end CMinus
