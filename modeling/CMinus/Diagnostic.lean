/-!
# Diagnostics

A semantic violation does not stop the analysis; it is written into a log and
the analysis goes on.  Every violation knows the line it points at, and its
wording is fixed in one place, `Diagnostic.text`.

The log only ever grows.  Whether an error was seen is therefore not a flag of
its own: it is whether the log has an entry, and it can never be taken back.
-/

namespace CMinus

/-- Where a declaration of type `void` was found. -/
inductive VoidSite where
  | variable
  | parameter
  | arrayParameter
  deriving DecidableEq

/-- The complaint about a declaration of type `void`. -/
def VoidSite.text : VoidSite → String
  | .variable => "Variable Type cannot be void"
  | .parameter => "Parameter Type cannot be void"
  | .arrayParameter => "Parameter Type cannot be void[]"

/-- A semantic violation. -/
inductive Diagnostic where
  /-- The name is already declared in the same scope. -/
  | redefinition (name : String) (line : UInt32)
  /-- A variable or parameter is declared `void`. -/
  | voidDeclaration (site : VoidSite) (name : String) (line : UInt32)
  | undeclaredVariable (name : String) (line : UInt32)
  | undeclaredFunction (name : String) (line : UInt32)
  /-- An index is not an integer. -/
  | invalidIndex (name : String) (line : UInt32)
  /-- An operand is not an integer. -/
  | invalidExpression (line : UInt32)
  /-- The two sides of an assignment differ in type. -/
  | assignmentType (name : String) (line : UInt32)
  /-- Something other than a function is called. -/
  | invalidFunctionCall (name : String) (line : UInt32)
  /-- The arguments of a call do not fit the parameters. -/
  | parameter (name : String) (line : UInt32)
  /-- A condition is not an integer. -/
  | invalidCondition (line : UInt32)
  /-- A return does not fit the function around it. -/
  | invalidReturnType (line : UInt32)
  deriving DecidableEq

namespace Diagnostic

/-- The line the diagnostic points at. -/
def line : Diagnostic → UInt32
  | redefinition _ n | voidDeclaration _ _ n | undeclaredVariable _ n
  | undeclaredFunction _ n | invalidIndex _ n | invalidExpression n
  | assignmentType _ n | invalidFunctionCall _ n | parameter _ n
  | invalidCondition n | invalidReturnType n => n

/-- The text of the diagnostic, without a line end. -/
def text : Diagnostic → String
  | redefinition name line => s!"Error: redefined symbol '{name}' at line {line}"
  | voidDeclaration site name line =>
    "Error: " ++ site.text ++ s!" at line {line} (name : {name})"
  | undeclaredVariable name line => s!"Error: Undeclared Variable '{name}' at line {line}"
  | undeclaredFunction name line => s!"Error: Undeclared Function '{name}' at line {line}"
  | invalidIndex name line =>
    s!"Error: Invalid array indexing at line {line} (name: '{name}')." ++
      " Indices should be integer"
  | invalidExpression line => s!"Error: Type error at line {line}: invalid expression"
  | assignmentType name line =>
    s!"Error: Assignment type error at line {line} (name: '{name}')"
  | invalidFunctionCall name line =>
    s!"Error: invalid function call at line {line} (name: '{name}')"
  | parameter name line =>
    s!"Error: Parameter error at line {line}: invalid function call (name: '{name}')"
  | invalidCondition line => s!"Error: Invalid condition at line {line}"
  | invalidReturnType line => s!"Error: Type error at line {line}: invalid return type"

end Diagnostic

/-- The diagnostics of one analysis, oldest first. -/
structure Log where
  entries : Array Diagnostic := #[]
  deriving DecidableEq

namespace Log

/-- Add one diagnostic at the end. -/
def report (log : Log) (d : Diagnostic) : Log := ⟨log.entries.push d⟩

/-- Add at most one diagnostic at the end. -/
def report? (log : Log) (d : Option Diagnostic) : Log :=
  match d with
  | none => log
  | some d => log.report d

/-- Whether anything was ever reported. -/
def hadError (log : Log) : Bool := !log.entries.isEmpty

/-- Every diagnostic on a line of its own, in the order of the reports. -/
def text (log : Log) : String :=
  String.join (log.entries.toList.map fun d => d.text ++ "\n")

@[simp] theorem toList_report (log : Log) (d : Diagnostic) :
    (log.report d).entries.toList = log.entries.toList ++ [d] := by
  simp [report]

@[simp] theorem toList_report? (log : Log) (d : Option Diagnostic) :
    (log.report? d).entries.toList = log.entries.toList ++ d.toList := by
  cases d <;> simp [report?]

/-- The error flag is exactly "the log has an entry". -/
theorem hadError_iff (log : Log) : log.hadError = true ↔ log.entries.toList ≠ [] := by
  simp [hadError]

end Log

end CMinus
