import CMinus.Diagnostic
import CMinus.Table.Basic
import CMinus.Tree.Walk

/-!
# Typing

The second pass: give every expression a type and report what does not fit.
It works from the leaves upwards, so the children of a node are typed before
the node itself, and it only reads the table.

Each rule is a function of the table, a node and its finished children, and
yields a `Verdict`: a type and at most one complaint.  A name resolves through
the scope marked on the node; a declaration that begins on a later line than
the use does not count, because the table already holds everything.

Poison keeps one mistake from being reported twice: an operand, a target or an
argument of that type has a reported cause, and the rules for assignments and
calls accept it.
-/

namespace CMinus

/-- What a rule says about a node. -/
structure Verdict where
  ty : Option Ty := none
  complaint : Option Diagnostic := none
  deriving DecidableEq

namespace Verdict

/-- The node has this type. -/
def typed (ty : Ty) : Verdict := { ty := some ty }

/-- The node is wrong, and whatever uses it should not be blamed. -/
def poisoned (complaint : Diagnostic) : Verdict :=
  { ty := some .poison, complaint := some complaint }

/-- A statement that is in order, or not. -/
def statement (ok : Bool) (complaint : Diagnostic) : Verdict :=
  { complaint := if ok then none else some complaint }

end Verdict

namespace Table

/-- The symbol that a use of `name` on `line` refers to. -/
def resolve (t : Table) (scope? : Option ScopeId) (name : String) (line : UInt32) :
    Option SymbolId := do
  let scope ← scope?
  (t.lookup scope name).filter fun id => (t.symbols[id]?).any (·.firstLine ≤ line)

/-- The same, as the symbol itself. -/
def resolveSymbol (t : Table) (scope? : Option ScopeId) (name : String) (line : UInt32) :
    Option Symbol :=
  (t.resolve scope? name line).bind (t.symbols[·]?)

/-- The type of the function that a return with this mark belongs to. -/
def enclosingTy (t : Table) (scope? : Option ScopeId) : Enclosing (Option Ty) :=
  match scope? with
  | none => .topLevel
  | some scope => (t.enclosing scope).map t.tyOf?

end Table

namespace Typing

/-- Whether an argument may stand for a parameter.  Poison on either side fits
anything: its cause is already reported. -/
def argumentFits (arg : Option Ty) (param : Ty) : Bool :=
  param.isPoison || arg = some param || arg = some .poison

/-- Whether a list of arguments fits a list of parameters. -/
def argumentsFit (args : List (Option Ty)) (params : List Ty) : Bool :=
  args.length = params.length && (args.zip params).all fun (a, p) => argumentFits a p

/-- An operator takes two integers and yields one.  `poisonFailed` decides
whether a failed one is poisoned or left without a type. -/
def judgeOp (poisonFailed : Bool) (t : Tree) : Verdict :=
  if t.first.ty? = some .int && t.second.ty? = some .int then .typed .int
  else
    { ty := if poisonFailed then some .poison else none
      complaint := some (.invalidExpression t.label.line) }

/-- A variable has the type of its symbol, and an indexed one is an integer. -/
def judgeVar (table : Table) (t : Tree) (name : String) : Verdict :=
  match table.resolveSymbol t.label.marks.scope name t.label.line with
  | none => .poisoned (.undeclaredVariable name t.label.line)
  | some symbol =>
    if t.first.isEmpty then .typed symbol.ty
    else if t.first.ty? = some .int then .typed .int
    else .poisoned (.invalidIndex name t.label.line)

/-- An assignment needs a declared target and two sides of one type, and has
the type of its target.  An undeclared target was already reported if it is a
variable, which shows in its being poisoned. -/
def judgeAssign (table : Table) (t : Tree) : Verdict :=
  let target := t.first.ty?
  let value := t.second.ty?
  let name := ((t.first.head?.bind (·.kind.name?))).getD ""
  let resolved := t.first.head?.bind fun l => table.resolve l.marks.scope name l.line
  match resolved with
  | none =>
    { ty := some .poison
      complaint :=
        if target = some .poison then none
        else some (.undeclaredVariable name t.label.line) }
  | some _ =>
    if target = value || target = some .poison || value = some .poison then
      .typed (target.getD .poison)
    else .poisoned (.assignmentType name t.label.line)

/-- A call needs a declared function and arguments that fit, and has the
function's result type even if they do not. -/
def judgeCall (table : Table) (t : Tree) (name : String) : Verdict :=
  match table.resolveSymbol t.label.marks.scope name t.label.line with
  | none => .poisoned (.undeclaredFunction name t.label.line)
  | some symbol =>
    match symbol.ty.result? with
    | none => .poisoned (.invalidFunctionCall name t.label.line)
    | some result =>
      let args := t.first.labels.map (·.marks.ty)
      { ty := some result
        complaint :=
          if argumentsFit args symbol.params then none
          else some (.parameter name t.label.line) }

/-- A return of a value needs a function that yields an integer, and an
integer to give.  In a function whose name belongs to something else nothing
more is reported. -/
def judgeReturnValue (table : Table) (t : Tree) : Verdict :=
  .statement
    (match table.enclosingTy t.label.marks.scope with
      | .function (some .intFunction) => t.first.ty? = some .int
      | .redefined => true
      | _ => false)
    (.invalidReturnType t.label.line)

/-- A return without a value needs a function that yields none. -/
def judgeReturnVoid (table : Table) (t : Tree) : Verdict :=
  .statement
    (match table.enclosingTy t.label.marks.scope with
      | .function (some .voidFunction) | .redefined => true
      | _ => false)
    (.invalidReturnType t.label.line)

/-- The rule for a node whose children are typed. -/
def judge (poisonFailed : Bool) (table : Table) (t : Tree) : Verdict :=
  match t.label.kind with
  | .op _ => judgeOp poisonFailed t
  | .const _ => .typed .int
  | .var name => judgeVar table t name
  | .assign => judgeAssign table t
  | .call name => judgeCall table t name
  | .ifThen | .ifElse | .whileDo =>
    .statement (t.first.ty? = some .int) (.invalidCondition t.label.line)
  | .returnValue => judgeReturnValue table t
  | .returnVoid => judgeReturnVoid table t
  | .compound | .varDecl .. | .arrayDecl .. | .funDecl .. | .param .. | .arrayParam .. => {}

/-- Leave a node: write its type and report its complaint. -/
def leave (poisonFailed : Bool) (table : Table) (t : Tree) (log : Log) : Marks × Log :=
  let verdict := judge poisonFailed table t
  ({ t.label.marks with ty := verdict.ty }, log.report? verdict.complaint)

/-- The second pass as a visitor. -/
def visitor (poisonFailed : Bool) (table : Table) : Visitor Log :=
  .marking (fun l log => (l.marks, log)) (leave poisonFailed table)

/-- Run the second pass. -/
def run (poisonFailed : Bool) (table : Table) (log : Log) (f : Forest) : Forest × Log :=
  f.walk (visitor poisonFailed table) log

/-- The scopes that typing a node looks names up in.  An assignment looks at
its target, the other rules at the node itself. -/
def consultedAt (t : Tree) : Option ScopeId :=
  match t.label.kind with
  | .var _ | .call _ | .returnValue | .returnVoid => t.label.marks.scope
  | .assign => t.first.head?.bind (·.marks.scope)
  | _ => none

/-- The scopes that typing a forest looks names up in. -/
def consulted : Forest → List ScopeId
  | .nil => []
  | .node l a b c rest =>
    (consultedAt ⟨l, a, b, c⟩).toList ++
      consulted a ++ consulted b ++ consulted c ++ consulted rest

end Typing

end CMinus
