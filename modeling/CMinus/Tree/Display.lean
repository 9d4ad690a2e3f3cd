import CMinus.Text.Layout
import CMinus.Text.Quoted
import CMinus.Tree.Basic

/-!
# Displaying a tree

A complete printout of a tree with all its marks, for debugging.  Every node is
a record of its kind, its three slots, its sibling, its line, its type and its
scope, in that order; a sibling is nested inside the node before it.
-/

namespace CMinus

open Text

/-- A type word in a printout. -/
def Spec.display : Spec → String
  | int => "Int"
  | void => "Void"

/-- A type in a printout. -/
def Ty.display : Ty → String
  | void => "Void"
  | int => "Int"
  | intArray => "IntArray"
  | voidFunction => "VoidFunction"
  | intFunction => "IntFunction"
  | poison => "SemanticError"

/-- An operator in a printout. -/
def BinOp.display : BinOp → String
  | add => "Add"
  | sub => "Sub"
  | mul => "Mul"
  | div => "Div"
  | lt => "Lt"
  | le => "Le"
  | gt => "Gt"
  | ge => "Ge"
  | eq => "Eq"
  | ne => "Ne"

/-- A kind in a printout, without the class it belongs to. -/
def Kind.displayBare (k : Kind) : Layout :=
  let named (title : String) (name : String) (specTitle : String) (spec : Spec)
      (more : List (String × Layout)) : Layout :=
    .record title ([("name", .atom (quote name)), (specTitle, .atom spec.display)] ++ more)
  let called (title : String) (name : String) : Layout :=
    .record title [("name", .atom (quote name))]
  match k with
  | compound => .atom "Compound"
  | varDecl name spec => named "VarDecl" name "spec" spec []
  | arrayDecl name spec size =>
    named "ArrayDecl" name "spec" spec [("size", .atom (toString size))]
  | funDecl name spec => named "FuncDecl" name "returns" spec []
  | param name spec => named "Param" name "spec" spec []
  | arrayParam name spec => named "ArrayParam" name "spec" spec []
  | ifThen => .atom "If"
  | ifElse => .atom "IfElse"
  | whileDo => .atom "While"
  | returnValue => .atom "Return"
  | returnVoid => .atom "VoidReturn"
  | op o => .apply "Op" (.atom o.display)
  | const value => .apply "Const" (.atom (toString value.toInt))
  | var name => called "Var" name
  | assign => .atom "Assign"
  | call name => called "Call" name

/-- A kind in a printout. -/
def Kind.display (k : Kind) : Layout :=
  .apply (if k.isExpr then "Expr" else "Stmt") k.displayBare

/-- A forest in a printout: its first node, with the rest of the chain inside. -/
def Forest.display : Forest → Layout
  | nil => .optional none
  | node l a b c rest =>
    .optional <| some <| .record "Node"
      [("kind", l.kind.display),
       ("children", .list [a.display, b.display, c.display]),
       ("sibling", rest.display),
       ("lineno", .atom (toString l.line)),
       ("ty", .optional (l.marks.ty.map fun ty => .atom ty.display)),
       ("scope", .optional (l.marks.scope.map fun id => .apply "ScopeId" (.atom (toString id))))]

end CMinus
