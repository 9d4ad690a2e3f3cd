import CMinus.Exchange.Decode

/-!
# Writing a program as a document

The plain form of a program among all those that decoding accepts: every node
is a table with its three fields, a kind without attributes is a word, and all
three slots are written out, the empty ones as empty lists.  Marks are not
written; a document describes a program before its analysis.
-/

namespace CMinus

open Toml

/-- The word of a declaration. -/
def Spec.toValue : Spec → Value
  | .int => .string "int"
  | .void => .string "void"

/-- The sign of an operator. -/
def BinOp.sign : BinOp → String
  | .add => "+"
  | .sub => "-"
  | .mul => "*"
  | .div => "/"
  | .lt => "<"
  | .le => "<="
  | .gt => ">"
  | .ge => ">="
  | .eq => "=="
  | .ne => "!="

/-- A word with attributes: a table with the word as its one key. -/
def Toml.Value.tagged (tag : String) (attributes : List (String × Value)) : Value :=
  .table [(tag, .table attributes)]

/-- The attributes that every declaration has. -/
def Spec.declared (spec : Spec) (name : String) : List (String × Value) :=
  [("name", .string name), ("type", spec.toValue)]

/-- A kind: its word, or its word with its attributes. -/
def Kind.toValue : Kind → Value
  | .compound => .string "compound"
  | .varDecl name spec => .tagged "var-decl" (spec.declared name)
  | .arrayDecl name spec size =>
    .tagged "array-decl" (spec.declared name ++ [("size", .ofWord size)])
  | .funDecl name spec => .tagged "fun-decl" (spec.declared name)
  | .param name spec => .tagged "param" (spec.declared name)
  | .arrayParam name spec => .tagged "array-param" (spec.declared name)
  | .ifThen => .string "if"
  | .ifElse => .string "if-else"
  | .whileDo => .string "while"
  | .returnValue => .string "return"
  | .returnVoid => .string "void-return"
  | .op o => .tagged "op" [("op", .string o.sign)]
  | .const value => .tagged "const" [("value", .integer value)]
  | .var name => .tagged "var" [("name", .string name)]
  | .assign => .string "assign"
  | .call name => .tagged "call" [("name", .string name)]

/-- The nodes of a chain, in order. -/
def Forest.toValues : Forest → List Value
  | .nil => []
  | .node l a b c rest =>
    .table
      [("line", .ofWord l.line),
       ("kind", l.kind.toValue),
       ("children", .array [.array a.toValues, .array b.toValues, .array c.toValues])] ::
    rest.toValues

/-- The document of a program. -/
def Forest.toDocument (f : Forest) : List (String × Value) := [("program", .array f.toValues)]

end CMinus
