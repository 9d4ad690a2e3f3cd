import CMinus.Tree.Basic

/-!
# Building trees

One constructor per construct of the language, each placing its parts in the
slots that the analysis reads them from.  They are the shapes a parser emits;
a tree of any other shape can still be put together with `Tree.ofSlots?`,
which accepts every kind with any filling of at most three slots.
-/

namespace CMinus

/-- A chain of one node. -/
def Forest.single (t : Tree) : Forest := .ofTrees [t]

namespace Tree

/-- A node of the given kind whose slots are filled from the left.  A node has
three slots, so a longer list describes no tree. -/
def ofSlots? (kind : Kind) (line : UInt32) (slots : List (List Tree)) : Option Tree :=
  match slots.map Forest.ofTrees with
  | [] => some ⟨⟨kind, line, {}⟩, .nil, .nil, .nil⟩
  | [a] => some ⟨⟨kind, line, {}⟩, a, .nil, .nil⟩
  | [a, b] => some ⟨⟨kind, line, {}⟩, a, b, .nil⟩
  | [a, b, c] => some ⟨⟨kind, line, {}⟩, a, b, c⟩
  | _ => none

/-- A node without children. -/
def leaf (kind : Kind) (line : UInt32) : Tree := { label := { kind, line } }

/-- A block with its local declarations and its statements. -/
def compound (locals statements : List Tree) (line : UInt32) : Tree :=
  { leaf .compound line with first := .ofTrees locals, second := .ofTrees statements }

/-- A scalar variable. -/
def varDecl (name : String) (spec : Spec) (line : UInt32) : Tree :=
  leaf (.varDecl name spec) line

/-- An array variable. -/
def arrayDecl (name : String) (spec : Spec) (size : UInt32) (line : UInt32) : Tree :=
  leaf (.arrayDecl name spec size) line

/-- A function with its parameters and its block. -/
def funDecl (name : String) (spec : Spec) (params : List Tree) (body : Tree)
    (line : UInt32) : Tree :=
  { leaf (.funDecl name spec) line with first := .ofTrees params, second := .single body }

/-- A scalar parameter. -/
def param (name : String) (spec : Spec) (line : UInt32) : Tree :=
  leaf (.param name spec) line

/-- An array parameter. -/
def arrayParam (name : String) (spec : Spec) (line : UInt32) : Tree :=
  leaf (.arrayParam name spec) line

/-- A conditional without an else-branch. -/
def ifThen (condition yes : Tree) (line : UInt32) : Tree :=
  { leaf .ifThen line with first := .single condition, second := .single yes }

/-- A conditional with both branches. -/
def ifElse (condition yes no : Tree) (line : UInt32) : Tree :=
  { leaf .ifElse line with
    first := .single condition, second := .single yes, third := .single no }

/-- A loop. -/
def whileDo (condition body : Tree) (line : UInt32) : Tree :=
  { leaf .whileDo line with first := .single condition, second := .single body }

/-- A return of a value. -/
def returnValue (value : Tree) (line : UInt32) : Tree :=
  { leaf .returnValue line with first := .single value }

/-- A return without a value. -/
def returnVoid (line : UInt32) : Tree := leaf .returnVoid line

/-- A binary operation. -/
def op (o : BinOp) (left right : Tree) (line : UInt32) : Tree :=
  { leaf (.op o) line with first := .single left, second := .single right }

/-- An integer literal. -/
def const (value : Int64) (line : UInt32) : Tree := leaf (.const value) line

/-- A variable used as a whole. -/
def var (name : String) (line : UInt32) : Tree := leaf (.var name) line

/-- A variable used with an index. -/
def index (name : String) (position : Tree) (line : UInt32) : Tree :=
  { leaf (.var name) line with first := .single position }

/-- An assignment. -/
def assign (target value : Tree) (line : UInt32) : Tree :=
  { leaf .assign line with first := .single target, second := .single value }

/-- A call. -/
def call (name : String) (args : List Tree) (line : UInt32) : Tree :=
  { leaf (.call name) line with first := .ofTrees args }

end Tree

end CMinus
