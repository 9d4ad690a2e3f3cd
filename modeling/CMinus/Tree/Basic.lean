import CMinus.Ty

/-!
# Syntax trees

A node has a kind, a source line, three child slots and a next sibling; every
slot holds the head of a chain of siblings.  `Forest` is that structure read
as a first-child/next-sibling tree: it is either empty or a label with four
smaller forests.  Chains, slots and "no root" are then one type with one
induction principle, and neither a missing child nor the end of a chain needs
a case of its own.

Analysis never changes what the parser wrote.  It only fills in the `Marks`
of a label, which is why these are kept apart from kind and line.

## Main definitions

* `Kind`, `Marks`, `Label`: what one node says;
* `Forest`: a chain of nodes with everything below it;
* `Tree`: one node cut off from its chain, the unit trees are built from;
* `Forest.ofTrees` and `Forest.trees`, which are inverse to each other.
-/

namespace CMinus

/-- A scope is named by its position in the table that created it. -/
abbrev ScopeId := Nat

/-- A symbol is named by its position in the table that created it. -/
abbrev SymbolId := Nat

/-- The binary operators. -/
inductive BinOp where
  | add | sub | mul | div
  | lt | le | gt | ge | eq | ne
  deriving DecidableEq

/-- What a node is.  The first eleven kinds are statements and declarations,
the last five are expressions. -/
inductive Kind where
  /-- A block: local declarations in the first slot, statements in the second. -/
  | compound
  | varDecl (name : String) (spec : Spec)
  | arrayDecl (name : String) (spec : Spec) (size : UInt32)
  /-- A function: parameters in the first slot, its block in the second. -/
  | funDecl (name : String) (spec : Spec)
  | param (name : String) (spec : Spec)
  | arrayParam (name : String) (spec : Spec)
  /-- A conditional: condition, then-branch. -/
  | ifThen
  /-- A conditional: condition, then-branch, else-branch. -/
  | ifElse
  /-- A loop: condition, body. -/
  | whileDo
  /-- A return with its value in the first slot. -/
  | returnValue
  | returnVoid
  /-- An operator: left operand, right operand. -/
  | op (o : BinOp)
  | const (value : Int64)
  /-- A variable, indexed when its first slot is filled. -/
  | var (name : String)
  /-- An assignment: target, value. -/
  | assign
  /-- A call with its arguments in the first slot. -/
  | call (name : String)
  deriving DecidableEq

namespace Kind

/-- The identifier that a declaration introduces or an expression uses. -/
def name? : Kind → Option String
  | varDecl n _ | arrayDecl n _ _ | funDecl n _ | param n _ | arrayParam n _
  | var n | call n => some n
  | compound | ifThen | ifElse | whileDo | returnValue | returnVoid
  | op _ | const _ | assign => none

/-- Expressions are the kinds that carry a type after analysis. -/
def isExpr : Kind → Bool
  | op _ | const _ | var _ | assign | call _ => true
  | compound | varDecl .. | arrayDecl .. | funDecl .. | param .. | arrayParam ..
  | ifThen | ifElse | whileDo | returnValue | returnVoid => false

end Kind

/-- What the analysis writes on a node. -/
structure Marks where
  /-- The type of an expression. -/
  ty : Option Ty := none
  /-- The innermost scope around the node. -/
  scope : Option ScopeId := none
  deriving DecidableEq

/-- Everything a node carries apart from its links. -/
structure Label where
  kind : Kind
  line : UInt32
  marks : Marks := {}
  deriving DecidableEq

/-- A chain of sibling nodes.  A node's own children are the chains in its
three slots; `rest` is the remainder of the chain the node itself is in. -/
inductive Forest where
  | nil
  | node (label : Label) (first second third rest : Forest)
  deriving DecidableEq

/-- One node with its children, apart from any chain. -/
structure Tree where
  label : Label
  first : Forest := .nil
  second : Forest := .nil
  third : Forest := .nil
  deriving DecidableEq

/-- The chain in a numbered slot; only slots 0, 1 and 2 exist. -/
def Tree.slot (t : Tree) : Nat → Forest
  | 0 => t.first
  | 1 => t.second
  | 2 => t.third
  | _ => .nil

namespace Forest

/-- The chain with the given nodes, in order. -/
def ofTrees : List Tree → Forest
  | [] => nil
  | t :: ts => node t.label t.first t.second t.third (ofTrees ts)

/-- The nodes of the chain, in order, each with its children. -/
def trees : Forest → List Tree
  | nil => []
  | node l a b c rest => ⟨l, a, b, c⟩ :: rest.trees

@[simp] theorem trees_ofTrees (ts : List Tree) : (ofTrees ts).trees = ts := by
  induction ts with
  | nil => rfl
  | cons t ts ih => simp [ofTrees, trees, ih]

@[simp] theorem ofTrees_trees (f : Forest) : ofTrees f.trees = f := by
  induction f with
  | nil => rfl
  | node l a b c rest _ _ _ ih => simp [ofTrees, trees, ih]

/-- The labels along the chain, without their children. -/
def labels : Forest → List Label
  | nil => []
  | node l _ _ _ rest => l :: rest.labels

/-- The label of the first node of the chain. -/
def head? : Forest → Option Label
  | nil => none
  | node l _ _ _ _ => some l

/-- The type of the first node of the chain.  An empty chain and an untyped
node look the same from here, and no rule tells them apart. -/
def ty? (f : Forest) : Option Ty := f.head?.bind (·.marks.ty)

/-- Whether the chain has no node. -/
def isEmpty : Forest → Bool
  | nil => true
  | node .. => false

end Forest

end CMinus
