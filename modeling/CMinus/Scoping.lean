import CMinus.Diagnostic
import CMinus.Table.Basic
import CMinus.Tree.Walk

/-!
# Scoping

The first pass: open and close scopes, declare names, record uses, and mark
every node with the innermost scope around it.

A function opens its scope at its declaration, before its parameters are seen,
so that the parameters land inside.  Its block must then not open a second
one.  The state remembers this with `entering`: it is set by a function
declaration and cleared by the next block, which takes over the scope already
open.  A function that never reaches a block closes its scope itself.

Every further block opens a scope of its own, named after the function it is
in.  Those names are what `Table.enclosing` searches by, so `blockName` is
part of the meaning of the table and not a decoration.

A declaration makes at most one report.  Names that are used but not declared
are left to the second pass, which knows the whole table.
-/

namespace CMinus

/-- The name of the outermost scope. -/
def globalName : String := "global"

namespace Table

/-- Open the outermost scope and declare the functions every program starts
with: `int input(void)` and `void output(int value)`. -/
def withBuiltins (t : Table) : Table :=
  let global := t.nextScope
  let t := t.push globalName
  let (_, t) := t.declare global "input" .intFunction 0
  match t.declare global "output" .voidFunction 0 with
  | (.taken _, t) => t
  | (.added output, t) =>
    let scope := t.nextScope
    let t := t.push "output"
    let (_, t) := t.declare scope "value" .int 0
    (t.addParameter output .int).pop

/-- The function whose parameters the given scope collects: what the scope's
name means in the scope around it, if that is a function. -/
def signature? (t : Table) (scope : ScopeId) : Option SymbolId := do
  let s ← t.scopes[scope]?
  let parent ← s.parent
  (t.lookupLocal parent s.name).filter t.isFunction

end Table

/-- The state of the first pass. -/
structure Scoping where
  table : Table
  log : Log
  /-- The name that the next block scope gets. -/
  blockName : String := globalName
  /-- A function was declared and its block has not been reached yet. -/
  entering : Bool := false
  /-- The function being declared lost its name to an earlier declaration. -/
  redefined : Bool := false

namespace Scoping

/-- Declare a variable or a parameter.  One of type `void` is reported and
stored as poison; a name that is already taken is reported and left alone. -/
def declareObject (s : Scoping) (scope : ScopeId) (name : String) (spec : Spec) (ty : Ty)
    (site : VoidSite) (line : UInt32) : Option SymbolId × Scoping :=
  let ty := if spec = .void then .poison else ty
  match s.table.declare scope name ty line with
  | (.taken _, table) => (none, { s with table, log := s.log.report (.redefinition name line) })
  | (.added id, table) =>
    let complaint := if spec = .void then some (.voidDeclaration site name line) else none
    (some id, { s with table, log := s.log.report? complaint })

/-- Declare a parameter, and add its type to the signature of the function it
belongs to unless that function is itself a redefinition.  The function is
looked up first, so a parameter that shares its name does not hide it. -/
def declareParameter (s : Scoping) (scope : ScopeId) (name : String) (spec : Spec) (ty : Ty)
    (site : VoidSite) (line : UInt32) : Scoping :=
  let function? := s.table.signature? scope
  match s.declareObject scope name spec ty site line with
  | (none, s) => s
  | (some param, s) =>
    match function?, s.redefined, s.table.tyOf? param with
    | some function, false, some ty => { s with table := s.table.addParameter function ty }
    | _, _, _ => s

/-- Declare a function and open its scope. -/
def declareFunction (s : Scoping) (scope : ScopeId) (name : String) (spec : Spec)
    (line : UInt32) : Scoping :=
  match s.table.declare scope name (.functionReturning spec) line with
  | (.taken _, table) =>
    { table := table.push name, log := s.log.report (.redefinition name line)
      blockName := name, entering := true, redefined := true }
  | (.added _, table) =>
    { table := table.push name, log := s.log
      blockName := name, entering := true, redefined := false }

/-- Record a use of a name that is declared at this point. -/
def use (s : Scoping) (scope : ScopeId) (name : String) (line : UInt32) : Scoping :=
  match s.table.lookup scope name with
  | none => s
  | some id => { s with table := s.table.reference id line }

/-- Enter a block: take over the scope of the function being entered, or open
one. -/
def openBlock (s : Scoping) : Scoping :=
  if s.entering then { s with entering := false }
  else { s with table := s.table.push s.blockName }

/-- What entering a node does, given the innermost open scope. -/
def step (s : Scoping) (scope : ScopeId) (kind : Kind) (line : UInt32) : Scoping :=
  match kind with
  | .compound => s.openBlock
  | .varDecl name spec => (s.declareObject scope name spec .int .variable line).2
  | .arrayDecl name spec _ => (s.declareObject scope name spec .intArray .variable line).2
  | .funDecl name spec => s.declareFunction scope name spec line
  | .param name spec => s.declareParameter scope name spec .int .parameter line
  | .arrayParam name spec => s.declareParameter scope name spec .intArray .arrayParameter line
  | .var name | .call name => s.use scope name line
  | _ => s

/-- Enter a node and mark it.  Blocks and functions may open a scope, and then
belong to it; so the mark is the innermost scope afterwards. -/
def enter (l : Label) (s : Scoping) : Marks × Scoping :=
  match s.table.top? with
  | none => (l.marks, s)
  | some scope =>
    let s := s.step scope l.kind l.line
    ({ l.marks with scope := s.table.top? }, s)

/-- The name of the scope around the given one, for the blocks that follow. -/
def nameAround (t : Table) (scope : Option ScopeId) : String :=
  let parent := do
    let s ← t.scopes[← scope]?
    t.scopes[← s.parent]?
  (parent.map (·.name)).getD globalName

/-- Leave a node: a block closes a scope, and so does a function whose block
was never reached. -/
def leave (t : Tree) (s : Scoping) : Marks × Scoping :=
  match t.label.kind with
  | .compound => (t.label.marks, { s with table := s.table.pop })
  | .funDecl .. =>
    let table := if s.entering then s.table.pop else s.table
    (t.label.marks,
      { s with
        table
        blockName := nameAround table t.label.marks.scope
        entering := false
        redefined := false })
  | _ => (t.label.marks, s)

/-- The first pass as a visitor. -/
def visitor : Visitor Scoping := .marking enter leave

/-- Run the first pass: builtins, the tree, and no scope left open. -/
def run (table : Table) (log : Log) (f : Forest) : Forest × Table × Log :=
  let (f, s) := f.walk visitor { table := table.withBuiltins, log }
  (f, s.table.discard, s.log)

end Scoping

end CMinus
