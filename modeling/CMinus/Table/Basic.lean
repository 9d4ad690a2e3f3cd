import CMinus.Tree.Basic
import CMinus.Table.Hash

/-!
# The symbol table

A table is a registry of scopes and a registry of symbols, both only ever
appended to, and a stack of the scopes that are open at the moment.  Ids are
positions in the registries: once handed out they keep their meaning whatever
happens later, which is what lets one pass write them on a tree and another
pass read them back.

A scope refers to the scope around it by id.  A new scope takes its parent
from the stack, so the parent is always older and its id smaller; the chain
from a scope outwards therefore has at most as many members as the id says.
`Table.chain` computes it by recursion on that bound, and look-up and the
search for the enclosing function are ordinary list functions on the chain.

Storage slots are numbered per open scope: a declaration takes the next number
of the innermost open scope.

## Main definitions

* `Symbol`, `Scope`, `Frame`, `Table`;
* `Table.push`, `Table.pop`, `Table.discard`: opening and closing scopes;
* `Table.declare`, `Table.reference`, `Table.addParameter`: the only ways a
  symbol appears or changes;
* `Table.lookupLocal`, `Table.lookup`, `Table.enclosing`, `Table.symbolsIn`:
  the queries.
-/

namespace CMinus

/-- A declared name. -/
structure Symbol where
  name : String
  ty : Ty
  /-- The line of the declaration, then one line for every recorded use. -/
  lines : List UInt32
  /-- The storage slot within the scope. -/
  slot : Nat
  /-- The types of the parameters, in order; functions only. -/
  params : List Ty := []
  scope : ScopeId
  deriving DecidableEq

/-- The line a symbol was declared on, or 0 for one without lines. -/
def Symbol.firstLine (s : Symbol) : UInt32 := s.lines.headD 0

/-- A named region of a program. -/
structure Scope where
  name : String
  parent : Option ScopeId
  /-- The symbols filed in each bucket, newest first. -/
  buckets : Vector (List SymbolId) bucketCount := .replicate bucketCount []
  deriving DecidableEq

namespace Scope

/-- The symbols filed in a bucket, newest first. -/
def bucket (s : Scope) (b : Bucket) : List SymbolId := s.buckets[b]

/-- File a symbol under its name. -/
def file (s : Scope) (name : String) (id : SymbolId) : Scope :=
  let b := Bucket.ofName name
  { s with buckets := s.buckets.set b (id :: s.bucket b) }

/-- Every symbol of the scope: buckets in ascending order, newest first within
a bucket. -/
def members (s : Scope) : List SymbolId := s.buckets.toList.flatten

end Scope

/-- An open scope and the next storage slot in it. -/
structure Frame where
  scope : ScopeId
  nextSlot : Nat := 0
  deriving DecidableEq

/-- What a declaration did. -/
inductive Declared where
  /-- A new symbol was made. -/
  | added (id : SymbolId)
  /-- The name was already taken in that scope, by this symbol. -/
  | taken (id : SymbolId)
  deriving DecidableEq

/-- What a statement belongs to, seen from inside. -/
inductive Enclosing (α : Type) where
  | function (owner : α)
  /-- The name of the function belongs to something that is no function. -/
  | redefined
  | topLevel
  deriving DecidableEq

/-- Replace the function by something computed from it. -/
def Enclosing.map {α β : Type} (f : α → β) : Enclosing α → Enclosing β
  | function owner => function (f owner)
  | redefined => redefined
  | topLevel => topLevel

/-- The scopes and symbols of one program, and the scopes now open. -/
structure Table where
  scopes : Array Scope := #[]
  symbols : Array Symbol := #[]
  /-- The open scopes, innermost first. -/
  stack : List Frame := []
  deriving DecidableEq

namespace Table

/-- The table before anything was entered. -/
def empty : Table := {}

/-- The innermost open scope. -/
def top? (t : Table) : Option ScopeId := t.stack.head?.map (·.scope)

/-- The number of open scopes. -/
def depth (t : Table) : Nat := t.stack.length

/-- The id that the next new scope gets. -/
def nextScope (t : Table) : ScopeId := t.scopes.size

/-- The id that the next new symbol gets. -/
def nextSymbol (t : Table) : SymbolId := t.symbols.size

/-- Make a scope inside the innermost open one and open it. -/
def push (t : Table) (name : String) : Table :=
  { t with
    scopes := t.scopes.push { name, parent := t.top? }
    stack := { scope := t.nextScope } :: t.stack }

/-- Close the innermost open scope, if there is one.  The scope stays in the
registry. -/
def pop (t : Table) : Table := { t with stack := t.stack.tail }

/-- Close every open scope. -/
def discard (t : Table) : Table := { t with stack := [] }

/-- The symbol declared under `name` in this very scope. -/
def lookupLocal (t : Table) (scope : ScopeId) (name : String) : Option SymbolId := do
  let s ← t.scopes[scope]?
  (s.bucket (.ofName name)).find? fun id => (t.symbols[id]?).any (·.name = name)

/-- The chain of scopes from `scope?` outwards, at most `bound` of them. -/
def chainWithin (t : Table) : (bound : Nat) → (scope? : Option ScopeId) → List ScopeId
  | 0, _ => []
  | _ + 1, none => []
  | bound + 1, some id =>
    match t.scopes[id]? with
    | none => []
    | some s => id :: t.chainWithin bound s.parent

/-- A scope and the scopes around it, innermost first.  A parent has a smaller
id than its child, so the bound `scope + 1` cuts nothing off. -/
def chain (t : Table) (scope : ScopeId) : List ScopeId :=
  t.chainWithin (scope + 1) (some scope)

/-- The nearest declaration of `name`, from `scope` outwards. -/
def lookup (t : Table) (scope : ScopeId) (name : String) : Option SymbolId :=
  (t.chain scope).findSome? fun s => t.lookupLocal s name

/-- Declare `name` in `scope`, taking the next slot of the innermost open
scope.  A name that is already declared in `scope` itself changes nothing. -/
def declare (t : Table) (scope : ScopeId) (name : String) (ty : Ty) (line : UInt32) :
    Declared × Table :=
  match t.lookupLocal scope name with
  | some id => (.taken id, t)
  | none =>
    let slot := (t.stack.head?.map (·.nextSlot)).getD 0
    (.added t.nextSymbol,
      { scopes := t.scopes.modify scope (·.file name t.nextSymbol)
        symbols := t.symbols.push { name, ty, lines := [line], slot, scope }
        stack := t.stack.modifyHead fun f => { f with nextSlot := f.nextSlot + 1 } })

/-- Record a use of a symbol. -/
def reference (t : Table) (id : SymbolId) (line : UInt32) : Table :=
  { t with symbols := t.symbols.modify id fun s => { s with lines := s.lines ++ [line] } }

/-- Add a parameter to a function. -/
def addParameter (t : Table) (id : SymbolId) (ty : Ty) : Table :=
  { t with symbols := t.symbols.modify id fun s => { s with params := s.params ++ [ty] } }

/-- The type of a symbol. -/
def tyOf? (t : Table) (id : SymbolId) : Option Ty := t.symbols[id]?.map (·.ty)

/-- Whether a symbol is a function. -/
def isFunction (t : Table) (id : SymbolId) : Bool := (t.tyOf? id).any (·.isFunction)

/-- What the name of a scope means in the scope around it, for every scope on
the chain that has one around it, innermost first. -/
def owners (t : Table) (scope : ScopeId) : List SymbolId :=
  let chain := t.chain scope
  (chain.zip chain.tail).filterMap fun (inner, outer) => do
    let s ← t.scopes[inner]?
    t.lookupLocal outer s.name

/-- The function that a scope belongs to.  A block is named like its function,
so the owner is found by name: the nearest function among the owners counts,
and something else of that name only counts if there is no function. -/
def enclosing (t : Table) (scope : ScopeId) : Enclosing SymbolId :=
  let owners := t.owners scope
  match owners.find? t.isFunction with
  | some id => .function id
  | none => if owners.isEmpty then .topLevel else .redefined

/-- The symbols of a scope, by bucket and newest first within a bucket. -/
def symbolsIn (t : Table) (scope : ScopeId) : List Symbol :=
  match t.scopes[scope]? with
  | none => []
  | some s => s.members.filterMap (t.symbols[·]?)

/-- The oldest scope with the given name. -/
def findScope? (t : Table) (name : String) : Option ScopeId :=
  t.scopes.findIdx? (·.name = name)

/-! ## The stack under the operations -/

@[simp] theorem top?_push (t : Table) (name : String) :
    (t.push name).top? = some t.nextScope := rfl

@[simp] theorem depth_push (t : Table) (name : String) :
    (t.push name).depth = t.depth + 1 := rfl

@[simp] theorem depth_pop (t : Table) : t.pop.depth = t.depth - 1 := by
  simp [depth, pop]

@[simp] theorem depth_discard (t : Table) : t.discard.depth = 0 := rfl

/-- A declaration never opens or closes a scope. -/
@[simp] theorem top?_declare (t : Table) (scope : ScopeId) (name : String) (ty : Ty)
    (line : UInt32) : (t.declare scope name ty line).2.top? = t.top? := by
  unfold declare
  split
  · rfl
  · cases h : t.stack <;> simp [top?, h]

/-- A name that is taken leaves the whole table as it was, slots included. -/
theorem declare_of_lookupLocal_eq_some {t : Table} {scope : ScopeId} {name : String}
    {id : SymbolId} (h : t.lookupLocal scope name = some id) (ty : Ty) (line : UInt32) :
    t.declare scope name ty line = (.taken id, t) := by
  simp [declare, h]

end Table

end CMinus
