import CMinus.Table.Listing

/-!
# Requests to a table

The operations and queries of a table as data, with every id checked before it
is used.  `Table.answer` is `none` exactly when a request names a scope, a
symbol or a bucket that does not exist; in every other case the reply is what
the function of the same name returns.
-/

namespace CMinus

/-- One operation or query. -/
inductive Request where
  | push (name : String)
  | pop
  | discard
  | top
  | depth
  | declare (scope : ScopeId) (name : String) (ty : Ty) (line : UInt32)
  | lookup (scope : ScopeId) (name : String)
  | lookupLocal (scope : ScopeId) (name : String)
  | reference (symbol : SymbolId) (line : UInt32)
  | addParameter (symbol : SymbolId) (ty : Ty)
  | symbol (symbol : SymbolId)
  /-- The first line of a copy of the symbol without its first lines. -/
  | firstLine (symbol : SymbolId) (without : Nat)
  | scope (scope : ScopeId)
  | bucket (scope : ScopeId) (bucket : Nat)
  | symbolsIn (scope : ScopeId)
  | enclosing (scope : ScopeId)
  | findScope (name : String)
  | listing
  | dump
  deriving DecidableEq

/-- One scope with all that can be asked about it. -/
structure ScopeView where
  name : String
  parent : Option ScopeId
  symbols : List Symbol
  enclosing : Enclosing SymbolId

/-- The answer to a request. -/
inductive Reply where
  | done
  | number (n : Nat)
  | maybe (id : Option Nat)
  | declared (d : Declared)
  | symbol (s : Symbol)
  | line (line : UInt32)
  | scope (name : String) (parent : Option ScopeId)
  | ids (ids : List SymbolId)
  | names (names : List String)
  | enclosing (e : Enclosing SymbolId)
  | text (text : String)
  | scopes (scopes : List ScopeView)

namespace Table

/-- Every scope in the order of creation, with its symbols and its owner. -/
def views (t : Table) : List ScopeView :=
  t.scopes.toList.mapIdx fun id s =>
    { name := s.name, parent := s.parent, symbols := t.symbolsIn id, enclosing := t.enclosing id }

/-- Whether the table has a scope of this id. -/
def hasScope (t : Table) (id : ScopeId) : Bool := id < t.scopes.size

/-- Carry out a request, or refuse one that names something the table lacks. -/
def answer (t : Table) : Request → Option (Reply × Table)
  | .push name => some (.number t.nextScope, t.push name)
  | .pop => some (.done, t.pop)
  | .discard => some (.done, t.discard)
  | .top => some (.maybe t.top?, t)
  | .depth => some (.number t.depth, t)
  | .declare scope name ty line => do
    guard (t.hasScope scope)
    let (d, t) := t.declare scope name ty line
    some (.declared d, t)
  | .lookup scope name => do
    guard (t.hasScope scope)
    some (.maybe (t.lookup scope name), t)
  | .lookupLocal scope name => do
    guard (t.hasScope scope)
    some (.maybe (t.lookupLocal scope name), t)
  | .reference symbol line => do
    let t := t.reference symbol line
    some (.symbol (← t.symbols[symbol]?), t)
  | .addParameter symbol ty => do
    let t := t.addParameter symbol ty
    some (.symbol (← t.symbols[symbol]?), t)
  | .symbol symbol => do some (.symbol (← t.symbols[symbol]?), t)
  | .firstLine symbol without => do
    let s ← t.symbols[symbol]?
    some (.line { s with lines := s.lines.drop without }.firstLine, t)
  | .scope scope => do
    let s ← t.scopes[scope]?
    some (.scope s.name s.parent, t)
  | .bucket scope bucket => do
    let s ← t.scopes[scope]?
    if h : bucket < bucketCount then some (.ids (s.bucket ⟨bucket, h⟩), t) else none
  | .symbolsIn scope => do
    guard (t.hasScope scope)
    some (.names ((t.symbolsIn scope).map (·.name)), t)
  | .enclosing scope => do
    guard (t.hasScope scope)
    some (.enclosing (t.enclosing scope), t)
  | .findScope name => some (.maybe (t.findScope? name), t)
  | .listing => some (.text t.listing, t)
  | .dump => some (.scopes t.views, t)

end Table

end CMinus
