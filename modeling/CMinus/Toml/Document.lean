import CMinus.Toml.Draft
import CMinus.Toml.Quoted
import CMinus.Toml.Scalar

/-!
# Documents

The reader of a whole document.  A document is a sequence of lines, each of
them blank, a header, or a key with its value; a value may run over several
lines.  The result is the table of the document, or nothing at all if any part
of the text is wrong.

Nesting is limited.  Arrays and inline tables may be nested less than eighty
levels deep, and a dotted key has less than eighty parts.  The limit is what
the recursion of `value` runs on, so no other bound is needed.
-/

namespace CMinus.Toml

open Reader

/-- Levels of nesting and parts of a key stay below this. -/
def nestingLimit : Nat := 80

namespace Document

/-- The characters of a key without quotes. -/
def isKeyChar (c : Char) : Bool := c.isAlphanum || c = '_' || c = '-'

/-- One part of a key. -/
def keyPart : Reader String := do
  let c? ← peek
  if c? = some Quoted.double || c? = some Quoted.single then
    Quoted.oneLine
  else
    let cs ← span isKeyChar
    guard !cs.isEmpty
    return String.ofList cs

/-- A key as the path to its last part, and that part. -/
def key : Reader (List String × String) := do
  let parts ← repeating (fun parts => do
    blanks
    let parts := parts ++ [← keyPart]
    blanks
    return if ← accept '.' then .inl parts else .inr parts) ([] : List String)
  guard (parts.length < nestingLimit)
  match parts.getLast? with
  | none => failure
  | some last => return (parts.dropLast, last)

/-- An array, given how to read an item.  A comma may follow the last item. -/
def array (item : Reader Value) : Reader Value := do
  skip '['
  let items ← repeating (fun items => do
    filler
    if ← accept ']' then return .inr items
    let items := items ++ [← item]
    filler
    if ← accept ',' then return .inl items
    skip ']'
    return .inr items) ([] : List Value)
  return .array items

/-- An inline table, given how to read an item.  It stands on one line, and no
comma follows the last entry. -/
def inlineTable (item : Reader Value) : Reader Value := do
  skip '\x7b'
  blanks
  if ← accept '\x7d' then return .table []
  let entries ← repeating (fun entries => do
    let (path, last) ← key
    skip '='
    blanks
    let v ← item
    blanks
    let entries ← (Entries.assign path last v entries : Option Entries)
    if ← accept ',' then return .inl entries
    skip '\x7d'
    return .inr entries) ([] : Entries)
  return .table entries.finish

/-- A value without parts. -/
def simple : Reader Value := do
  let c? ← peek
  if c? = some Quoted.double || c? = some Quoted.single then
    return .string (← Quoted.string)
  else
    Scalar.scalar

/-- A value with at most `room` levels of nesting. -/
def value : (room : Nat) → Reader Value
  | 0 => simple
  | room + 1 => do
    match ← peek with
    | some '[' => array (value room)
    | some '\x7b' => inlineTable (value room)
    | _ => simple

/-- What a line of a document says. -/
inductive Line where
  | table (path : List String) (last : String)
  | element (path : List String) (last : String)
  | entry (path : List String) (last : String) (v : Value)

/-- A header, in single or double brackets. -/
def header : Reader Line := do
  skip '['
  let double ← accept '['
  let (path, last) ← key
  skip ']'
  if double then skip ']'
  restOfLine
  return if double then .element path last else .table path last

/-- A key with its value. -/
def entry : Reader Line := do
  let (path, last) ← key
  skip '='
  blanks
  let v ← value (nestingLimit - 1)
  restOfLine
  return .entry path last v

/-- The lines of a document that say something. -/
def lines : Reader (List Line) :=
  repeating (fun seen => do
    blanks
    match ← peek with
    | none => return .inr seen
    | some '#' => comment; lineEnd; return .inl seen
    | some '\n' | some '\r' => newline; return .inl seen
    | some '[' => return .inl (seen ++ [← header])
    | some _ => return .inl (seen ++ [← entry])) []

/-- A document under construction: its table, and the table that was opened
last. -/
structure Progress where
  root : Entries := []
  opened : List String := []

/-- Carry out one line. -/
def Progress.add (p : Progress) : Line → Option Progress
  | .table path last => do
    some { root := ← p.root.openTable path last, opened := path ++ [last] }
  | .element path last => do
    some { root := ← p.root.openElement path last, opened := path ++ [last] }
  | .entry path last v => do
    some { p with root := ← p.root.assignAt p.opened path last v }

/-- The table of a list of lines. -/
def ofLines (lines : List Line) : Option (List (String × Value)) := do
  let p ← lines.foldlM Progress.add {}
  some p.root.finish

/-- The table of a text.  A byte order mark in front is not part of it. -/
def parse (source : String) : Option (List (String × Value)) := do
  let cs := match source.toList with
    | '\ufeff' :: rest => rest
    | cs => cs
  let (lines, _) ← lines.run cs
  ofLines lines

end Document

end CMinus.Toml
