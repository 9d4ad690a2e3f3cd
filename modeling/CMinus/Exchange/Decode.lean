import CMinus.Exchange.Outline
import CMinus.Toml.Document

/-!
# Programs as documents

A program is handed over as a document whose only key, `program`, holds the
list of top-level nodes.  A node is a table with the keys `line`, `kind` and,
unless it has no children, `children`: a list of slots, each a list of nodes.
A kind is a word; if it has attributes, it is a table with that word as its
one key, and the attributes as the value.

Two liberties are part of the format.  Any record may also be written as a
list of its fields in order, and items beyond the last field do not count; and
a word without attributes may be written as a table too, with an empty value.
There are no others: an unknown key, a missing or repeated one, or a value of
another type refuses the whole document, and no value is converted.

Decoding finishes before the outline is examined, so a document that is wrong
in both ways is refused for its format.
-/

namespace CMinus

open Toml

/-- The fields of a record, in order, from a table that has these keys and no
others or from a list that has at least as many items. -/
def Toml.Value.fields? (keys : List String) : Value → Option (List Value)
  | .table entries =>
    if entries.length = keys.length then keys.mapM (entries.lookup ·) else none
  | .array items => if keys.length ≤ items.length then some (items.take keys.length) else none
  | _ => none

/-- A choice: a word alone, or a word with a value of its own. -/
inductive Choice where
  | word (tag : String)
  | tagged (tag : String) (content : Value)

namespace Choice

/-- A word is a string; a tagged value is a table with one key. -/
def ofValue? : Value → Option Choice
  | .string tag => some (word tag)
  | .table [(tag, content)] => some (tagged tag content)
  | _ => none

/-- The tag of a choice without attributes: nothing, or something empty, stands
beside it. -/
def plain? : Choice → Option String
  | word tag => some tag
  | tagged tag (.table []) => some tag
  | tagged tag (.array []) => some tag
  | tagged .. => none

/-- The attributes of a choice that has some, in order. -/
def fields? (keys : List String) : Choice → Option (List Value)
  | word _ => none
  | tagged _ content => content.fields? keys

/-- The tag of a choice. -/
def tag : Choice → String
  | word tag => tag
  | tagged tag _ => tag

end Choice

/-- A type word. -/
def Spec.ofValue? (v : Value) : Option Spec := do
  match ← (← Choice.ofValue? v).plain? with
  | "int" => some .int
  | "void" => some .void
  | _ => none

/-- An operator sign. -/
def BinOp.ofValue? (v : Value) : Option BinOp := do
  match ← (← Choice.ofValue? v).plain? with
  | "+" => some .add
  | "-" => some .sub
  | "*" => some .mul
  | "/" => some .div
  | "<" => some .lt
  | "<=" => some .le
  | ">" => some .gt
  | ">=" => some .ge
  | "==" => some .eq
  | "!=" => some .ne
  | _ => none

namespace Kind

/-- A kind without attributes, by its word. -/
def ofWord? : String → Option Kind
  | "compound" => some .compound
  | "if" => some .ifThen
  | "if-else" => some .ifElse
  | "while" => some .whileDo
  | "return" => some .returnValue
  | "void-return" => some .returnVoid
  | "assign" => some .assign
  | _ => none

/-- The attributes `name` and `type`. -/
def named (make : String → Spec → Kind) (c : Choice) : Option Kind := do
  match ← c.fields? ["name", "type"] with
  | [name, spec] => some (make (← name.string?) (← Spec.ofValue? spec))
  | _ => none

/-- A single attribute. -/
def single {α : Type} (key : String) (read : Value → Option α) (make : α → Kind)
    (c : Choice) : Option Kind := do
  match ← c.fields? [key] with
  | [v] => some (make (← read v))
  | _ => none

/-- The attributes of an array declaration. -/
def sized (c : Choice) : Option Kind := do
  match ← c.fields? ["name", "type", "size"] with
  | [name, spec, size] =>
    some (.arrayDecl (← name.string?) (← Spec.ofValue? spec) (← size.word?))
  | _ => none

/-- The kind that a choice stands for. -/
def ofChoice? (c : Choice) : Option Kind :=
  match c.tag with
  | "var-decl" => named .varDecl c
  | "array-decl" => sized c
  | "fun-decl" => named .funDecl c
  | "param" => named .param c
  | "array-param" => named .arrayParam c
  | "op" => single "op" BinOp.ofValue? .op c
  | "const" => single "value" Value.integer? .const c
  | "var" => single "name" Value.string? .var c
  | "call" => single "name" Value.string? .call c
  | _ => c.plain?.bind ofWord?

/-- The kind that a value describes. -/
def ofValue? (v : Value) : Option Kind := (Choice.ofValue? v).bind ofChoice?

end Kind

/-- The fields of a node that were found so far. -/
structure NodeFields where
  line : Option UInt32 := none
  kind : Option Kind := none
  slots : Option OutlineSlots := none

mutual

/-- A node: a table of its fields, or the list of them. -/
def NodeFields.ofValue? : Value → Option NodeFields
  | .table entries => NodeFields.ofEntries? entries
  | .array [line, kind] => do
    some { line := some (← line.word?), kind := some (← Kind.ofValue? kind) }
  | .array (line :: kind :: children :: _) => do
    some
      { line := some (← line.word?)
        kind := some (← Kind.ofValue? kind)
        slots := some (← OutlineSlots.ofValue? children) }
  | _ => none

/-- The fields of a node in any order, each at most once and no others. -/
def NodeFields.ofEntries? : List (String × Value) → Option NodeFields
  | [] => some {}
  | (key, v) :: rest => do
    let fields ← NodeFields.ofEntries? rest
    match key with
    | "line" =>
      guard fields.line.isNone
      some { fields with line := some (← v.word?) }
    | "kind" =>
      guard fields.kind.isNone
      some { fields with kind := some (← Kind.ofValue? v) }
    | "children" =>
      guard fields.slots.isNone
      some { fields with slots := some (← OutlineSlots.ofValue? v) }
    | _ => none

/-- A list of nodes.  Line and kind are required; without children, a node has
no slots. -/
def Outline.ofValues? : List Value → Option Outline
  | [] => some .nil
  | v :: rest => do
    let fields ← NodeFields.ofValue? v
    let rest ← Outline.ofValues? rest
    some (.node (← fields.line) (← fields.kind) (fields.slots.getD .nil) rest)

/-- The children of a node. -/
def OutlineSlots.ofValue? : Value → Option OutlineSlots
  | .array slots => OutlineSlots.ofValues? slots
  | _ => none

/-- A list of slots. -/
def OutlineSlots.ofValues? : List Value → Option OutlineSlots
  | [] => some .nil
  | .array chain :: more => do
    some (.cons (← Outline.ofValues? chain) (← OutlineSlots.ofValues? more))
  | _ :: _ => none

end

/-- The outline of a document: the nodes under `program`, or none at all if
the document is empty. -/
def Outline.ofDocument? : List (String × Value) → Option Outline
  | [] => some .nil
  | [("program", .array nodes)] => Outline.ofValues? nodes
  | _ => none

namespace Exchange

/-- The tree that a text describes. -/
def parse (source : String) : Except Failure Forest :=
  match Document.parse source with
  | none => .error (.badFormat "the text is not a well-formed document")
  | some entries =>
    match Outline.ofDocument? entries with
    | none => .error (.badFormat "the document does not describe a program")
    | some outline => outline.toForest

end Exchange

end CMinus
