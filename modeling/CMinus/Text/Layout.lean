/-!
# Nested layout

Text in which every part stands on lines of its own and parts of parts are
indented by four spaces.  Each part of a group is followed by a comma, the last
one included, and a line end.

A layout is a function of its depth that adds to a text, so that a tree of any
size is written out in one pass.
-/

namespace CMinus.Text

/-- A part of a nested text: given its depth and the text so far, the text with
the part added.  It neither starts nor ends with a line end. -/
abbrev Layout := (depth : Nat) → (written : String) → String

namespace Layout

/-- A part on a single line. -/
def atom (s : String) : Layout := fun _ written => written ++ s

/-- A line end and the indentation of the line that follows. -/
def newLine (depth : Nat) (written : String) : String :=
  (written ++ "\n").pushn ' ' (4 * depth)

/-- Parts between two brackets, each on lines of its own. -/
def group (opening closing : String) (parts : List Layout) : Layout := fun depth written =>
  let inside := parts.foldl (fun text part => part (depth + 1) (newLine (depth + 1) text) ++ ",")
    (written ++ opening)
  newLine depth inside ++ closing

/-- A name applied to one part. -/
def apply (name : String) (part : Layout) : Layout := group (name ++ "(") ")" [part]

/-- A part with a title on its first line. -/
def titled (title : String) (part : Layout) : Layout := fun depth written =>
  part depth (written ++ title ++ ": ")

/-- A name with titled parts. -/
def record (name : String) (parts : List (String × Layout)) : Layout :=
  group (name ++ " \x7b") "\x7d" (parts.map fun (title, part) => titled title part)

/-- A list of parts. -/
def list (parts : List Layout) : Layout := group "[" "]" parts

/-- A part that may be absent. -/
def optional : Option Layout → Layout
  | none => atom "None"
  | some part => apply "Some" part

/-- The finished text. -/
def render (l : Layout) : String := l 0 ""

end Layout

end CMinus.Text
