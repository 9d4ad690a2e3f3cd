import CMinus.Toml.Reader

/-!
# Quoted strings

Four forms: with double quotes, in which a backslash escapes, or with single
quotes, in which nothing does; and each either on one line or, between tripled
quotes, on several.

A multi-line string loses a line end right after its opening quotes, and reads
every line end as a single `\n`.  A run of three or more quotes closes it; up
to two further quotes in that run still belong to the text.  With double
quotes, a backslash at the end of a line joins the next line that is not blank.
-/

namespace CMinus.Toml.Quoted

open Reader

/-- The character that opens and closes an escaping string. -/
def double : Char := '\x22'

/-- The character that opens and closes a string without escapes. -/
def single : Char := '\x27'

/-- A piece of a string, and whether the string ends after it. -/
structure Piece where
  text : String := ""
  last : Bool := false

/-- The pieces up to the last one, joined. -/
def body (piece : Reader Piece) : Reader String :=
  repeating (fun text => do
    let p ← piece
    let text := text ++ p.text
    return if p.last then .inr text else .inl text) ""

/-- The value of one hexadecimal digit. -/
def hexDigit? (c : Char) : Option Nat :=
  if c.isDigit then some (c.toNat - '0'.toNat)
  else if 'a' ≤ c && c ≤ 'f' then some (c.toNat - 'a'.toNat + 10)
  else if 'A' ≤ c && c ≤ 'F' then some (c.toNat - 'A'.toNat + 10)
  else none

/-- A character given by exactly `n` hexadecimal digits; surrogates and numbers
beyond the last code point name no character. -/
def codePoint (n : Nat) : Reader Char := do
  let mut value := 0
  for _ in List.range n do
    let d ← (hexDigit? (← next) : Option Nat)
    value := value * 16 + d
  guard value.isValidChar
  return .ofNat value

/-- What follows a backslash. -/
def escape : Reader Char := do
  match ← next with
  | 'b' => return '\x08'
  | 't' => return '\t'
  | 'n' => return '\n'
  | 'f' => return '\x0c'
  | 'r' => return '\r'
  | 'u' => codePoint 4
  | 'U' => codePoint 8
  | c =>
    guard (c = double || c = '\\')
    return c

/-- A piece of a one-line string with escapes. -/
def basicPiece : Reader Piece := do
  let c ← next
  if c = double then
    return { last := true }
  else if c = '\\' then
    return { text := (← escape).toString }
  else
    guard (isPlain c)
    return { text := c.toString }

/-- A piece of a one-line string without escapes. -/
def literalPiece : Reader Piece := do
  let c ← next
  if c = single then
    return { last := true }
  else
    guard (isPlain c)
    return { text := c.toString }

/-- The quotes at this place: one or two are text, three close the string, and
up to two more before the closing three are text again. -/
def quotes (quote : Char) : Reader Piece := do
  let cs ← get
  let run := (cs.takeWhile (· = quote)).length
  let kept := if run < 3 then run else min (run - 3) 2
  let closing := if run < 3 then 0 else 3
  set (cs.drop (kept + closing))
  return { text := "".pushn quote kept, last := closing = 3 }

/-- Whether a text starts with a line end. -/
def startsWithNewline : List Char → Bool
  | '\n' :: _ | '\r' :: '\n' :: _ => true
  | _ => false

/-- Whether a backslash stands before the end of its line. -/
def joinsLines (afterBackslash : List Char) : Bool :=
  startsWithNewline (afterBackslash.dropWhile isBlank)

/-- Take blanks and line ends. -/
def blankLines : Reader Unit :=
  repeating (fun () => do
    blanks
    if startsWithNewline (← get) then
      newline
      return .inl ()
    else
      return .inr ()) ()

/-- A piece of a multi-line string; `escapes` says whether a backslash does. -/
def linesPiece (quote : Char) (escapes : Bool) : Reader Piece := do
  let c? ← peek
  if c? = some quote then
    quotes quote
  else if c? = some '\n' || c? = some '\r' then
    newline
    return { text := "\n" }
  else
    let c ← next
    if escapes && c = '\\' then
      if joinsLines (← get) then
        blankLines
        return {}
      else
        return { text := (← escape).toString }
    else
      guard (isPlain c)
      return { text := c.toString }

/-- The text of a multi-line string after its opening quotes. -/
def lines (quote : Char) (escapes : Bool) : Reader String := do
  if startsWithNewline (← get) then newline
  body (linesPiece quote escapes)

/-- A string on one line, from its opening quote. -/
def oneLine : Reader String := do
  if ← accept double then
    body basicPiece
  else
    skip single
    body literalPiece

/-- Whether a text starts with three of a character. -/
def tripled (quote : Char) (cs : List Char) : Bool := cs.take 3 = [quote, quote, quote]

/-- A string of any of the four forms, from its opening quotes. -/
def string : Reader String := do
  let cs ← get
  if tripled double cs then
    set (cs.drop 3)
    lines double true
  else if tripled single cs then
    set (cs.drop 3)
    lines single false
  else
    oneLine

end CMinus.Toml.Quoted
