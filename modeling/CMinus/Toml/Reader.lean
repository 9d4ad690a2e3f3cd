/-!
# Reading characters

A reader takes characters from the front of a list and gives a result, or
fails.  Nothing is ever put back: the next character decides what is read, and
a failure is the failure of the whole document.

A repetition is bounded by the number of characters that are left when it
starts.  Every round of every repetition takes at least one character, so the
bound is never what ends it; it only makes the recursion plain.
-/

namespace CMinus.Toml

/-- A reader of characters. -/
abbrev Reader := StateT (List Char) Option

namespace Reader

/-- The next character, without taking it. -/
def peek : Reader (Option Char) := do return (← get).head?

/-- Take one character. -/
def next : Reader Char := do
  match ← get with
  | [] => failure
  | c :: rest => set rest; return c

/-- Take one character that must be this one. -/
def skip (c : Char) : Reader Unit := do guard ((← next) = c)

/-- Take this character if it is next, and say whether it was. -/
def accept (c : Char) : Reader Bool := do
  if (← peek) = some c then
    skip c
    return true
  else
    return false

/-- Take the longest run of characters of a class. -/
def span (p : Char → Bool) : Reader (List Char) := do
  let cs ← get
  set (cs.dropWhile p)
  return cs.takeWhile p

/-- At most `bound` rounds of `step`, which yields either the value for the
next round or the result. -/
def iterate {α β : Type} (step : α → Reader (α ⊕ β)) : (bound : Nat) → α → Reader β
  | 0, _ => failure
  | bound + 1, a => do
    match ← step a with
    | .inl a => iterate step bound a
    | .inr b => return b

/-- As many rounds of `step` as it takes. -/
def repeating {α β : Type} (step : α → Reader (α ⊕ β)) (a : α) : Reader β := do
  iterate step ((← get).length + 1) a

/-- Whether a reader takes the whole of a text. -/
def takesAll {α : Type} (r : Reader α) (cs : List Char) : Bool :=
  match r.run cs with
  | some (_, []) => true
  | _ => false

end Reader

/-- Blanks within a line. -/
def isBlank (c : Char) : Bool := c = ' ' || c = '\t'

/-- What may stand in a comment, or unescaped in a string, apart from the
delimiters: everything but control characters, the tab excepted. -/
def isPlain (c : Char) : Bool := c = '\t' || (' ' ≤ c && c ≠ '\x7f')

namespace Reader

/-- Take the blanks within a line. -/
def blanks : Reader Unit := do discard (span isBlank)

/-- Take one line end. -/
def newline : Reader Unit := do
  match ← next with
  | '\n' => return
  | '\r' => skip '\n'
  | _ => failure

/-- Take a comment, up to the line end. -/
def comment : Reader Unit := do
  skip '#'
  discard (span isPlain)

/-- Take a line end, or find the text at its end. -/
def lineEnd : Reader Unit := do
  if (← peek).isSome then newline

/-- Take what may follow a complete entry on its line. -/
def restOfLine : Reader Unit := do
  blanks
  if (← peek) = some '#' then comment
  lineEnd

/-- Take blanks, line ends and comments. -/
def filler : Reader Unit :=
  repeating (fun () => do
    match ← peek with
    | some ' ' | some '\t' => blanks; return .inl ()
    | some '\n' | some '\r' => newline; return .inl ()
    | some '#' => comment; return .inl ()
    | _ => return .inr ()) ()

end Reader

end CMinus.Toml
