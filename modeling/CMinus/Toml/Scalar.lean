import CMinus.Toml.Reader
import CMinus.Toml.Value

/-!
# Numbers, dates and truth values

Everything that is written without quotes.  Such a scalar is the longest run
of the characters that can occur in one, and is classified as a whole: what
follows a scalar is never one of these characters, so nothing shorter could be
meant.  A date may be joined to a time by one space, which the reader of
values looks out for.

Numbers follow one rule for grouping: an underscore stands between two digits
and nowhere else.
-/

namespace CMinus.Toml.Scalar

open Reader

/-- The characters of an unquoted scalar. -/
def isScalarChar (c : Char) : Bool :=
  c.isAlphanum || c = '+' || c = '-' || c = '_' || c = '.' || c = ':'

/-! ## Integers -/

/-- The digits of a grouped number, without the underscores. -/
def grouped (isDigit : Char → Bool) : List Char → Option (List Char)
  | [] => none
  | [c] => if isDigit c then some [c] else none
  | c :: '_' :: rest => if isDigit c then (c :: ·) <$> grouped isDigit rest else none
  | c :: rest => if isDigit c then (c :: ·) <$> grouped isDigit rest else none

/-- The value of a digit, in any base up to sixteen. -/
def digitValue (c : Char) : Nat :=
  if c.isDigit then c.toNat - '0'.toNat
  else if 'a' ≤ c && c ≤ 'f' then c.toNat - 'a'.toNat + 10
  else c.toNat - 'A'.toNat + 10

/-- Whether a character is a digit of the given base. -/
def isDigitIn (base : Nat) (c : Char) : Bool :=
  (c.isDigit || ('a' ≤ c && c ≤ 'f') || ('A' ≤ c && c ≤ 'F')) && digitValue c < base

/-- The number with the given digits. -/
def ofDigits (base : Nat) (digits : List Char) : Nat :=
  digits.foldl (fun n c => n * base + digitValue c) 0

/-- The digits of a decimal number; only the number zero starts with a zero. -/
def decimalDigits (cs : List Char) : Option (List Char) := do
  let digits ← grouped Char.isDigit cs
  guard (digits.length = 1 || digits.head? ≠ some '0')
  return digits

/-- An integer, if it fits in 64 bits. -/
def bounded (n : Int) : Option Int64 :=
  if Int64.minValue.toInt ≤ n ∧ n ≤ Int64.maxValue.toInt then some (.ofInt n) else none

/-- A sign and what follows it. -/
def signed : List Char → Bool × List Char
  | '-' :: rest => (true, rest)
  | '+' :: rest => (false, rest)
  | cs => (false, cs)

/-- An integer: decimal with an optional sign, or in base 16, 8 or 2 without. -/
def integer? (cs : List Char) : Option Int64 :=
  let inBase (base : Nat) (rest : List Char) := do
    let digits ← grouped (isDigitIn base) rest
    bounded (ofDigits base digits)
  match cs with
  | '0' :: 'x' :: rest => inBase 16 rest
  | '0' :: 'o' :: rest => inBase 8 rest
  | '0' :: 'b' :: rest => inBase 2 rest
  | cs => do
    let (negative, rest) := signed cs
    let n := ofDigits 10 (← decimalDigits rest)
    bounded (if negative then -n else n)

/-! ## Floating-point numbers -/

/-- The least number that is too large for a double: half-way from the largest
one to `2 ^ 1024`. -/
def doubleBound : Nat := Nat.pow 2 1024 - Nat.pow 2 970

/-- Whether `digits * 10 ^ exponent` is too large for a double.  The number of
digits before the point decides except in one decade, where both sides are
compared exactly. -/
def overflows (digits : List Char) (exponent : Int) : Bool :=
  let digits := digits.dropWhile (· = '0')
  let size := exponent + digits.length
  if digits.isEmpty || size < 309 then false
  else if size > 309 then true
  else if 0 ≤ exponent then doubleBound ≤ ofDigits 10 digits * Nat.pow 10 exponent.toNat
  else doubleBound * Nat.pow 10 (-exponent).toNat ≤ ofDigits 10 digits

/-- A float has a fraction, an exponent or both, or is one of the two special
words.  A positive one must not be too large. -/
def isFloat (cs : List Char) : Bool :=
  let (negative, cs) := signed cs
  if cs = ['i', 'n', 'f'] || cs = ['n', 'a', 'n'] then true
  else
    let isMark (c : Char) : Bool := c = 'e' || c = 'E'
    let mantissa := cs.takeWhile (!isMark ·)
    let whole := mantissa.takeWhile (· ≠ '.')
    let fraction? := (mantissa.dropWhile (· ≠ '.')).tail?
    let exponent? := (cs.dropWhile (!isMark ·)).tail?
    let fits := do
      guard (fraction?.isSome || exponent?.isSome)
      let whole ← decimalDigits whole
      let fraction ← match fraction? with
        | none => some []
        | some fraction => grouped Char.isDigit fraction
      let exponent ← match exponent? with
        | none => some (0 : Int)
        | some exponent => do
          let (down, digits) := signed exponent
          let n := ofDigits 10 (← grouped Char.isDigit digits)
          some (if down then -(n : Int) else n)
      return negative || !overflows (whole ++ fraction) (exponent - fraction.length)
    fits.getD false

/-! ## Dates and times -/

/-- Exactly `n` digits. -/
def digits (n : Nat) : Reader Nat := do
  let mut value := 0
  for _ in List.range n do
    let c ← next
    guard c.isDigit
    value := value * 10 + digitValue c
  return value

/-- The number of days of a month. -/
def monthLength (year month : Nat) : Nat :=
  let leap := year % 4 = 0 && (year % 100 ≠ 0 || year % 400 = 0)
  match month with
  | 2 => if leap then 29 else 28
  | 4 | 6 | 9 | 11 => 30
  | _ => 31

/-- A date of the calendar. -/
def date : Reader Unit := do
  let year ← digits 4
  skip '-'
  let month ← digits 2
  guard (1 ≤ month && month ≤ 12)
  skip '-'
  let day ← digits 2
  guard (1 ≤ day && day ≤ monthLength year month)

/-- Hours and minutes. -/
def hourMinute : Reader Unit := do
  guard ((← digits 2) ≤ 23)
  skip ':'
  guard ((← digits 2) ≤ 59)

/-- A time of day, to any fraction of a second; a leap second counts. -/
def time : Reader Unit := do
  hourMinute
  skip ':'
  guard ((← digits 2) ≤ 60)
  if ← accept '.' then
    guard !(← span Char.isDigit).isEmpty

/-- The distance from universal time. -/
def offset : Reader Unit := do
  match ← next with
  | 'Z' | 'z' => return
  | '+' | '-' => hourMinute
  | _ => failure

/-- A date, then possibly a time, then possibly an offset. -/
def dateTime : Reader Unit := do
  date
  match ← peek with
  | none => return
  | some _ =>
    let mark ← next
    guard (mark = 'T' || mark = 't' || mark = ' ')
    time
    if (← peek).isSome then offset

/-- Whether a scalar is a date and nothing else, so that a time may follow. -/
def isDate (cs : List Char) : Bool := date.takesAll cs

/-- A date, a time, or both. -/
def isMoment (cs : List Char) : Bool := dateTime.takesAll cs || time.takesAll cs

/-! ## Scalars -/

/-- The value of an unquoted scalar. -/
def ofChars? (cs : List Char) : Option Value :=
  if cs = ['t', 'r', 'u', 'e'] then some (.boolean true)
  else if cs = ['f', 'a', 'l', 's', 'e'] then some (.boolean false)
  else match integer? cs with
    | some n => some (.integer n)
    | none =>
      if isFloat cs then some (.float (String.ofList cs))
      else if isMoment cs then some (.moment (String.ofList cs))
      else none

/-- Read an unquoted scalar.  A date takes in a time that follows after one
space. -/
def scalar : Reader Value := do
  let cs ← span isScalarChar
  let more ← get
  match isDate cs, more with
  | true, ' ' :: c :: _ =>
    if c.isDigit then
      skip ' '
      let time ← span isScalarChar
      (ofChars? (cs ++ ' ' :: time) : Option Value)
    else
      ofChars? cs
  | _, _ => ofChars? cs

end CMinus.Toml.Scalar
