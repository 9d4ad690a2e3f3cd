/-!
# Document values

The value of a TOML document or of a part of it.  Floats and date-times are
kept as they were written: a program contains neither, so all that matters is
that they were well formed.  A table keeps its entries in the order in which
they were made; its keys are distinct, which the reader sees to.
-/

namespace CMinus.Toml

/-- A document value. -/
inductive Value where
  | string (text : String)
  | integer (n : Int64)
  | boolean (b : Bool)
  /-- A floating-point number, as written. -/
  | float (literal : String)
  /-- A date, a time, or both, as written. -/
  | moment (literal : String)
  | array (items : List Value)
  | table (entries : List (String × Value))

namespace Value

/-- The text of a string. -/
def string? : Value → Option String
  | string text => some text
  | _ => none

/-- The number of an integer. -/
def integer? : Value → Option Int64
  | integer n => some n
  | _ => none

/-- An integer from 0 to `2 ^ 32 - 1`; nothing is ever rounded or wrapped. -/
def word? (v : Value) : Option UInt32 := do
  let n ← v.integer?
  if 0 ≤ n.toInt ∧ n.toInt < UInt32.size then some (.ofNat n.toInt.toNat) else none

/-- The same integer as a document value. -/
def ofWord (n : UInt32) : Value := integer (.ofNat n.toNat)

end Value

end CMinus.Toml
