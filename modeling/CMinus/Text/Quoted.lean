import CMinus.Text.Shown

/-!
# Quoted text

A text between double quotes, with a backslash in front of what would end or
disturb it.  Characters that cannot be shown are given by their code point in
hexadecimal digits, between braces.
-/

namespace CMinus.Text

/-- A character inside quotes. -/
def quoteChar (c : Char) : String :=
  if c = '\x00' then "\\0"
  else if c = '\t' then "\\t"
  else if c = '\n' then "\\n"
  else if c = '\r' then "\\r"
  else if c = '\x22' then "\\\x22"
  else if c = '\\' then "\\\\"
  else if isShown c then c.toString
  else "\\u\x7b" ++ String.ofList (Nat.toDigits 16 c.toNat) ++ "\x7d"

/-- A text with its quotes. -/
def quote (s : String) : String :=
  "\x22" ++ String.join (s.toList.map quoteChar) ++ "\x22"

end CMinus.Text
