/-!
# Padding

Columns are padded with spaces to a least width; a longer text is kept whole
and pushes the rest of its line to the right.  Width counts characters, not
bytes, so a name with accents lines up like any other.
-/

namespace CMinus.Text

/-- That many spaces. -/
def spaces (n : Nat) : String := "".pushn ' ' n

/-- The text, then spaces up to the width. -/
def padRight (width : Nat) (s : String) : String := s ++ spaces (width - s.length)

/-- Spaces up to the width, then the text. -/
def padLeft (width : Nat) (s : String) : String := spaces (width - s.length) ++ s

end CMinus.Text
