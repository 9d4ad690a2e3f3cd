/-!
# The bucket of a name

A scope files its symbols in 211 buckets.  The bucket of a name is the value
of its UTF-8 bytes as digits in base 16, modulo 211; the remainder is taken
after every byte, so no intermediate value exceeds `210 * 16 + 255`.  The
order of a listing depends on these numbers, so they are part of what the
table promises and not only a way to search it faster.
-/

namespace CMinus

/-- The number of buckets of a scope. -/
abbrev bucketCount : Nat := 211

/-- A bucket index. -/
abbrev Bucket := Fin bucketCount

namespace Bucket

/-- Append one digit: shift by four bits, add, and take the remainder. -/
def step (acc : Bucket) (byte : UInt8) : Bucket :=
  ⟨((acc.val <<< 4) + byte.toNat) % bucketCount, Nat.mod_lt _ (by decide)⟩

/-- The bucket of a string of bytes. -/
def ofBytes (bytes : List UInt8) : Bucket := bytes.foldl step ⟨0, by decide⟩

/-- The bucket that a name is filed in. -/
def ofName (name : String) : Bucket := ofBytes name.toUTF8.data.toList

end Bucket

end CMinus
