import Mathlib.Algebra.BigOperators.Fin
import Mathlib.Tactic.Ring
import CMinus.Table.Hash

/-!
# The bucket of a name in closed form

A bucket is computed byte by byte, and the remainder is taken after every byte.  In
the end that makes no difference: the bucket is the remainder of one number, the
polynomial in 16 whose coefficients are the bytes of the name (`Bucket.ofBytes_eq`).
Where a name is cut in two, its bucket follows from the buckets of the parts and the
length of the second (`Bucket.ofBytes_append`).

What the remainders do buy is that the computation never leaves twelve bits.
`Guarded.bucket` has no result as soon as a number does not fit in a word, and
`Bucket.inWord` drops what does not fit.  In words of twelve bits or more both compute
the bucket (`Guarded.bucket_eq`, `Bucket.toNat_inWord`).
-/

namespace CMinus

namespace Bucket

/-- The bytes of a name. -/
def bytesOf (name : String) : List UInt8 := name.toUTF8.data.toList

/-- The bytes as coefficients of a polynomial in 16, from the highest power down. -/
def polynomial (bytes : List UInt8) : Nat :=
  ∑ i : Fin bytes.length, bytes[i].toNat * 16 ^ (bytes.length - (i + 1))

/-- Append one digit in a word, in which a shift or a sum loses what exceeds it. -/
def stepInWord {width : Nat} (acc : BitVec width) (byte : UInt8) : BitVec width :=
  ((acc <<< 4) + BitVec.ofNat width byte.toNat) % BitVec.ofNat width bucketCount

/-- The bucket of a string of bytes, computed in a word. -/
def inWord (width : Nat) (bytes : List UInt8) : BitVec width := bytes.foldl stepInWord 0

end Bucket

namespace Guarded

/-- A number, if it fits in a word. -/
def word (width n : Nat) : Option Nat := if n < 2 ^ width then some n else none

/-- Append one digit, as long as every number on the way fits. -/
def appendDigit (width acc : Nat) (byte : UInt8) : Option Nat := do
  let shifted ← word width (acc <<< 4)
  let sum ← word width (shifted + byte.toNat)
  word width (sum % bucketCount)

/-- The bucket of a string of bytes, without a result if some number did not fit. -/
def bucket (width : Nat) (bytes : List UInt8) : Option Nat :=
  bytes.foldlM (appendDigit width) 0

end Guarded

namespace Bucket

/-! ## The closed form -/

@[simp] theorem polynomial_nil : polynomial [] = 0 := rfl

theorem polynomial_cons (byte : UInt8) (bytes : List UInt8) :
    polynomial (byte :: bytes) = byte.toNat * 16 ^ bytes.length + polynomial bytes := by
  have hsplit := Fin.sum_univ_succ fun i : Fin (bytes.length + 1) =>
    (byte :: bytes)[i].toNat * 16 ^ (bytes.length + 1 - (i + 1))
  simpa [polynomial] using hsplit

/-- One digit at a time, remainders included, gives the remainder of the whole. -/
theorem val_foldl_step (acc : Bucket) (bytes : List UInt8) :
    (bytes.foldl step acc).val =
      (acc.val * 16 ^ bytes.length + polynomial bytes) % bucketCount := by
  induction bytes generalizing acc with
  | nil => simp [Nat.mod_eq_of_lt acc.isLt]
  | cons byte bytes ih =>
      have hstep : (step acc byte).val = (acc.val * 16 + byte.toNat) % bucketCount := by
        simp [step, Nat.shiftLeft_eq]
      have hcollect : (acc.val * 16 + byte.toNat) * 16 ^ bytes.length + polynomial bytes =
          acc.val * 16 ^ (byte :: bytes).length + polynomial (byte :: bytes) := by
        rw [polynomial_cons, List.length_cons, pow_succ]
        ring
      calc ((byte :: bytes).foldl step acc).val
          = ((step acc byte).val * 16 ^ bytes.length + polynomial bytes) % bucketCount :=
            ih (step acc byte)
        _ = ((acc.val * 16 + byte.toNat) * 16 ^ bytes.length + polynomial bytes) %
              bucketCount := by
            -- the remainder of the step is absorbed by that of the whole
            rw [hstep, Nat.add_mod, Nat.mod_mul_mod, ← Nat.add_mod]
        _ = _ := by rw [hcollect]

/-- A bucket is the remainder of the polynomial. -/
theorem ofBytes_eq (bytes : List UInt8) :
    (ofBytes bytes).val = polynomial bytes % bucketCount := by
  simp [ofBytes, val_foldl_step]

/-- The bucket of a whole from the buckets of its parts. -/
theorem ofBytes_append (u v : List UInt8) :
    (ofBytes (u ++ v)).val =
      ((ofBytes u).val * 16 ^ v.length + (ofBytes v).val) % bucketCount := by
  rw [ofBytes, List.foldl_append, ← ofBytes, val_foldl_step, ofBytes_eq v, Nat.add_mod_mod]

theorem bytesOf_append (name other : String) :
    bytesOf (name ++ other) = bytesOf name ++ bytesOf other := by
  rw [bytesOf, String.toUTF8, String.toByteArray_append, ByteArray.data_append,
    Array.toList_append]
  rfl

theorem length_bytesOf (name : String) : (bytesOf name).length = name.utf8ByteSize := by
  rw [bytesOf, Array.length_toList, ByteArray.size_data]
  rfl

end Bucket

/-! ## The width of a word -/

section Width

variable (spare : Nat)

theorem lt_two_pow_of_lt {n : Nat} (h : n < 2 ^ 12) : n < 2 ^ (12 + spare) :=
  Nat.lt_of_lt_of_le h (Nat.pow_le_pow_right (by decide) (Nat.le_add_right 12 spare))

/-- What a digit is appended to is a bucket, so that the sum has twelve bits. -/
theorem Bucket.shift_add_lt (acc : Bucket) (byte : UInt8) :
    (acc.val <<< 4) + byte.toNat < 2 ^ (12 + spare) := by
  have hacc : acc.val < 211 := acc.isLt
  have hbyte : byte.toNat < 256 := byte.toNat_lt
  apply lt_two_pow_of_lt
  rw [Nat.shiftLeft_eq]
  omega

theorem Bucket.shift_lt (acc : Bucket) : acc.val <<< 4 < 2 ^ (12 + spare) := by
  simpa using acc.shift_add_lt spare 0

namespace Guarded

theorem word_eq {width n : Nat} (h : n < 2 ^ width) : word width n = some n := if_pos h

/-- A digit is appended to a bucket without leaving the word. -/
theorem appendDigit_eq (acc : Bucket) (byte : UInt8) :
    appendDigit (12 + spare) acc.val byte = some (Bucket.step acc byte).val := by
  have hsum := acc.shift_add_lt spare byte
  have hrest : ((acc.val <<< 4) + byte.toNat) % bucketCount < 2 ^ (12 + spare) :=
    Nat.lt_of_le_of_lt (Nat.mod_le _ _) hsum
  simp only [appendDigit, word_eq (acc.shift_lt spare), word_eq hsum, word_eq hrest, bind,
    Option.bind_some]
  rfl

theorem foldlM_appendDigit (acc : Bucket) (bytes : List UInt8) :
    bytes.foldlM (appendDigit (12 + spare)) acc.val =
      some (bytes.foldl Bucket.step acc).val := by
  induction bytes generalizing acc with
  | nil => rfl
  | cons byte bytes ih =>
      rw [List.foldlM_cons, appendDigit_eq, List.foldl_cons]
      exact ih (Bucket.step acc byte)

/-- Nothing that computing a bucket goes through exceeds twelve bits. -/
theorem bucket_eq (bytes : List UInt8) :
    bucket (12 + spare) bytes = some (Bucket.ofBytes bytes).val :=
  foldlM_appendDigit spare ⟨0, by decide⟩ bytes

end Guarded

namespace Bucket

/-- A word that holds a bucket holds the next one after a digit. -/
theorem toNat_stepInWord {word : BitVec (12 + spare)} {acc : Bucket}
    (h : word.toNat = acc.val) (byte : UInt8) :
    (stepInWord word byte).toNat = (step acc byte).val := by
  have hsum := acc.shift_add_lt spare byte
  have hbyte : byte.toNat < 2 ^ (12 + spare) :=
    Nat.lt_of_le_of_lt (Nat.le_add_left _ _) hsum
  have hcount : bucketCount < 2 ^ (12 + spare) := lt_two_pow_of_lt spare (by decide)
  rw [stepInWord, BitVec.toNat_umod, BitVec.toNat_add, BitVec.toNat_shiftLeft,
    BitVec.toNat_ofNat, BitVec.toNat_ofNat, h, Nat.mod_eq_of_lt (acc.shift_lt spare),
    Nat.mod_eq_of_lt hbyte, Nat.mod_eq_of_lt hsum, Nat.mod_eq_of_lt hcount]
  rfl

theorem toNat_foldl_stepInWord {word : BitVec (12 + spare)} {acc : Bucket}
    (h : word.toNat = acc.val) (bytes : List UInt8) :
    (bytes.foldl stepInWord word).toNat = (bytes.foldl step acc).val := by
  induction bytes generalizing word acc with
  | nil => exact h
  | cons byte bytes ih => exact ih (toNat_stepInWord spare h byte)

/-- Words of twelve bits or more lose nothing. -/
theorem toNat_inWord (bytes : List UInt8) :
    (inWord (12 + spare) bytes).toNat = (ofBytes bytes).val := by
  have hzero : (0 : BitVec (12 + spare)).toNat = (⟨0, by decide⟩ : Bucket).val := by simp
  exact toNat_foldl_stepInWord spare hzero bytes

end Bucket

end Width

/-- The bucket of a name is its polynomial modulo the number of buckets, computed
without ever needing more than twelve bits.  It can be told from the buckets of two
parts of the name, wherever it is cut, and two names in a row have the bucket that
follows from theirs. -/
theorem Bucket.ofName_polynomial (name : String) :
    (ofName name).val = polynomial (bytesOf name) % bucketCount ∧
      (ofName name).val < bucketCount ∧
      (∀ spare, Guarded.bucket (12 + spare) (bytesOf name) = some (ofName name).val ∧
        (inWord (12 + spare) (bytesOf name)).toNat = (ofName name).val) ∧
      (∀ cut, (ofName name).val =
        ((ofBytes ((bytesOf name).take cut)).val * 16 ^ ((bytesOf name).drop cut).length +
          (ofBytes ((bytesOf name).drop cut)).val) % bucketCount) ∧
      ∀ other, (ofName (name ++ other)).val =
        ((ofName name).val * 16 ^ other.utf8ByteSize + (ofName other).val) % bucketCount := by
  have hname : ∀ name, ofName name = ofBytes (bytesOf name) := fun _ => rfl
  refine ⟨ofBytes_eq (bytesOf name), (ofName name).isLt, ?_, ?_, ?_⟩
  · intro spare
    exact ⟨Guarded.bucket_eq spare (bytesOf name), toNat_inWord spare (bytesOf name)⟩
  · intro cut
    rw [← ofBytes_append, List.take_append_drop, hname]
  · intro other
    rw [hname, hname, hname, bytesOf_append, ofBytes_append, length_bytesOf]

example : Bucket.bytesOf "né" = [110, 195, 169] ∧
    (Bucket.ofName "né").val = (110 * 16 ^ 2 + 195 * 16 ^ 1 + 169 * 16 ^ 0) % 211 := by
  decide

end CMinus
