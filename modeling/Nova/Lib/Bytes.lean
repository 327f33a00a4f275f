import Mathlib.Tactic.Common
import Mathlib.Algebra.Order.Ring.Nat

/-!
# Byte strings

Byte buffers as lists, fixed-width little-endian integers and the UTF-8 form
of a string. Nothing here mentions RDF or the store: these are the octet-level
facts that the codecs above are built from.

* `leNat_leBytes`: reading back `w` little-endian bytes gives the number
  modulo `256 ^ w`, which is exactly what a truncating cast to the wire width
  keeps;
* `fromUtf8_utf8` / `utf8_of_fromUtf8`: a string and its octets determine each
  other.
-/

namespace Nova.Lib

open List

/-- A byte buffer. -/
abbrev Bytes := List UInt8

/-- Bytes are ordered by value, and byte strings then lexicographically. -/
instance byteOrder : LinearOrder UInt8 where
  le_refl := UInt8.le_refl
  le_trans _ _ _ := UInt8.le_trans
  lt_iff_le_not_ge a b := by
    simp only [UInt8.le_iff_toNat_le, UInt8.lt_iff_toNat_lt]
    omega
  le_antisymm a b := UInt8.le_antisymm
  le_total := UInt8.le_total
  toDecidableLE := fun a b => inferInstanceAs (Decidable (a ≤ b))
  toDecidableEq := inferInstance
  toDecidableLT := fun a b => inferInstanceAs (Decidable (a < b))

/-! ## Little-endian integers -/

/-- The `w` low-order bytes of `n`, least significant first. -/
def leBytes : Nat → Nat → Bytes
  | 0, _ => []
  | w + 1, n => UInt8.ofNat n :: leBytes w (n / 256)

/-- The number a little-endian byte list denotes. -/
def leNat : Bytes → Nat
  | [] => 0
  | b :: bs => b.toNat + 256 * leNat bs

@[simp] theorem length_leBytes (w n : Nat) : (leBytes w n).length = w := by
  induction w generalizing n with
  | zero => rfl
  | succ w ih => simp [leBytes, ih]

/-- Reading back `w` bytes gives the value modulo `256 ^ w`. -/
theorem leNat_leBytes (w n : Nat) : leNat (leBytes w n) = n % 256 ^ w := by
  induction w generalizing n with
  | zero => simp [leBytes, leNat, Nat.mod_one]
  | succ w ih =>
    have hbyte : (UInt8.ofNat n).toNat = n % 256 := UInt8.toNat_ofNat'
    rw [leBytes, leNat, ih, hbyte, Nat.pow_succ', Nat.mod_mul]

/-- A byte list of length `w` denotes a number below `256 ^ w`. -/
theorem leNat_lt (bs : Bytes) : leNat bs < 256 ^ bs.length := by
  induction bs with
  | nil => simp [leNat]
  | cons b bs ih =>
    have hb : b.toNat < 256 := b.toNat_lt
    simp only [leNat, length_cons, Nat.pow_succ]
    omega

/-! ## Slices -/

/-- `buf[pos .. pos + len]`, cut short at the end of the buffer. -/
def slice (buf : Bytes) (pos len : Nat) : Bytes := (buf.drop pos).take len

/-- A slice that starts at the end of `pre` reads the middle of the buffer. -/
@[simp] theorem slice_middle (pre mid post : Bytes) :
    slice (pre ++ mid ++ post) pre.length mid.length = mid := by
  simp [slice, append_assoc]

@[simp] theorem slice_length (buf : Bytes) (pos len : Nat) (h : pos + len ≤ buf.length) :
    (slice buf pos len).length = len := by
  simp only [slice, List.length_take, length_drop]
  omega

theorem slice_append (buf ext : Bytes) (pos len : Nat) (h : pos + len ≤ buf.length) :
    slice (buf ++ ext) pos len = slice buf pos len := by
  have hpos : pos ≤ buf.length := by omega
  have hlen : len ≤ (buf.drop pos).length := by simp; omega
  simp only [slice]
  rw [drop_append_of_le_length hpos, take_append_of_le_length hlen]

/-! ## UTF-8 -/

/-- The UTF-8 octets of a string. -/
def utf8 (s : String) : Bytes := s.toByteArray.data.toList

/-- The string whose UTF-8 form is `b`, if there is one. -/
def fromUtf8 (b : Bytes) : Option String := String.fromUTF8? ⟨b.toArray⟩

theorem fromUtf8_utf8 (s : String) : fromUtf8 (utf8 s) = some s := by
  have hbytes : (⟨(utf8 s).toArray⟩ : ByteArray) = s.toByteArray := by simp [utf8]
  simp only [fromUtf8, String.fromUTF8?, hbytes]
  rw [dif_pos s.isValidUTF8]
  rfl

/-- Decoding is sound: the octets of the decoded string are the ones read. -/
theorem utf8_of_fromUtf8 {b : Bytes} {s : String} (h : fromUtf8 b = some s) : utf8 s = b := by
  simp only [fromUtf8, String.fromUTF8?] at h
  split at h
  · cases h
    simp [utf8, String.fromUTF8]
  · cases h

theorem utf8_ofList (cs : List Char) : utf8 (String.ofList cs) = cs.flatMap String.utf8EncodeChar := by
  simp [utf8, List.utf8Encode]

theorem length_utf8_replicate (n : Nat) (c : Char) :
    (utf8 (String.ofList (List.replicate n c))).length = n * (String.utf8EncodeChar c).length := by
  rw [utf8_ofList]
  induction n with
  | zero => simp
  | succ n ih =>
    rw [replicate_succ, flatMap_cons, length_append, ih, Nat.succ_mul]
    omega

end Nova.Lib
