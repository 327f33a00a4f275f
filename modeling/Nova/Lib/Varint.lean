import Nova.Lib.Reader
import Mathlib.Tactic.Ring

/-!
# Unsigned LEB128

Variable-length integers: seven payload bits per byte, least significant group
first, the high bit set on every byte but the last. Values are unbounded here;
a source that carries them in 64 bits never writes more than ten bytes.

`reads_varint` is the round trip at any offset and with anything after it; the
two other readers, of one byte and of a run of bytes, complete what a
length-prefixed format needs (`reads_byte`, `reads_run`).
-/

namespace Nova.Lib

variable {ε : Type}

/-- Seven bits at a time; the high bit says that more follow. -/
def writeVarint (v : Nat) : Bytes :=
  let byte := v &&& 0x7f
  let rest := v >>> 7
  if rest ≠ 0 then UInt8.ofNat (byte ||| 0x80) :: writeVarint rest else [UInt8.ofNat byte]
termination_by v
decreasing_by
  rename_i h
  simp only [Nat.shiftRight_eq_div_pow] at h ⊢
  omega

/-- The reading loop: `result` holds the groups read so far, `shift` how many
bits they fill. -/
def readVarintLoop (eof : ε) (result shift : Nat) (buf : Bytes) (pos : Nat) :
    Except ε (Nat × Nat) :=
  if h : pos < buf.length then
    let byte := buf[pos].toNat
    let result := result ||| ((byte &&& 0x7f) <<< shift)
    if byte &&& 0x80 = 0 then .ok (result, pos + 1)
    else readVarintLoop eof result (shift + 7) buf (pos + 1)
  else .error eof
termination_by buf.length - pos

def readVarint (eof : ε) : Reader ε Nat := fun buf pos => readVarintLoop eof 0 0 buf pos

/-- `buf[*pos]`, then `*pos += 1`. -/
def readByte (eof : ε) : Reader ε UInt8 := fun buf pos =>
  if h : pos < buf.length then .ok (buf[pos], pos + 1) else .error eof

/-- `buf[*pos..*pos + len]`, then `*pos += len`. -/
def readRun (eof : ε) (len : Nat) : Reader ε Bytes := fun buf pos =>
  if pos + len ≤ buf.length then .ok (slice buf pos len, pos + len) else .error eof

/-! ## Progress -/

theorem readVarintLoop_lt {eof : ε} {result shift v : Nat} {buf : Bytes} {pos pos' : Nat}
    (h : readVarintLoop eof result shift buf pos = .ok (v, pos')) : pos < pos' := by
  fun_induction readVarintLoop eof result shift buf pos with
  | case1 result shift pos hlt byte result' hlast =>
    have hpos : pos + 1 = pos' := congrArg Prod.snd (Except.ok.inj h)
    omega
  | case2 result shift pos hlt byte result' hmore ih => exact Nat.lt_of_succ_lt (ih h)
  | case3 result shift pos hge => cases h

theorem forward_varint (eof : ε) : Reader.Forward (readVarint eof) := by
  intro buf pos v pos' h
  exact Nat.le_of_lt (readVarintLoop_lt h)

theorem forward_byte (eof : ε) : Reader.Forward (readByte eof) := by
  intro buf pos b pos' h
  rw [readByte] at h
  split at h
  · cases h
    exact Nat.le_succ pos
  · cases h

theorem forward_run (eof : ε) (len : Nat) : Reader.Forward (readRun eof len) := by
  intro buf pos bs pos' h
  rw [readRun] at h
  split at h
  · cases h
    exact Nat.le_add_right pos len
  · cases h

/-! ## Arithmetic of one group -/

theorem and_low7 (n : Nat) : n &&& 0x7f = n % 128 := Nat.and_two_pow_sub_one_eq_mod n 7

theorem or_high_bit {n : Nat} (h : n < 128) : n ||| 0x80 = n + 128 := by
  have hor := Nat.two_pow_add_eq_or_of_lt (i := 7) h 1
  rw [Nat.or_comm]
  simp only [Nat.reducePow, Nat.mul_one] at hor
  omega

theorem and_high_bit {n : Nat} (h : n < 128) : n &&& 0x80 = 0 := by
  have hall : ∀ m < 128, m &&& 0x80 = 0 := by decide
  exact hall n h

theorem and_high_bit_add {n : Nat} (h : n < 128) : (n + 128) &&& 0x80 = 128 := by
  rw [← or_high_bit h, Nat.and_or_distrib_right, and_high_bit h]
  rfl

theorem or_shiftLeft {r n shift : Nat} (h : r < 2 ^ shift) :
    r ||| (n <<< shift) = r + n * 2 ^ shift := by
  rw [Nat.or_comm, Nat.shiftLeft_eq, Nat.mul_comm n, ← Nat.two_pow_add_eq_or_of_lt h]
  omega

/-! ## Round trips -/

theorem writeVarint_ne_nil (v : Nat) : writeVarint v ≠ [] := by
  rw [writeVarint]
  split <;> simp

/-- The loop reads the groups of `v` on top of what it already holds. -/
theorem readVarintLoop_writeVarint (eof : ε) (v : Nat) :
    ∀ (pre post : Bytes) (result shift : Nat), result < 2 ^ shift →
      readVarintLoop eof result shift (pre ++ writeVarint v ++ post) pre.length =
        .ok (result + v * 2 ^ shift, pre.length + (writeVarint v).length) := by
  induction v using Nat.strongRecOn with
  | ind v ih =>
    intro pre post result shift hres
    have hdiv : v >>> 7 = v / 128 := by simp [Nat.shiftRight_eq_div_pow]
    have hlow : v % 128 < 128 := Nat.mod_lt v (by omega)
    rw [writeVarint]
    simp only [and_low7, hdiv]
    by_cases hrest : v / 128 = 0
    · -- the last group
      have hbyte : (UInt8.ofNat (v % 128)).toNat = v % 128 := by
        rw [UInt8.toNat_ofNat']
        omega
      have hv : v % 128 = v := Nat.mod_eq_of_lt (by omega)
      rw [readVarintLoop]
      simp only [hrest, ne_eq, not_true_eq_false, if_false]
      have hlt : pre.length < (pre ++ [UInt8.ofNat (v % 128)] ++ post).length := by simp
      rw [dif_pos hlt]
      have hget : (pre ++ [UInt8.ofNat (v % 128)] ++ post)[pre.length] = UInt8.ofNat (v % 128) := by
        simp
      rw [hget, hbyte, and_low7, Nat.mod_mod, and_high_bit hlow, or_shiftLeft hres, if_pos rfl, hv]
      simp
    · -- one group, then the rest of the number at the next shift
      have hbyte : (UInt8.ofNat (v % 128 + 128)).toNat = v % 128 + 128 := by
        rw [UInt8.toNat_ofNat']
        omega
      have hmod : (v % 128 + 128) % 128 = v % 128 := by omega
      have hstep : result + v % 128 * 2 ^ shift < 2 ^ (shift + 7) := by
        have hle : v % 128 * 2 ^ shift ≤ 127 * 2 ^ shift := Nat.mul_le_mul_right _ (by omega)
        rw [Nat.pow_add]
        omega
      have hrec := ih (v / 128) (by omega) (pre ++ [UInt8.ofNat (v % 128 + 128)]) post
        (result + v % 128 * 2 ^ shift) (shift + 7) hstep
      rw [readVarintLoop]
      simp only [hrest, ne_eq, not_false_eq_true, if_true, or_high_bit hlow]
      have hlt : pre.length <
          (pre ++ (UInt8.ofNat (v % 128 + 128) :: writeVarint (v / 128)) ++ post).length := by simp
      rw [dif_pos hlt]
      have hget : (pre ++ (UInt8.ofNat (v % 128 + 128) :: writeVarint (v / 128)) ++ post)[pre.length]
          = UInt8.ofNat (v % 128 + 128) := by simp
      have hbuf : pre ++ (UInt8.ofNat (v % 128 + 128) :: writeVarint (v / 128)) ++ post =
          pre ++ [UInt8.ofNat (v % 128 + 128)] ++ writeVarint (v / 128) ++ post := by simp
      have hlen : pre.length + 1 = (pre ++ [UInt8.ofNat (v % 128 + 128)]).length := by simp
      rw [hget, hbyte, and_low7, hmod, and_high_bit_add hlow, or_shiftLeft hres, if_neg (by omega),
        hbuf, hlen, hrec]
      have hsum : result + v % 128 * 2 ^ shift + v / 128 * 2 ^ (shift + 7) =
          result + v * 2 ^ shift := by
        have hv : v = v / 128 * 128 + v % 128 := (Nat.div_add_mod' v 128).symm
        conv_rhs => rw [hv]
        rw [Nat.pow_add, Nat.add_mul]
        ring
      rw [hsum]
      simp
      omega

theorem reads_varint (eof : ε) (v : Nat) : Reader.Reads (readVarint eof) (writeVarint v) v := by
  intro pre post
  have h := readVarintLoop_writeVarint eof v pre post 0 0 (by simp)
  simpa [readVarint] using h

theorem reads_byte (eof : ε) (b : UInt8) : Reader.Reads (readByte eof) [b] b := by
  intro pre post
  simp [readByte]

theorem reads_run (eof : ε) (bs : Bytes) : Reader.Reads (readRun eof bs.length) bs bs := by
  intro pre post
  rw [readRun, if_pos (by simp), slice_middle]

end Nova.Lib
