import Mathlib.Data.Nat.Size
import Mathlib.Algebra.Order.Ring.Int
import Mathlib.Tactic.Ring
import Mathlib.Tactic.Linarith

/-!
# Rounding to a number of bits

`roundTo p n` is the integer with at most `p` significant bits that is nearest to `n`,
and the one with an even last bit where two are equally near: what a binary floating-point
format with `p` bits makes of an integer that is not too large for its exponent.

* `hasBits_roundTo`: it has at most `p` bits;
* `roundTo_nearest`: no integer with `p` bits is nearer;
* `roundTo_eq_self_iff`: the integers with `p` bits are those that stay;
* `natAbs_roundTo_le`: rounding does not pass a power of two.
-/

namespace Nova.Lib

/-- At most `p` significant bits. -/
def HasBits (p : Nat) (n : Int) : Prop := ∃ (m : Int) (e : Nat), m.natAbs < 2 ^ p ∧ n = m * 2 ^ e

/-- The nearest of the multiples of `2 ^ e`; of two, the even one. -/
def roundAt (e n : Nat) : Nat :=
  if 2 * (n % 2 ^ e) < 2 ^ e ∨ 2 * (n % 2 ^ e) = 2 ^ e ∧ n / 2 ^ e % 2 = 0 then n / 2 ^ e * 2 ^ e
  else (n / 2 ^ e + 1) * 2 ^ e

def roundNat (p n : Nat) : Nat := roundAt (n.size - p) n

/-- Rounding to nearest, ties to even. -/
def roundTo (p : Nat) (n : Int) : Int := n.sign * roundNat p n.natAbs

variable {p e n : Nat}

theorem roundAt_cases (e n : Nat) : ∃ q, (roundAt e n = q * 2 ^ e) ∧ (q = n / 2 ^ e ∨ q = n / 2 ^ e + 1) := by
  unfold roundAt
  split
  · exact ⟨_, rfl, Or.inl rfl⟩
  · exact ⟨_, rfl, Or.inr rfl⟩

theorem roundAt_nearest {d : Nat} (hd : d ≤ n / 2 ^ e * 2 ^ e ∨ (n / 2 ^ e + 1) * 2 ^ e ≤ d) :
    |(n : Int) - roundAt e n| ≤ |(n : Int) - d| := by
  have hpos : 0 < 2 ^ e := Nat.two_pow_pos e
  have hdiv : n / 2 ^ e * 2 ^ e + n % 2 ^ e = n := by
    rw [Nat.mul_comm]
    exact Nat.div_add_mod n (2 ^ e)
  have hmod : n % 2 ^ e < 2 ^ e := Nat.mod_lt n hpos
  have hnext : (n / 2 ^ e + 1) * 2 ^ e = n / 2 ^ e * 2 ^ e + 2 ^ e := Nat.succ_mul _ _
  unfold roundAt
  rw [hnext]
  generalize n / 2 ^ e * 2 ^ e = low at *
  generalize n % 2 ^ e = r at *
  generalize 2 ^ e = step at *
  split
  · next hlow =>
    have hr : 2 * r ≤ step := by
      rcases hlow with hlt | heq
      · exact hlt.le
      · exact heq.1.le
    rw [abs_of_nonneg (by omega), le_abs]
    omega
  · next hhigh =>
    rw [abs_of_nonpos (by push_cast; omega), le_abs]
    push_cast
    omega

/-- What is cut off a number with more bits leaves `p` of them. -/
theorem div_lt_two_pow (p n : Nat) : n / 2 ^ (n.size - p) < 2 ^ p := by
  rw [Nat.div_lt_iff_lt_mul (Nat.two_pow_pos _), ← Nat.pow_add]
  exact lt_of_lt_of_le (Nat.lt_size_self n) (Nat.pow_le_pow_right Nat.two_pos (by omega))

theorem le_div_two_pow (h : p < n.size) : 2 ^ (p - 1) ≤ n / 2 ^ (n.size - p) ∨ p = 0 := by
  cases p with
  | zero => exact Or.inr rfl
  | succ p =>
    refine Or.inl ((Nat.le_div_iff_mul_le (Nat.two_pow_pos _)).mpr ?_)
    rw [← Nat.pow_add]
    exact Nat.lt_size.mp (by omega)

theorem hasBits_roundNat (hp : 0 < p) (n : Nat) : HasBits p (roundNat p n) := by
  obtain ⟨q, hq, hcases⟩ := roundAt_cases (n.size - p) n
  have hlt := div_lt_two_pow p n
  have hle : q ≤ 2 ^ p := by
    rcases hcases with rfl | rfl
    · exact hlt.le
    · exact hlt
  rcases Nat.lt_or_eq_of_le hle with hlt | heq
  · refine ⟨q, n.size - p, by simpa using hlt, ?_⟩
    rw [roundNat, hq]
    push_cast
    rfl
  · -- the carry leaves a power of two
    refine ⟨1, p + (n.size - p), Nat.one_lt_two_pow hp.ne', ?_⟩
    rw [roundNat, hq, heq, ← Nat.pow_add]
    push_cast
    ring

/-- No number with `p` bits lies strictly between the two neighbours. -/
theorem not_between (hp : 0 < p) {m f : Nat} (hm : m < 2 ^ p) :
    m * 2 ^ f ≤ n / 2 ^ (n.size - p) * 2 ^ (n.size - p) ∨
      (n / 2 ^ (n.size - p) + 1) * 2 ^ (n.size - p) ≤ m * 2 ^ f := by
  by_cases hfe : n.size - p ≤ f
  · -- a multiple of the step
    obtain ⟨k, rfl⟩ := Nat.exists_eq_add_of_le hfe
    have hsplit : m * 2 ^ (n.size - p + k) = m * 2 ^ k * 2 ^ (n.size - p) := by
      ring
    rw [hsplit]
    rcases Nat.lt_or_ge (n / 2 ^ (n.size - p)) (m * 2 ^ k) with hlt | hge
    · exact Or.inr (Nat.mul_le_mul_right _ hlt)
    · exact Or.inl (Nat.mul_le_mul_right _ hge)
  · -- below the powers of two that have the step
    refine Or.inl ?_
    have hlead := (le_div_two_pow (p := p) (n := n) (by omega)).resolve_right hp.ne'
    have hle : m * 2 ^ f ≤ 2 ^ (p - 1) * 2 ^ (n.size - p) := by
      calc m * 2 ^ f ≤ 2 ^ p * 2 ^ f := Nat.mul_le_mul_right _ hm.le
        _ = 2 ^ (p + f) := (Nat.pow_add 2 p f).symm
        _ ≤ 2 ^ (p - 1 + (n.size - p)) := Nat.pow_le_pow_right Nat.two_pos (by omega)
        _ = 2 ^ (p - 1) * 2 ^ (n.size - p) := Nat.pow_add 2 _ _
    exact hle.trans (Nat.mul_le_mul_right _ hlead)

theorem roundNat_nearest (hp : 0 < p) {d : Nat} (hd : HasBits p d) (n : Nat) :
    |(n : Int) - roundNat p n| ≤ |(n : Int) - d| := by
  obtain ⟨m, f, hm, heq⟩ := hd
  have hd' : d = m.natAbs * 2 ^ f := by
    have habs := congrArg Int.natAbs heq
    rw [Int.natAbs_mul, Int.natAbs_natCast, Int.natAbs_pow] at habs
    exact habs
  rw [hd']
  exact roundAt_nearest (not_between hp hm)

theorem HasBits.neg {k : Int} (h : HasBits p k) : HasBits p (-k) := by
  obtain ⟨m, f, hm, rfl⟩ := h
  exact ⟨-m, f, by rwa [Int.natAbs_neg], by ring⟩

theorem HasBits.natAbs {k : Int} (h : HasBits p k) : HasBits p k.natAbs := by
  rcases Int.natAbs_eq k with heq | heq
  · rwa [← heq]
  · have hneg := h.neg
    rw [heq, neg_neg] at hneg
    exact hneg

theorem hasBits_of_lt {k : Int} (h : k.natAbs < 2 ^ p) : HasBits p k := ⟨k, 0, h, by ring⟩

theorem hasBits_two_pow (hp : 0 < p) (k : Nat) : HasBits p (2 ^ k) :=
  ⟨1, k, Nat.one_lt_two_pow hp.ne', by ring⟩

theorem roundTo_neg (p : Nat) (k : Int) : roundTo p (-k) = -roundTo p k := by
  rw [roundTo, roundTo, Int.sign_neg, Int.natAbs_neg, Int.neg_mul]

theorem roundTo_natCast (p n : Nat) : roundTo p n = roundNat p n := by
  rcases Nat.eq_zero_or_pos n with rfl | hpos
  · simp [roundTo, roundNat, roundAt]
  · rw [roundTo, Int.sign_natCast_of_ne_zero hpos.ne', Int.natAbs_natCast, Int.one_mul]

theorem hasBits_roundTo (hp : 0 < p) (k : Int) : HasBits p (roundTo p k) := by
  rcases Int.natAbs_eq k with heq | heq
  · rw [heq, roundTo_natCast]
    exact hasBits_roundNat hp _
  · rw [heq, roundTo_neg, roundTo_natCast]
    exact (hasBits_roundNat hp _).neg

/-- No number with `p` bits is nearer. -/
theorem roundTo_nearest (hp : 0 < p) {d : Int} (hd : HasBits p d) (k : Int) : |k - roundTo p k| ≤ |k - d| := by
  have hdist : |(k.natAbs : Int) - roundNat p k.natAbs| ≤ |k - d| := by
    have hnat := roundNat_nearest hp hd.natAbs k.natAbs
    refine hnat.trans ?_
    rw [Int.natCast_natAbs, Int.natCast_natAbs]
    exact abs_abs_sub_abs_le_abs_sub k d
  rcases Int.natAbs_eq k with heq | heq
  · calc |k - roundTo p k| = |(k.natAbs : Int) - roundNat p k.natAbs| := by
          rw [← roundTo_natCast, ← heq]
      _ ≤ |k - d| := hdist
  · calc |k - roundTo p k| = |(k.natAbs : Int) - roundNat p k.natAbs| := by
          rw [← roundTo_natCast, ← abs_neg (k - _), neg_sub', ← roundTo_neg, heq, neg_neg, Int.natAbs_neg,
            Int.natAbs_natCast]
      _ ≤ |k - d| := hdist

/-- The numbers with `p` bits are those that are not rounded. -/
theorem roundTo_eq_self_iff (hp : 0 < p) {k : Int} : roundTo p k = k ↔ HasBits p k := by
  constructor
  · intro heq
    rw [← heq]
    exact hasBits_roundTo hp k
  · intro hk
    have hzero := roundTo_nearest hp hk k
    rw [sub_self, abs_zero, abs_nonpos_iff, sub_eq_zero] at hzero
    exact hzero.symm

theorem natAbs_roundTo_le (hp : 0 < p) {k : Int} {b : Nat} (hk : |k| ≤ 2 ^ b) : |roundTo p k| ≤ 2 ^ b := by
  have hpow : HasBits p (2 ^ b) := hasBits_two_pow hp b
  have hhigh := roundTo_nearest hp hpow k
  have hlow := roundTo_nearest hp hpow.neg k
  rw [abs_le] at hk ⊢
  rw [abs_of_nonpos (by linarith : k - 2 ^ b ≤ 0)] at hhigh
  rw [abs_of_nonneg (by linarith : 0 ≤ k - -2 ^ b)] at hlow
  have hleft := (abs_le.mp hhigh).1
  have hright := (abs_le.mp hlow).2
  constructor
  · linarith
  · linarith

end Nova.Lib
