import Nova.Core.Term
import Mathlib.Algebra.Order.Ring.Nat
import Mathlib.Tactic.Ring

/-!
# Term and graph identifiers

All internal computation runs over 40-bit term ids and 8-bit graph ids. A
`TermId` carries its bound, so an id that does not fit in a packed key cannot
be built. `packQuad` lays the four ids out in one 128-bit key,

    g[127:120] | s[119:80] | p[79:40] | o[39:0]

and `unpackQuad_packQuad` takes it apart again.
-/

namespace Nova

/-- `MAX_TERM_ID`: 2^40 − 1. -/
def maxTermId : Nat := 2 ^ 40 - 1

/-- A 40-bit term identifier. -/
structure TermId where
  asU64 : Nat
  le_max : asU64 ≤ maxTermId
deriving DecidableEq

theorem TermId.eq_of_asU64 {a b : TermId} (h : a.asU64 = b.asU64) : a = b := by
  rcases a with ⟨a, ha⟩
  rcases b with ⟨b, hb⟩
  simpa using h

theorem TermId.lt_two_pow (a : TermId) : a.asU64 < 2 ^ 40 := by
  have h := a.le_max
  simp only [maxTermId] at h
  omega

/-- `TermId::new`: the only way to make an id out of a raw number. -/
def TermId.new (id : Nat) : Except Oxigraph TermId :=
  if h : id ≤ maxTermId then .ok ⟨id, h⟩ else .error .idSpaceExhausted

theorem TermId.new_eq_ok {n : Nat} {id : TermId} (h : TermId.new n = .ok id) : id.asU64 = n := by
  rw [TermId.new] at h
  split at h
  · cases h
    rfl
  · cases h

@[simp] theorem TermId.new_asU64 (id : TermId) : TermId.new id.asU64 = .ok id := by
  rw [TermId.new, dif_pos id.le_max]

/-- An 8-bit graph identifier; 0 is the default graph. -/
abbrev GraphId := UInt8

def graphDefault : GraphId := 0

/-! ## Packed keys -/

/-- `Dictionary::pack_quad`. -/
def packQuad (g : GraphId) (s p o : TermId) : Nat :=
  (g.toNat <<< 120) ||| (s.asU64 <<< 80) ||| (p.asU64 <<< 40) ||| o.asU64

theorem and_maxTermId_le (n : Nat) : n &&& maxTermId ≤ maxTermId := Nat.and_le_right

/-- `Dictionary::unpack_quad`. -/
def unpackQuad (key : Nat) : GraphId × TermId × TermId × TermId :=
  (UInt8.ofNat ((key >>> 120) &&& 0xFF),
    ⟨(key >>> 80) &&& maxTermId, and_maxTermId_le _⟩,
    ⟨(key >>> 40) &&& maxTermId, and_maxTermId_le _⟩,
    ⟨key &&& maxTermId, and_maxTermId_le _⟩)

theorem shiftLeft_or_field (a n : Nat) {b : Nat} (hb : b < 2 ^ 40) :
    a <<< (n + 40) ||| b <<< n = (a * 2 ^ 40 + b) <<< n := by
  have hlt : b <<< n < 2 ^ (n + 40) := by
    rw [Nat.shiftLeft_eq, Nat.pow_add, Nat.mul_comm]
    exact Nat.mul_lt_mul_of_pos_left hb (Nat.two_pow_pos n)
  rw [← Nat.shiftLeft_add_eq_or_of_lt hlt, Nat.shiftLeft_eq, Nat.shiftLeft_eq, Nat.shiftLeft_eq]
  ring

theorem packQuad_eq (g : GraphId) (s p o : TermId) :
    packQuad g s p o = ((g.toNat * 2 ^ 40 + s.asU64) * 2 ^ 40 + p.asU64) * 2 ^ 40 + o.asU64 := by
  rw [packQuad, shiftLeft_or_field g.toNat 80 s.lt_two_pow, shiftLeft_or_field _ 40 p.lt_two_pow,
    ← Nat.shiftLeft_add_eq_or_of_lt o.lt_two_pow, Nat.shiftLeft_eq]

theorem and_maxTermId (n : Nat) : n &&& maxTermId = n % 2 ^ 40 := Nat.and_two_pow_sub_one_eq_mod n 40

theorem unpackQuad_packQuad (g : GraphId) (s p o : TermId) :
    unpackQuad (packQuad g s p o) = (g, s, p, o) := by
  have hg := g.toNat_lt
  have hs := s.lt_two_pow
  have hp := p.lt_two_pow
  have ho := o.lt_two_pow
  have hmask : ∀ n : Nat, n &&& 0xFF = n % 2 ^ 8 := fun n => Nat.and_two_pow_sub_one_eq_mod n 8
  have hgraph : UInt8.ofNat ((packQuad g s p o >>> 120) &&& 0xFF) = g := by
    apply UInt8.toNat_inj.mp
    rw [UInt8.toNat_ofNat', hmask, packQuad_eq, Nat.shiftRight_eq_div_pow]
    omega
  simp only [unpackQuad, Prod.mk.injEq]
  refine ⟨hgraph, ?_, ?_, ?_⟩
  · apply TermId.eq_of_asU64
    simp only [and_maxTermId, packQuad_eq, Nat.shiftRight_eq_div_pow]
    omega
  · apply TermId.eq_of_asU64
    simp only [and_maxTermId, packQuad_eq, Nat.shiftRight_eq_div_pow]
    omega
  · apply TermId.eq_of_asU64
    simp only [and_maxTermId, packQuad_eq]
    omega

theorem packQuad_injective {g g' : GraphId} {s s' p p' o o' : TermId}
    (h : packQuad g s p o = packQuad g' s' p' o') : g = g' ∧ s = s' ∧ p = p' ∧ o = o' := by
  have hu := unpackQuad_packQuad g s p o
  rw [h, unpackQuad_packQuad] at hu
  simp only [Prod.mk.injEq] at hu
  exact ⟨hu.1.symm, hu.2.1.symm, hu.2.2.1.symm, hu.2.2.2.symm⟩

end Nova
