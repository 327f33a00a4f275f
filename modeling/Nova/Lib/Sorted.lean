import Mathlib.Data.List.Pairwise
import Mathlib.Algebra.Order.Ring.Nat
import Mathlib.Tactic.Common

/-!
# Sets as ascending lists

An ordered set is its strictly increasing list of elements. `insertKey` puts an
element in its place, `ofList` sorts a list and drops what occurs twice, and
`union` adds one set to another. All of them keep the order and have the expected
members.
-/

namespace Nova.Lib.Sorted

open List

variable {α : Type} [LinearOrder α]

/-- Puts an element in its place, unless it is there. -/
def insertKey (x : α) : List α → List α
  | [] => [x]
  | y :: ys => if x < y then x :: y :: ys else if x = y then y :: ys else y :: insertKey x ys

/-- Adds the elements of a list to a set. -/
def union (l set : List α) : List α := l.foldr insertKey set

/-- The elements of a list, in order and each once. -/
def ofList (l : List α) : List α := union l []

variable {set : List α}

theorem mem_insertKey {x y : α} : y ∈ insertKey x set ↔ y = x ∨ y ∈ set := by
  fun_induction insertKey x set with
  | case1 => rw [mem_singleton, or_iff_left not_mem_nil]
  | case2 z zs hlt => rw [mem_cons]
  | case3 zs hlt => simp only [mem_cons, or_self_left]
  | case4 z zs hlt hne ih =>
    rw [mem_cons, ih, mem_cons]
    tauto

theorem pairwise_insertKey {x : α} (h : set.Pairwise (· < ·)) : (insertKey x set).Pairwise (· < ·) := by
  fun_induction insertKey x set with
  | case1 => exact pairwise_singleton _ _
  | case2 z zs hlt =>
    refine pairwise_cons.mpr ⟨?_, h⟩
    intro w hw
    rcases mem_cons.mp hw with rfl | hw
    · exact hlt
    · exact lt_trans hlt ((pairwise_cons.mp h).1 w hw)
  | case3 zs hlt => exact h
  | case4 z zs hlt hne ih =>
    rcases pairwise_cons.mp h with ⟨hz, hzs⟩
    refine pairwise_cons.mpr ⟨?_, ih hzs⟩
    intro w hw
    rcases mem_insertKey.mp hw with rfl | hw
    · exact lt_of_le_of_ne (le_of_not_gt hlt) (Ne.symm hne)
    · exact hz w hw

@[simp] theorem mem_union {l : List α} {x : α} : x ∈ union l set ↔ x ∈ l ∨ x ∈ set := by
  unfold union
  induction l with
  | nil => simp
  | cons y ys ih =>
    rw [foldr_cons, mem_insertKey, ih, mem_cons]
    tauto

theorem pairwise_union {l : List α} (h : set.Pairwise (· < ·)) : (union l set).Pairwise (· < ·) := by
  induction l with
  | nil => exact h
  | cons y ys ih => exact pairwise_insertKey ih

@[simp] theorem mem_ofList {l : List α} {x : α} : x ∈ ofList l ↔ x ∈ l := by
  rw [ofList, mem_union, or_iff_left not_mem_nil]

theorem pairwise_ofList (l : List α) : (ofList l).Pairwise (· < ·) := pairwise_union .nil

end Nova.Lib.Sorted
