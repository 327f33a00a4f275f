import Mathlib.Algebra.Order.Ring.Nat
import Mathlib.Data.List.Perm.Basic
import Mathlib.Algebra.BigOperators.Group.List.Basic

/-!
# Taking from the heads of lists

`Takes xss ys zss`: the elements `ys` can be taken one by one from the heads of the lists
`xss`, and leave the lists `zss`. Each list is taken in its own order, the lists in any.
-/

namespace Nova.Lib

open List

inductive Takes {α : Type} : List (List α) → List α → List (List α) → Prop
  | nil (xss : List (List α)) : Takes xss [] xss
  | cons {xss zss : List (List α)} {y : α} {ys rest : List α} (i : Nat) (hhead : xss[i]? = some (y :: rest))
    (htail : Takes (xss.set i rest) ys zss) : Takes xss (y :: ys) zss

/-- How many elements the lists have. -/
def total {α : Type} (xss : List (List α)) : Nat := (xss.map List.length).sum

namespace Takes

variable {α : Type} {xss mid zss : List (List α)} {ys zs rest : List α} {y : α} {i : Nat}

theorem append (h : Takes xss ys mid) (h' : Takes mid zs zss) : Takes xss (ys ++ zs) zss := by
  induction h with
  | nil _ => exact h'
  | cons i hhead _ ih => exact .cons i hhead (ih h')

theorem split (h : Takes xss (ys ++ zs) zss) : ∃ mid, Takes xss ys mid ∧ Takes mid zs zss := by
  induction ys generalizing xss with
  | nil => exact ⟨xss, .nil xss, h⟩
  | cons y ys ih =>
    cases h with
    | cons i hhead htail =>
      rcases ih htail with ⟨mid, hys, hzs⟩
      exact ⟨mid, .cons i hhead hys, hzs⟩

theorem snoc (h : Takes xss ys zss) (hhead : zss[i]? = some (y :: rest)) :
    Takes xss (ys ++ [y]) (zss.set i rest) :=
  h.append (.cons i hhead (.nil _))

theorem perm (h : Takes xss ys zss) : xss.flatten.Perm (ys ++ zss.flatten) := by
  induction h with
  | nil _ => exact List.Perm.refl _
  | @cons xss zss y ys rest i hhead _ ih =>
    rcases List.getElem?_eq_some_iff.mp hhead with ⟨hi, hget⟩
    have hxss : xss = xss.take i ++ (y :: rest) :: xss.drop (i + 1) := by
      rw [← hget, getElem_cons_drop, take_append_drop]
    have hset : xss.set i rest = xss.take i ++ rest :: xss.drop (i + 1) := by
      rw [set_eq_take_append_cons_drop, if_pos hi]
    rw [hset] at ih
    rw [hxss]
    simp only [flatten_append, flatten_cons] at ih ⊢
    refine perm_middle.trans ?_
    exact List.Perm.cons y ih

theorem total_eq (h : Takes xss ys zss) : total xss = ys.length + total zss := by
  have hlen := h.perm.length_eq
  rwa [length_append, length_flatten, length_flatten] at hlen

end Takes

end Nova.Lib
