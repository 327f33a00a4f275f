import Mathlib.Data.Finset.Card
import Mathlib.Data.Nat.Find
import Mathlib.Logic.Function.Iterate
import Mathlib.Logic.Relation

/-!
# Forests of pointers

A function `P` points from every element to another, a root to itself. `RootOf P t r`: the
pointers lead from `t` to the root `r`.

* `rootIn_of_finite`: they do in as many steps as there are elements that are no roots;
* `RootMap.compress`, `RootMap.link`: what pointing an element at its root, and a root at
  another root, does to the roots;
* `Classes.link`: so a union-find has the classes of the pairs that it was given.
-/

namespace Nova.Lib

variable {α : Type} {P : α → α} {t r r' : α} {n : Nat}

/-- After `n` steps the pointers are at the root. -/
def RootIn (P : α → α) (n : Nat) (t r : α) : Prop := P^[n] t = r ∧ P r = r

def RootOf (P : α → α) (t r : α) : Prop := ∃ n, RootIn P n t r

theorem iterate_of_fixed (h : P r = r) (n : Nat) : P^[n] r = r := Function.iterate_fixed h n

theorem RootIn.mono {m : Nat} (h : RootIn P n t r) (hle : n ≤ m) : RootIn P m t r := by
  obtain ⟨k, rfl⟩ := Nat.exists_eq_add_of_le hle
  refine ⟨?_, h.2⟩
  rw [Nat.add_comm, Function.iterate_add_apply, h.1, iterate_of_fixed h.2]

theorem rootIn_succ : RootIn P (n + 1) t r ↔ RootIn P n (P t) r := by
  unfold RootIn
  rw [Function.iterate_succ_apply]

theorem RootOf.unique (h : RootOf P t r) (h' : RootOf P t r') : r = r' := by
  obtain ⟨n, hn⟩ := h
  obtain ⟨m, hm⟩ := h'
  have hn' := hn.mono (Nat.le_max_left n m)
  have hm' := hm.mono (Nat.le_max_right n m)
  exact hn'.1.symm.trans hm'.1

theorem rootOf_self (h : P r = r) : RootOf P r r := ⟨0, rfl, h⟩

theorem rootOf_step : RootOf P (P t) r ↔ RootOf P t r := by
  constructor
  · rintro ⟨n, hn⟩
    exact ⟨n + 1, rootIn_succ.mpr hn⟩
  · rintro ⟨n, hn⟩
    exact ⟨n, rootIn_succ.mp (hn.mono (Nat.le_succ n))⟩

/-- On the way no element is met twice, so the way is no longer than there are elements that
are no roots. -/
theorem rootIn_of_finite [DecidableEq α] {s : Finset α} (hs : ∀ x, P x ≠ x → x ∈ s) (h : RootOf P t r) :
    RootIn P s.card t r := by
  obtain ⟨N, hN⟩ := h
  have hstop : ∃ n, P (P^[n] t) = P^[n] t := ⟨N, by rw [hN.1, hN.2]⟩
  -- the first root on the way
  let n := Nat.find hstop
  have hfixed : P (P^[n] t) = P^[n] t := Nat.find_spec hstop
  have hmoves : ∀ i < n, P (P^[i] t) ≠ P^[i] t := fun i hi => Nat.find_min hstop hi
  have hroot : RootIn P n t r := by
    have hle : n ≤ N := Nat.find_min' hstop (by rw [hN.1, hN.2])
    have hsame := (RootIn.mono (r := P^[n] t) ⟨rfl, hfixed⟩ hle).1
    exact ⟨hsame.symm.trans hN.1, hN.2⟩
  have hcard : n ≤ s.card := by
    have hinj : Set.InjOn (fun i => P^[i] t) (Finset.range n : Set Nat) := by
      -- an element met twice would never lead to a root
      have hne : ∀ i j, i < j → j < n → P^[i] t ≠ P^[j] t := by
        intro i j hij hj heq
        refine hmoves (n - j + i) (by omega) ?_
        have hjump : P^[n - j + i] t = P^[n] t := by
          rw [Function.iterate_add_apply, heq, ← Function.iterate_add_apply, Nat.sub_add_cancel hj.le]
        rw [hjump, hfixed]
      intro i hi j hj heq
      rw [Finset.coe_range, Set.mem_Iio] at hi hj
      rcases Nat.lt_trichotomy i j with hij | hij | hij
      · exact absurd heq (hne i j hij hj)
      · exact hij
      · exact absurd heq.symm (hne j i hij hi)
    have hmaps : ∀ i ∈ Finset.range n, P^[i] t ∈ s :=
      fun i hi => hs _ (hmoves i (Finset.mem_range.mp hi))
    simpa using Finset.card_le_card_of_injOn _ hmaps hinj
  exact hroot.mono hcard

theorem eqvGen_cases {R : α → α → Prop} {s : Set α} (hs : ∀ x y, R x y → x ∈ s ∧ y ∈ s) {x y : α}
    (h : Relation.EqvGen R x y) : x = y ∨ (x ∈ s ∧ y ∈ s) := by
  induction h with
  | rel x y hr => exact Or.inr (hs x y hr)
  | refl x => exact Or.inl rfl
  | symm x y _ ih => exact ih.imp Eq.symm And.symm
  | trans x y z _ _ ih ih' =>
    rcases ih with rfl | hxy
    · exact ih'
    · rcases ih' with rfl | hyz
      · exact Or.inr hxy
      · exact Or.inr ⟨hxy.1, hyz.2⟩

/-! ## The roots of all elements -/

/-- The pointers lead every element to its root. -/
def RootMap (P : α → α) (root : α → α) : Prop := ∀ t, RootOf P t (root t)

theorem RootMap.fixed {root : α → α} (h : RootMap P root) (t : α) : P (root t) = root t := by
  obtain ⟨n, -, hr⟩ := h t
  exact hr

theorem RootMap.root_eq {root : α → α} (h : RootMap P root) (ht : P t = t) : root t = t :=
  (h t).unique (rootOf_self ht)

theorem RootMap.idem {root : α → α} (h : RootMap P root) (t : α) : root (root t) = root t := h.root_eq (h.fixed t)

variable [DecidableEq α] {root : α → α}

/-- Pointing an element at its root changes no root. -/
theorem RootMap.compress (h : RootMap P root) (t : α) : RootMap (Function.update P t (root t)) root := by
  have hroots : ∀ x, Function.update P t (root t) (root x) = root x := by
    intro x
    by_cases hx : root x = t
    · rw [hx, Function.update_self, ← hx, h.idem]
    · rw [Function.update_of_ne hx, h.fixed]
  have hlead : ∀ n x, RootIn P n x (root x) → RootOf (Function.update P t (root t)) x (root x) := by
    intro n
    induction n with
    | zero =>
      intro x hx
      have heq : x = root x := hx.1
      exact ⟨0, heq, hroots x⟩
    | succ n ih =>
      intro x hx
      by_cases hxt : x = t
      · rw [hxt]
        refine ⟨1, ?_, hroots t⟩
        rw [Function.iterate_one, Function.update_self]
      · -- the step from `x` is as before
        have hstep : root (P x) = root x := (h (P x)).unique (rootOf_step.mpr (h x))
        have hrest := ih (P x) (by rw [hstep]; exact rootIn_succ.mp hx)
        rw [hstep] at hrest
        have hsame : Function.update P t (root t) x = P x := Function.update_of_ne hxt _ _
        rw [← hsame] at hrest
        exact rootOf_step.mp hrest
  intro x
  obtain ⟨n, hn⟩ := h x
  exact hlead n x hn

/-- Pointing a root at another root gives its elements that root. -/
theorem RootMap.link (h : RootMap P root) {a b : α} (ha : P a = a) (hb : P b = b) (hab : a ≠ b) :
    RootMap (Function.update P a b) fun t => if root t = a then b else root t := by
  have hroots : ∀ x, P x = x → x ≠ a → RootOf (Function.update P a b) x x :=
    fun x hx hne => rootOf_self (by rw [Function.update_of_ne hne, hx])
  have hlead : ∀ n x, RootIn P n x (root x) →
      RootOf (Function.update P a b) x (if root x = a then b else root x) := by
    intro n
    induction n with
    | zero =>
      intro x hx
      have heq : x = root x := hx.1
      rw [← heq]
      by_cases hxa : x = a
      · rw [if_pos hxa, ← rootOf_step, hxa, Function.update_self]
        exact hroots b hb fun hba => hab hba.symm
      · rw [if_neg hxa]
        exact hroots x (by rw [heq, h.fixed]) hxa
    | succ n ih =>
      intro x hx
      have hstep : root (P x) = root x := (h (P x)).unique (rootOf_step.mpr (h x))
      have hrest := ih (P x) (by rw [hstep]; exact rootIn_succ.mp hx)
      rw [hstep] at hrest
      by_cases hxa : x = a
      · rw [hxa, ha] at hrest
        rw [hxa]
        exact hrest
      · have hsame : Function.update P a b x = P x := Function.update_of_ne hxa _ _
        rw [← hsame] at hrest
        exact rootOf_step.mp hrest
  intro x
  obtain ⟨n, hn⟩ := h x
  exact hlead n x hn

/-! ## Classes -/

/-- Two elements have one root just when the relation puts them together. -/
def Classes (root : α → α) (R : α → α → Prop) : Prop := ∀ x y, root x = root y ↔ Relation.EqvGen R x y

/-- Linking the roots of a pair adds the pair. -/
theorem Classes.link {R : α → α → Prop} (h : Classes root R) (a b : α) :
    Classes (fun t => if root t = root a then root b else root t) fun x y => R x y ∨ (x = a ∧ y = b) := by
  have hold : ∀ {x y}, root x = root y → Relation.EqvGen (fun x y => R x y ∨ (x = a ∧ y = b)) x y :=
    fun {x y} heq => ((h x y).mp heq).mono fun _ _ hr => Or.inl hr
  have hpair : Relation.EqvGen (fun x y => R x y ∨ (x = a ∧ y = b)) a b := .rel _ _ (Or.inr ⟨rfl, rfl⟩)
  intro x y
  constructor
  · intro heq
    dsimp only at heq
    split at heq
    · next hx =>
      split at heq
      · next hy => exact hold (hx.trans hy.symm)
      · exact ((hold hx).trans _ _ _ hpair).trans _ _ _ (hold heq)
    · split at heq
      · next hy => exact (hold heq).trans _ _ _ (hpair.symm.trans _ _ _ (hold hy.symm))
      · exact hold heq
  · intro hgen
    dsimp only
    induction hgen with
    | rel x y hr =>
      rcases hr with hr | ⟨rfl, rfl⟩
      · rw [(h x y).mpr (.rel _ _ hr)]
      · rw [if_pos rfl]
        split <;> rfl
    | refl x => rfl
    | symm x y _ ih => exact ih.symm
    | trans x y z _ _ ih ih' => exact ih.trans ih'

end Nova.Lib
