import Mathlib.Data.List.Count
import Mathlib.Data.List.Sort
import Mathlib.Algebra.Order.Ring.Nat
import Mathlib.Tactic.Common

/-!
# Last-to-first mapping

A table is a list of rows in strictly increasing order. `turn` moves the last
component of a row to the front; the turned rows, sorted again, are the next table.
Rows with the same last component keep their order when they are turned, so the row
at position `i` goes to position `start c + rank c i`, where `c` is its last
component, `start c` the number of smaller components and `rank c i` the number of
occurrences of `c` before `i`.

* `Turned.next_lf`, `Turned.of_next` — a row and where it goes, in both directions
* `Turned.lead_iff` — the rows that start with `c` are one range
* `Turned.step_iff` — what a range of rows becomes in the next table
-/

namespace Nova.Lib.LastFirst

open List

/-! ## Columns -/

section Column

variable {γ : Type} [DecidableEq γ]

/-- The occurrences of `c` before position `i`. -/
def rank (col : List γ) (c : γ) (i : Nat) : Nat := (col.take i).count c

/-- The position of the occurrence of `c` with number `k`. -/
def select (c : γ) : List γ → Nat → Option Nat
  | [], _ => none
  | d :: ds, k =>
    if d = c then
      match k with
      | 0 => some 0
      | k + 1 => (select c ds k).map (· + 1)
    else (select c ds k).map (· + 1)

variable {col : List γ} {c : γ} {i j : Nat}

@[simp] theorem rank_zero : rank col c 0 = 0 := by simp [rank]

theorem rank_cons_succ (d : γ) : rank (d :: col) c (i + 1) = rank col c i + if d = c then 1 else 0 := by
  simp [rank, count_cons]

theorem rank_succ {d : γ} (h : col[i]? = some d) :
    rank col c (i + 1) = rank col c i + if d = c then 1 else 0 := by
  unfold rank
  rw [take_add_one, h, Option.toList_some, count_append, count_singleton]
  simp [beq_iff_eq]

theorem rank_mono (h : i ≤ j) : rank col c i ≤ rank col c j :=
  (take_sublist_take_left h).count_le c

theorem rank_lt_of_lt (hi : col[i]? = some c) (h : i < j) : rank col c i < rank col c j := by
  have hsucc : rank col c (i + 1) = rank col c i + 1 := by simpa using rank_succ (c := c) hi
  have hmono : rank col c (i + 1) ≤ rank col c j := rank_mono h
  omega

theorem rank_le_iff (hi : col[i]? = some c) : rank col c j ≤ rank col c i ↔ j ≤ i := by
  constructor
  · intro h
    by_contra hij
    have hlt := rank_lt_of_lt hi (Nat.lt_of_not_le hij)
    omega
  · exact rank_mono

theorem select_rank (hi : col[i]? = some c) : select c col (rank col c i) = some i := by
  induction col generalizing i with
  | nil => exact absurd hi (by simp)
  | cons d ds ih =>
    rcases i with _ | i
    · have hd : d = c := by simpa using hi
      simp [select, hd]
    · rw [getElem?_cons_succ] at hi
      rw [rank_cons_succ]
      by_cases hd : d = c <;> simp [select, hd, ih hi]

end Column

/-! ## Positions in a sorted list -/

section Sorted

variable {α : Type} {lt : α → α → Prop} {rows : List α} {i : Nat} {x : α}

section

variable (hasymm : ∀ x y, lt x y → ¬ lt y x) (hsorted : rows.Pairwise lt) (hi : rows[i]? = some x)
include hasymm hsorted hi

/-- The elements below the one at position `i` stand before it. -/
theorem countP_and_lt [DecidableRel lt] (q : α → Bool) :
    rows.countP (fun y => q y && decide (lt y x)) = (rows.take i).countP q := by
  induction rows generalizing i with
  | nil => exact absurd hi (by simp)
  | cons y ys ih =>
    rcases pairwise_cons.mp hsorted with ⟨hy, hys⟩
    rcases i with _ | i
    · -- nothing is below the first element
      have hx : y = x := by simpa using hi
      subst hx
      have hself : ¬ lt y y := fun h => hasymm y y h h
      have hrest : ys.countP (fun z => q z && decide (lt z y)) = 0 := by
        apply countP_eq_zero.mpr
        intro z hz
        simp [hasymm y z (hy z hz)]
      simp [hself, hrest]
    · rw [getElem?_cons_succ] at hi
      have hlt : lt y x := hy x (mem_of_getElem? hi)
      rw [take_succ_cons, countP_cons, countP_cons, ih hys hi]
      simp [hlt]

theorem countP_lt [DecidableRel lt] : rows.countP (fun y => decide (lt y x)) = i := by
  have h := countP_and_lt hasymm hsorted hi fun _ => true
  have hlen : i ≤ rows.length := Nat.le_of_lt (List.getElem?_eq_some_iff.mp hi).1
  simpa [countP_true, hlen] using h

end

theorem lt_countP_iff {p : α → Bool} (hdown : ∀ x y, lt x y → p y = true → p x = true)
    (hsorted : rows.Pairwise lt) (hi : rows[i]? = some x) : i < rows.countP p ↔ p x = true := by
  induction rows generalizing i with
  | nil => exact absurd hi (by simp)
  | cons y ys ih =>
    rcases pairwise_cons.mp hsorted with ⟨hy, hys⟩
    by_cases hp : p y = true
    · rw [countP_cons_of_pos hp]
      rcases i with _ | i
      · have hx : y = x := by simpa using hi
        subst hx
        simp [hp]
      · rw [getElem?_cons_succ] at hi
        rw [← ih hys hi]
        omega
    · -- then nothing further on has the property either
      have hnone : ∀ z ∈ ys, ¬ p z = true := fun z hz hz' => hp (hdown y z (hy z hz) hz')
      have hcount : (y :: ys).countP p = 0 := by
        apply countP_eq_zero.mpr
        intro z hz
        rcases mem_cons.mp hz with rfl | hz
        · exact hp
        · exact hnone z hz
      have hx : x ∈ y :: ys := mem_of_getElem? hi
      constructor
      · intro h
        omega
      · intro hpx
        rcases mem_cons.mp hx with rfl | hx
        · exact absurd hpx hp
        · exact absurd hpx (hnone x hx)

end Sorted

/-! ## Tables -/

section Tables

variable {α γ : Type} [LinearOrder γ]

/-- How turning a row changes its place in the order. -/
structure Turns (lt : α → α → Prop) (last lead : α → γ) (turn : α → α) : Prop where
  asymm : ∀ x y, lt x y → ¬ lt y x
  lt_turn : ∀ x y, lt (turn x) (turn y) ↔ last x < last y ∨ last x = last y ∧ lt x y
  lead_turn : ∀ x, lead (turn x) = last x

/-- A table and the next one. -/
structure Turned (lt : α → α → Prop) (turn : α → α) (rows next : List α) : Prop where
  sorted : rows.Pairwise lt
  sorted_next : next.Pairwise lt
  perm : next.Perm (rows.map turn)

/-- Where the rows that start with `c` begin in the next table. -/
def start (col : List γ) (c : γ) : Nat := col.countP fun d => decide (d < c)

/-- Where the row at position `i` with the last component `c` goes. -/
def lf (col : List γ) (c : γ) (i : Nat) : Nat := start col c + rank col c i

variable {lt : α → α → Prop} {last lead : α → γ} {turn : α → α} {rows next : List α} {i j : Nat} {x y : α}

theorem start_map (rows : List α) (last : α → γ) (c : γ) :
    start (rows.map last) c = rows.countP fun y => decide (last y < c) := by
  rw [start, countP_map]
  rfl

theorem rank_map (rows : List α) (last : α → γ) (c : γ) (i : Nat) :
    rank (rows.map last) c i = (rows.take i).countP fun y => decide (last y = c) := by
  rw [rank, ← map_take, count_eq_countP, countP_map]
  congr 1

/-- Between `c` and the component that follows it lie the occurrences of `c`. -/
theorem start_of_follows {col : List γ} {c d : γ} (hcd : ∀ e, e < d ↔ e ≤ c) :
    start col d = start col c + col.count c := by
  unfold start
  induction col with
  | nil => simp
  | cons e es ih =>
    rw [countP_cons, countP_cons, count_cons, ih]
    rcases lt_trichotomy e c with hlt | heq | hgt
    · have hne : e ≠ c := ne_of_lt hlt
      simp [hlt, hne, (hcd e).mpr (le_of_lt hlt)]
      omega
    · subst heq
      simp [(hcd e).mpr (le_refl e)]
      omega
    · have hne : e ≠ c := ne_of_gt hgt
      simp [hne, not_lt_of_gt hgt, hcd e, not_le_of_gt hgt]

theorem lf_le_length (col : List γ) (c : γ) (i : Nat) : lf col c i ≤ col.length := by
  have hrank : rank col c i ≤ col.count c := (take_sublist i col).count_le c
  have hsum : start col c + col.count c ≤ col.length := by
    unfold start
    clear hrank
    induction col with
    | nil => simp
    | cons e es ih =>
      by_cases hlt : e < c
      · have hne : e ≠ c := ne_of_lt hlt
        simp [hlt, hne]
        omega
      · by_cases heq : e = c
        · simp [heq]
          omega
        · simp [hlt, heq]
          omega
  unfold lf
  omega

namespace Turned

variable (ht : Turns lt last lead turn) (h : Turned lt turn rows next)
include ht h

/-- The rows below a turned row: those with a smaller last component, and of those with the same
one the rows before it. -/
theorem countP_lt_turn [DecidableRel lt] (hi : rows[i]? = some x) :
    next.countP (fun y => decide (lt y (turn x))) = lf (rows.map last) (last x) i := by
  have hsplit : next.countP (fun y => decide (lt y (turn x))) =
      rows.countP (fun y => decide (last y < last x)) +
        rows.countP (fun y => decide (last y = last x) && decide (lt y x)) := by
    rw [h.perm.countP_eq, countP_map]
    clear h hi
    induction rows with
    | nil => rfl
    | cons y ys ih =>
      rw [countP_cons, countP_cons, countP_cons, ih]
      simp only [Function.comp_apply, ht.lt_turn]
      by_cases hlt : last y < last x
      · have hne : last y ≠ last x := ne_of_lt hlt
        simp [hlt, hne]
        omega
      · by_cases hle : last y = last x ∧ lt y x
        · simp [hle]
          omega
        · simp [hlt, hle]
  rw [hsplit, countP_and_lt ht.asymm h.sorted hi, lf, start_map, rank_map]

theorem next_lf (hi : rows[i]? = some x) : next[lf (rows.map last) (last x) i]? = some (turn x) := by
  classical
  have hmem : turn x ∈ next := h.perm.mem_iff.mpr (mem_map_of_mem (mem_of_getElem? hi))
  obtain ⟨j, hj⟩ := mem_iff_getElem?.mp hmem
  have hpos : next.countP (fun y => decide (lt y (turn x))) = j := countP_lt ht.asymm h.sorted_next hj
  rw [← countP_lt_turn ht h hi, hpos]
  exact hj

theorem of_next (hj : next[j]? = some y) :
    ∃ i x, rows[i]? = some x ∧ y = turn x ∧ j = lf (rows.map last) (last x) i := by
  classical
  have hmem : y ∈ rows.map turn := h.perm.mem_iff.mp (mem_of_getElem? hj)
  obtain ⟨x, hx, rfl⟩ := mem_map.mp hmem
  obtain ⟨i, hi⟩ := mem_iff_getElem?.mp hx
  refine ⟨i, x, hi, rfl, ?_⟩
  rw [← countP_lt_turn ht h hi]
  exact (countP_lt ht.asymm h.sorted_next hj).symm

theorem start_eq (c : γ) : start (rows.map last) c = next.countP fun y => decide (lead y < c) := by
  rw [start_map, h.perm.countP_eq, countP_map]
  congr 1
  funext y
  simp [ht.lead_turn]

theorem lead_le {y z : α} (hy : y ∈ next) (hz : z ∈ next) (hlt : lt y z) : lead y ≤ lead z := by
  obtain ⟨y, -, rfl⟩ := mem_map.mp (h.perm.mem_iff.mp hy)
  obtain ⟨z, -, rfl⟩ := mem_map.mp (h.perm.mem_iff.mp hz)
  rw [ht.lead_turn, ht.lead_turn]
  rcases (ht.lt_turn y z).mp hlt with h | h
  · exact le_of_lt h
  · exact le_of_eq h.1

theorem lt_start_iff (hj : next[j]? = some y) (c : γ) : j < start (rows.map last) c ↔ lead y < c := by
  rw [start_eq ht h]
  have hsorted : next.Pairwise fun y z => lead y ≤ lead z :=
    List.Pairwise.imp_of_mem (fun hy hz hlt => lead_le ht h hy hz hlt) h.sorted_next
  have hiff := lt_countP_iff (p := fun y => decide (lead y < c))
    (fun y z hle hz => decide_eq_true (lt_of_le_of_lt hle (of_decide_eq_true hz))) hsorted hj
  simpa using hiff

/-- The rows that start with `c`, given the component that follows it. -/
theorem lead_iff (hj : next[j]? = some y) {c d : γ} (hcd : ∀ e, e < d ↔ e ≤ c) :
    start (rows.map last) c ≤ j ∧ j < start (rows.map last) d ↔ lead y = c := by
  rw [lt_start_iff ht h hj, ← not_lt, lt_start_iff ht h hj, hcd, not_lt]
  constructor
  · intro hb
    exact le_antisymm hb.2 hb.1
  · intro heq
    exact ⟨le_of_eq heq.symm, le_of_eq heq⟩

/-- The rows of a range with the last component `c` are a range of the next table. -/
theorem step_iff (hj : next[j]? = some y) {c d : γ} (hcd : ∀ e, e < d ↔ e ≤ c) {a b : Nat} :
    lf (rows.map last) c a ≤ j ∧ j < lf (rows.map last) c b ↔
      ∃ i x, rows[i]? = some x ∧ y = turn x ∧ last x = c ∧ a ≤ i ∧ i < b := by
  obtain ⟨i, x, hi, rfl, rfl⟩ := of_next ht h hj
  have hcol : (rows.map last)[i]? = some (last x) := by rw [getElem?_map, hi]; rfl
  constructor
  · intro hb
    -- the position lies among the rows that start with `c`
    have hstart : start (rows.map last) c ≤ lf (rows.map last) (last x) i := by
      unfold lf at hb ⊢
      omega
    have hend : lf (rows.map last) c b ≤ start (rows.map last) d := by
      rw [start_of_follows hcd]
      apply Nat.add_le_add_left
      exact (take_sublist b _).count_le c
    have hlead : lead (turn x) = c := (lead_iff ht h hj hcd).mp ⟨hstart, by omega⟩
    rw [ht.lead_turn] at hlead
    refine ⟨i, x, hi, rfl, hlead, ?_⟩
    rw [hlead] at hb hcol
    unfold lf at hb
    have ha : a ≤ i := (rank_le_iff hcol).mp (by omega)
    have hb' : ¬ b ≤ i := by
      intro hle
      have hrank := (rank_le_iff hcol).mpr hle
      omega
    omega
  · rintro ⟨i', x', hi', hturn, rfl, ha, hb⟩
    -- turned rows are equal only at one position
    have hpos : lf (rows.map last) (last x) i = lf (rows.map last) (last x') i' := by
      classical
      rw [← countP_lt_turn ht h hi, ← countP_lt_turn ht h hi', hturn]
    rw [hpos]
    have hcol' : (rows.map last)[i']? = some (last x') := by rw [getElem?_map, hi']; rfl
    have h₁ := (rank_le_iff hcol' (j := a)).mpr ha
    have h₂ := rank_lt_of_lt hcol' hb
    unfold lf
    omega

end Turned

end Tables

end Nova.Lib.LastFirst
