import Mathlib.Data.List.Basic
import Mathlib.Data.List.Nodup

/-!
# Numbered tables

A bounded, append-only table that numbers distinct values in the order they
were added. Looking a value up and reading a number are inverse to each other
(`Table.find?_eq_some`), and a number once given keeps its value however the
table grows (`Table.get?_of_le`): numbering is injective and stable by
construction. `Table.intern` looks a value up and adds it if it is new.
-/

namespace Nova.Lib

open List

/-- Distinct values, at most `cap` of them, numbered by position. -/
structure Table (α : Type) (cap : Nat) where
  items : List α
  nodup : items.Nodup
  length_le : items.length ≤ cap

namespace Table

variable {α : Type} {cap : Nat}

/-- The value with number `i`. -/
def get? (t : Table α cap) (i : Nat) : Option α := t.items[i]?

variable {t : Table α cap} {a : α}

variable {i : Nat}

theorem get?_inj {j : Nat} (hi : t.get? i = some a) (hj : t.get? j = some a) : i = j := by
  rcases List.getElem?_eq_some_iff.mp hi with ⟨hilt, hia⟩
  rcases List.getElem?_eq_some_iff.mp hj with ⟨hjlt, hja⟩
  exact (List.Nodup.getElem_inj_iff t.nodup).mp (hia.trans hja.symm)

theorem lt_of_get? (h : t.get? i = some a) : i < cap :=
  Nat.lt_of_lt_of_le (List.getElem?_eq_some_iff.mp h).1 t.length_le

theorem mem_of_get? (h : t.get? i = some a) : a ∈ t.items :=
  mem_of_getElem? h

theorem exists_get? (h : a ∈ t.items) : ∃ i, t.get? i = some a :=
  mem_iff_getElem?.mp h

/-- The table grows: older numbers keep their values. -/
def Le (t t' : Table α cap) : Prop := t.items <+: t'.items

theorem le_refl (t : Table α cap) : t.Le t := prefix_refl _

theorem Le.trans {t' t'' : Table α cap} (h : t.Le t') (h' : t'.Le t'') : t.Le t'' :=
  List.IsPrefix.trans h h'

theorem get?_of_le {t' : Table α cap} (h : t.Le t') (hi : t.get? i = some a) : t'.get? i = some a := by
  rcases h with ⟨ext, heq⟩
  rw [get?, ← heq, getElem?_append_left (List.getElem?_eq_some_iff.mp hi).1]
  exact hi

/-- Add a new value at the end. -/
def push (t : Table α cap) (a : α) (hnew : a ∉ t.items) (hroom : t.items.length < cap) :
    Table α cap where
  items := t.items ++ [a]
  nodup := by
    rw [List.nodup_append]
    refine ⟨t.nodup, by simp, ?_⟩
    intro x hx y hy hxy
    rw [List.mem_singleton] at hy
    rw [hxy, hy] at hx
    exact hnew hx
  length_le := by
    rw [List.length_append, List.length_singleton]
    exact hroom

variable [DecidableEq α]

/-- The number of a value. -/
def find? (t : Table α cap) (a : α) : Option Nat := t.items.idxOf? a

theorem find?_eq_some : t.find? a = some i ↔ t.get? i = some a := by
  rw [find?, get?, List.idxOf?, findIdx?_eq_some_iff_getElem]
  constructor
  · intro h
    rcases h with ⟨hlt, ha, -⟩
    rw [getElem?_eq_getElem hlt, eq_of_beq ha]
  · intro h
    rcases List.getElem?_eq_some_iff.mp h with ⟨hlt, ha⟩
    refine ⟨hlt, by simp [ha], ?_⟩
    intro j hj hja
    have heq : t.items[j] = t.items[i] := by
      rw [ha]
      simpa using hja
    have hij := (List.Nodup.getElem_inj_iff t.nodup).mp heq
    omega

theorem find?_eq_none : t.find? a = none ↔ a ∉ t.items := by
  rw [find?, idxOf?_eq_none_iff]

/-- The number of a value, which is added if it is new and there is room. -/
def intern (t : Table α cap) (a : α) : Option Nat × Table α cap :=
  match t.find? a with
  | some i => (some i, t)
  | none =>
    if h : a ∉ t.items ∧ t.items.length < cap then
      (some t.items.length, t.push a h.1 h.2)
    else (none, t)

theorem intern_known (h : t.get? i = some a) : t.intern a = (some i, t) := by
  rw [intern, find?_eq_some.mpr h]

theorem intern_new (hnew : a ∉ t.items) (hroom : t.items.length < cap) :
    t.intern a = (some t.items.length, t.push a hnew hroom) := by
  rw [intern, find?_eq_none.mpr hnew]
  exact dif_pos ⟨hnew, hroom⟩

theorem intern_full (hnew : a ∉ t.items) (hfull : ¬t.items.length < cap) : t.intern a = (none, t) := by
  rw [intern, find?_eq_none.mpr hnew]
  exact dif_neg fun h => hfull h.2

theorem le_intern (t : Table α cap) (a : α) : t.Le (t.intern a).2 := by
  rw [intern]
  split
  · exact le_refl t
  · split
    · exact prefix_append _ _
    · exact le_refl t

theorem get?_intern (h : (t.intern a).1 = some i) : (t.intern a).2.get? i = some a := by
  by_cases hmem : a ∈ t.items
  · rcases exists_get? hmem with ⟨j, hj⟩
    rw [intern_known hj] at h ⊢
    cases h
    exact hj
  · by_cases hroom : t.items.length < cap
    · rw [intern_new hmem hroom] at h ⊢
      cases h
      simp [get?, push]
    · rw [intern_full hmem hroom] at h
      cases h

end Table

/-! ## First occurrences

The idiom `if seen.insert(x) { out.push(x) }`: every value once, in the order in
which it is first met. -/

section Firsts

variable {α : Type} [DecidableEq α]

def pushNew (out : List α) (x : α) : List α := if x ∈ out then out else out ++ [x]

def firsts (xs : List α) : List α := xs.foldl pushNew []

variable {xs : List α}

theorem mem_foldl_pushNew : ∀ {out : List α} {y : α},
    y ∈ xs.foldl pushNew out ↔ y ∈ out ∨ y ∈ xs := by
  induction xs with
  | nil => simp
  | cons x xs ih =>
    intro out y
    rw [foldl_cons, ih, pushNew]
    by_cases hx : x ∈ out
    · rw [if_pos hx, mem_cons]
      constructor
      · intro h
        rcases h with h | h
        · exact .inl h
        · exact .inr (.inr h)
      · intro h
        rcases h with h | rfl | h
        · exact .inl h
        · exact .inl hx
        · exact .inr h
    · rw [if_neg hx, mem_append, mem_singleton, mem_cons, or_assoc]

theorem nodup_foldl_pushNew : ∀ {out : List α}, out.Nodup →
    (xs.foldl pushNew out).Nodup := by
  induction xs with
  | nil => exact fun h => h
  | cons x xs ih =>
    intro out h
    apply ih
    unfold pushNew
    split
    · exact h
    · next hx => exact nodup_append.mpr ⟨h, nodup_singleton x, fun a ha b hb heq => hx (by
        rw [← mem_singleton.mp hb, ← heq]
        exact ha)⟩

theorem mem_firsts {y : α} : y ∈ firsts xs ↔ y ∈ xs := by
  rw [firsts, mem_foldl_pushNew]
  simp

theorem nodup_firsts (xs : List α) : (firsts xs).Nodup := nodup_foldl_pushNew .nil

theorem foldl_pushNew_filter (p : α → Bool) : ∀ {out : List α},
    (xs.filter p).foldl pushNew (out.filter p) = (xs.foldl pushNew out).filter p := by
  induction xs with
  | nil => exact fun {_} => rfl
  | cons x xs ih =>
    intro out
    rw [foldl_cons, ← ih]
    by_cases hp : p x = true
    · have hmem : x ∈ out.filter p ↔ x ∈ out := by
        rw [mem_filter]
        exact and_iff_left hp
      rw [filter_cons_of_pos hp, foldl_cons, pushNew, pushNew]
      by_cases hx : x ∈ out
      · rw [if_pos hx, if_pos (hmem.mpr hx)]
      · rw [if_neg hx, if_neg fun h => hx (hmem.mp h), filter_append, filter_cons_of_pos hp, filter_nil]
    · rw [filter_cons_of_neg hp, pushNew]
      split
      · rfl
      · rw [filter_append, filter_cons_of_neg hp, filter_nil, append_nil]

theorem firsts_filter (p : α → Bool) (xs : List α) : firsts (xs.filter p) = (firsts xs).filter p := by
  have h : (xs.filter p).foldl pushNew (([] : List α).filter p) = (xs.foldl pushNew []).filter p :=
    foldl_pushNew_filter p
  exact h

end Firsts

end Nova.Lib
