import Mathlib.Data.Multiset.Bind
import Mathlib.Data.Set.Card

/-!
# Partial maps and their join

Two partial maps agree when they say the same wherever both say something; then they
have a union (`unite`). Uniting is commutative and associative, with the empty map as
unit, and so is the join of two lists, which unites each of one with each of the other:
commutative up to order (`joinWith_perm`), associative (`joinWith_assoc`), with the list
of the unit alone as unit. The join is stated for any partial operation.
-/

namespace Nova.Lib

open List

/-! ## The join along a partial operation -/

section Join

variable {α β : Type} {op : α → α → Option α}

/-- Each of the left with each of the right, where the operation has a value. -/
def joinWith (op : α → α → Option α) (left right : List α) : List α :=
  left.flatMap fun a => right.filterMap (op a)

theorem joinWith_eq_flatMap (left right : List α) :
    joinWith op left right = left.flatMap fun a => right.flatMap fun b => (op a b).toList := by
  unfold joinWith
  congr 1
  funext a
  exact filterMap_eq_flatMap_toList (op a) right

/-- The order of the two sides shows in the order of the result only. -/
theorem joinWith_perm (hcomm : ∀ a b, op a b = op b a) (left right : List α) :
    (joinWith op left right).Perm (joinWith op right left) := by
  rw [joinWith_eq_flatMap, joinWith_eq_flatMap, ← Multiset.coe_eq_coe]
  have hbind : ∀ l r : List α, ((l.flatMap fun a => r.flatMap fun b => (op a b).toList : List α) : Multiset α) =
      Multiset.bind (l : Multiset α) fun a => Multiset.bind (r : Multiset α) fun b =>
        ((op a b).toList : Multiset α) := by
    intro l r
    simp only [Multiset.coe_bind]
  rw [hbind, hbind, Multiset.bind_bind]
  simp only [hcomm]

theorem joinWith_assoc (hassoc : ∀ a b c, ((op a b).bind fun m => op m c) = (op b c).bind (op a))
    (l m r : List α) : joinWith op (joinWith op l m) r = joinWith op l (joinWith op m r) := by
  simp only [joinWith_eq_flatMap, flatMap_assoc]
  refine flatMap_congr fun a _ => flatMap_congr fun b _ => ?_
  -- both sides meet the triples in the same order
  have hleft : ∀ o : Option α, (o.toList.flatMap fun u => r.flatMap fun c => (op u c).toList) =
      r.flatMap fun c => (o.bind fun u => op u c).toList := by
    intro o
    cases o with
    | none => simp
    | some u => simp
  have hright : ∀ o : Option α, (o.toList.flatMap fun u => (op a u).toList) = (o.bind (op a)).toList := by
    intro o
    cases o with
    | none => rfl
    | some u => simp
  rw [hleft]
  refine flatMap_congr fun c _ => ?_
  rw [hright, hassoc]

theorem joinWith_unit_left {e : α} (hunit : ∀ a, op e a = some a) (right : List α) :
    joinWith op [e] right = right := by
  unfold joinWith
  rw [flatMap_singleton, funext hunit, filterMap_some]

theorem joinWith_unit_right {e : α} (hunit : ∀ a, op a e = some a) (left : List α) :
    joinWith op left [e] = left := by
  rw [joinWith_eq_flatMap]
  simp [hunit]

theorem map_joinWith {op' : β → β → Option β} (g : α → β) {left right : List α}
    (h : ∀ a ∈ left, ∀ b ∈ right, (op a b).map g = op' (g a) (g b)) :
    (joinWith op left right).map g = joinWith op' (left.map g) (right.map g) := by
  unfold joinWith
  rw [map_flatMap, flatMap_map]
  refine flatMap_congr fun a ha => ?_
  rw [map_filterMap, filterMap_map]
  exact filterMap_congr fun b hb => h a ha b hb

theorem mem_joinWith {left right : List α} {c : α} :
    c ∈ joinWith op left right ↔ ∃ a ∈ left, ∃ b ∈ right, op a b = some c := by
  simp only [joinWith, mem_flatMap, mem_filterMap]

end Join

/-! ## Partial maps -/

namespace PartialMap

variable {α β : Type} {f g h : α → Option β}

/-- They say the same where both say something. -/
def Agree (f g : α → Option β) : Prop := ∀ x y z, f x = some y → g x = some z → y = z

/-- What either says. -/
def union (f g : α → Option β) : α → Option β := fun x => (f x).or (g x)

def empty : α → Option β := fun _ => none

def domain (f : α → Option β) : Set α := {x | (f x).isSome = true}

open Classical in
/-- The union, where there is one. -/
noncomputable def unite (f g : α → Option β) : Option (α → Option β) :=
  if Agree f g then some (union f g) else none

@[simp] theorem union_apply (f g : α → Option β) (x : α) : union f g x = (f x).or (g x) := rfl

theorem mem_domain {x : α} : x ∈ domain f ↔ ∃ y, f x = some y := Option.isSome_iff_exists

theorem Agree.symm (hfg : Agree f g) : Agree g f := fun x y z hy hz => (hfg x z y hz hy).symm

theorem agree_comm : Agree f g ↔ Agree g f := ⟨Agree.symm, Agree.symm⟩

theorem agree_empty (f : α → Option β) : Agree f empty := by
  intro x y z _ hz
  cases hz

theorem union_comm (hfg : Agree f g) : union f g = union g f := by
  funext x
  rw [union_apply, union_apply]
  cases hf : f x with
  | none => rw [Option.none_or, Option.or_none]
  | some y =>
    cases hg : g x with
    | none => rfl
    | some z => rw [Option.some_or, Option.some_or, hfg x y z hf hg]

theorem union_assoc (f g h : α → Option β) : union (union f g) h = union f (union g h) := by
  funext x
  simp only [union_apply, Option.or_assoc]

theorem union_empty (f : α → Option β) : union f empty = f := by
  funext x
  exact Option.or_none

theorem agree_union (hfg : Agree f g) : Agree (union f g) h ↔ Agree f h ∧ Agree g h := by
  constructor
  · intro hu
    constructor
    · intro x y z hy hz
      refine hu x y z ?_ hz
      rw [union_apply, hy, Option.some_or]
    · intro x y z hy hz
      refine hu x y z ?_ hz
      rw [union_comm hfg, union_apply, hy, Option.some_or]
  · rintro ⟨hf, hg⟩ x y z hy hz
    rcases Option.or_eq_some_iff.mp hy with hy | ⟨_, hy⟩
    · exact hf x y z hy hz
    · exact hg x y z hy hz

theorem agree_union_right (hgh : Agree g h) : Agree f (union g h) ↔ Agree f g ∧ Agree f h := by
  rw [agree_comm, agree_union hgh, agree_comm (f := g), agree_comm (f := h)]

theorem agree_union_union (hfg : Agree f g) (hfh : Agree f h) : Agree (union f g) (union f h) ↔ Agree g h := by
  have hself : Agree f f := fun x y z hy hz => Option.some.inj (hy.symm.trans hz)
  rw [agree_union hfg, agree_union_right hfh, agree_union_right hfh]
  exact ⟨fun hall => hall.2.2, fun hgh => ⟨⟨hself, hfh⟩, hfg.symm, hgh⟩⟩

theorem union_union_union (f g h : α → Option β) : union (union f g) (union f h) = union f (union g h) := by
  funext x
  simp only [union_apply]
  cases f x with
  | none => rfl
  | some y => rfl

theorem unite_of_agree (hfg : Agree f g) : unite f g = some (union f g) := if_pos hfg

theorem unite_of_not (hfg : ¬Agree f g) : unite f g = none := if_neg hfg

theorem unite_comm (f g : α → Option β) : unite f g = unite g f := by
  by_cases hfg : Agree f g
  · rw [unite_of_agree hfg, unite_of_agree hfg.symm, union_comm hfg]
  · rw [unite_of_not hfg, unite_of_not fun hgf => hfg hgf.symm]

theorem unite_self (f : α → Option β) : unite f f = some f := by
  have hself : Agree f f := fun x y z hy hz => Option.some.inj (hy.symm.trans hz)
  rw [unite_of_agree hself]
  congr 1
  funext x
  exact Option.or_self

theorem unite_empty_right (f : α → Option β) : unite f empty = some f := by
  rw [unite_of_agree (agree_empty f), union_empty]

theorem unite_empty_left (f : α → Option β) : unite empty f = some f :=
  (unite_comm _ _).trans (unite_empty_right f)

theorem unite_assoc (f g h : α → Option β) :
    ((unite f g).bind fun m => unite m h) = (unite g h).bind (unite f) := by
  by_cases hfg : Agree f g
  · by_cases hgh : Agree g h
    · rw [unite_of_agree hfg, unite_of_agree hgh, Option.bind_some, Option.bind_some]
      have hiff : Agree (union f g) h ↔ Agree f (union g h) := by
        constructor
        · intro hall
          have hfh := ((agree_union hfg).mp hall).1
          exact ((agree_union hgh).mpr ⟨hfg.symm, hfh.symm⟩).symm
        · intro hall
          have hhf := ((agree_union hgh).mp hall.symm).2
          exact (agree_union hfg).mpr ⟨hhf.symm, hgh⟩
      by_cases hall : Agree (union f g) h
      · rw [unite_of_agree hall, unite_of_agree (hiff.mp hall), union_assoc]
      · rw [unite_of_not hall, unite_of_not fun hno => hall (hiff.mpr hno)]
    · rw [unite_of_agree hfg, unite_of_not hgh, Option.bind_some, Option.bind_none]
      exact unite_of_not fun hall => hgh ((agree_union hfg).mp hall).2
  · rw [unite_of_not hfg, Option.bind_none]
    by_cases hgh : Agree g h
    · rw [unite_of_agree hgh, Option.bind_some]
      exact (unite_of_not fun hall => hfg ((agree_union hgh).mp hall.symm).1.symm).symm
    · rw [unite_of_not hgh, Option.bind_none]

theorem eq_of_card_le (hfin : (domain g).Finite) (hsub : ∀ x y, f x = some y → g x = some y)
    (hcard : (domain g).ncard ≤ (domain f).ncard) : f = g := by
  have hdom : domain f ⊆ domain g := by
    intro x hx
    obtain ⟨y, hy⟩ := mem_domain.mp hx
    exact mem_domain.mpr ⟨y, hsub x y hy⟩
  have heq : domain f = domain g := Set.eq_of_subset_of_ncard_le hdom hcard hfin
  funext x
  cases hf : f x with
  | some y => exact (hsub x y hf).symm
  | none =>
    cases hg : g x with
    | none => rfl
    | some z =>
      have hx : x ∈ domain f := heq ▸ mem_domain.mpr ⟨z, hg⟩
      obtain ⟨y, hy⟩ := mem_domain.mp hx
      rw [hf] at hy
      cases hy

end PartialMap

/-- A list that lists a set is as long as the set is large just when it lists each
element once and nothing else. -/
theorem length_eq_ncard_iff {α : Type} [DecidableEq α] {xs : List α} {s : Set α} (hsub : ∀ x ∈ s, x ∈ xs) :
    xs.length = s.ncard ↔ xs.Nodup ∧ ∀ x ∈ xs, x ∈ s := by
  have hs : s ⊆ (xs.toFinset : Set α) := by
    intro x hx
    simpa using hsub x hx
  constructor
  · intro hlen
    have hle : s.ncard ≤ xs.dedup.length := by
      have hcard := Set.ncard_le_ncard hs xs.toFinset.finite_toSet
      rwa [Set.ncard_coe_finset, card_toFinset] at hcard
    have heq : xs.dedup = xs :=
      (dedup_sublist xs).eq_of_length_le (hlen.trans_le hle)
    refine ⟨heq ▸ nodup_dedup xs, fun x hx => ?_⟩
    have hcard : (xs.toFinset : Set α).ncard ≤ s.ncard := by
      rw [Set.ncard_coe_finset, card_toFinset, heq, hlen]
    rw [Set.eq_of_subset_of_ncard_le hs hcard xs.toFinset.finite_toSet]
    simpa using hx
  · rintro ⟨hnodup, hall⟩
    have heq : s = (xs.toFinset : Set α) := by
      refine Set.Subset.antisymm hs fun x hx => ?_
      exact hall x (by simpa using hx)
    rw [heq, Set.ncard_coe_finset, toFinset_card_of_nodup hnodup]

end Nova.Lib
