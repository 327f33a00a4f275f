import Nova.Lib.Blocks
import Nova.Lib.Cursor
import Nova.Reasoning.Join
import Mathlib.Order.Bounds.Basic

/-!
# Trie iterators

An iterator over a set of paths stands at one node of their trie: it reads the first
steps of the paths below that node in ascending order and descends to what follows
one of them. `Obeys` is the contract of `TrieIterator`, with the relation that says
where a state stands; moves are only promised before the end.

* `obeys_union`: the union of two iterators stands in the union of their paths.
* `SortedVecTrie.obeys_iter`: an iterator over sorted rows stands in the set of these rows.
* `Obeys.visits`: what is read by advancing is the ascending list of the keys.
-/

namespace Nova.Reasoning

open Nova.Lib List

/-- The methods of `TrieIterator`; one that panics is `none`. -/
structure TrieIterator (σ : Type) extends Cursor σ Nat where
  descend : σ → Option σ

/-! ## Paths -/

abbrev Paths := Set (List Nat)

/-- The first steps from `t` on. -/
def keysFrom (P : Paths) (t : Nat) : Set Nat := {k | t ≤ k ∧ ∃ p, k :: p ∈ P}

/-- What follows the step `k`. -/
def below (P : Paths) (k : Nat) : Paths := {p | k :: p ∈ P}

section Paths

variable {P Q : Paths} {k t u : Nat}

theorem keysFrom_union : keysFrom (P ∪ Q) t = keysFrom P t ∪ keysFrom Q t := by
  ext k
  simp only [keysFrom, Set.mem_ofPred_eq, Set.mem_union, exists_or, and_or_left]

theorem mem_keysFrom_max : k ∈ keysFrom P (max t u) ↔ u ≤ k ∧ k ∈ keysFrom P t := by
  simp only [keysFrom, Set.mem_ofPred_eq, max_le_iff]
  tauto

theorem below_eq_empty (hk : t ≤ k) (h : k ∉ keysFrom P t) : below P k = ∅ :=
  Set.eq_empty_of_forall_notMem fun p hp => h ⟨hk, p, hp⟩

end Paths

/-! ## The contract -/

variable {σ τ : Type}

/-- `R s n t P`: the state stands in `P`, whose paths go down `n` levels, in front of
the keys from `t` on. -/
abbrev Stands (σ : Type) := σ → Nat → Nat → Paths → Prop

structure Obeys (I : TrieIterator σ) (R : Stands σ) : Prop where
  bounded : ∀ {s n t P k}, R s n t P → k ∈ keysFrom P t → k < u64Max
  atEnd : ∀ {s n t P}, R s n t P → (I.atEnd s = true ↔ keysFrom P t = ∅)
  key : ∀ {s n t P}, R s n t P → I.atEnd s = false → ∃ k, I.key s = some k ∧ IsLeast (keysFrom P t) k
  seek : ∀ {s n t P} u, R s n t P → I.atEnd s = false → ∃ s', I.seek s u = some s' ∧ R s' n (max t u) P
  advance : ∀ {s n t P k}, R s n t P → IsLeast (keysFrom P t) k →
    ∃ s', I.advance s = some s' ∧ R s' n (k + 1) P
  descend : ∀ {s n t P k}, R s (n + 2) t P → IsLeast (keysFrom P t) k →
    ∃ s', I.descend s = some s' ∧ R s' (n + 1) 0 (below P k)

section Contract

variable {I : TrieIterator σ} {R : Stands σ} {s : σ} {n t k : Nat} {P : Paths}

theorem Obeys.atEnd_eq_false (h : Obeys I R) (hs : R s n t P) (hk : k ∈ keysFrom P t) : I.atEnd s = false := by
  rw [Bool.eq_false_iff, Ne, h.atEnd hs]
  exact Set.Nonempty.ne_empty ⟨k, hk⟩

theorem Obeys.key_eq (h : Obeys I R) (hs : R s n t P) (hk : IsLeast (keysFrom P t) k) : I.key s = some k := by
  obtain ⟨k', hkey, hleast⟩ := h.key hs (h.atEnd_eq_false hs hk.1)
  rw [hkey, hleast.unique hk]

/-- Advancing from the state to the end reads the list. -/
inductive Visits (I : TrieIterator σ) : σ → List Nat → Prop
  | atEnd {s : σ} : I.atEnd s = true → Visits I s []
  | key {s s' : σ} {k : Nat} {l : List Nat} : I.atEnd s = false → I.key s = some k → I.advance s = some s' →
      Visits I s' l → Visits I s (k :: l)

theorem Obeys.visits (h : Obeys I R) {l : List Nat} : ∀ {s t}, R s n t P → l.Pairwise (· < ·) →
    (∀ k, k ∈ l ↔ k ∈ keysFrom P t) → Visits I s l := by
  induction l with
  | nil =>
    intro s t hs _ hl
    exact .atEnd ((h.atEnd hs).mpr (Set.eq_empty_of_forall_notMem fun k hk => not_mem_nil ((hl k).mpr hk)))
  | cons k l ih =>
    intro s t hs hsorted hl
    obtain ⟨hlt, hrest⟩ := pairwise_cons.mp hsorted
    have hleast : IsLeast (keysFrom P t) k := by
      refine ⟨(hl k).mp mem_cons_self, fun x hx => ?_⟩
      rcases mem_cons.mp ((hl x).mpr hx) with rfl | hx
      · exact le_rfl
      · exact (hlt x hx).le
    obtain ⟨s', hadv, hs'⟩ := h.advance hs hleast
    refine .key (h.atEnd_eq_false hs hleast.1) (h.key_eq hs hleast) hadv (ih hs' hrest fun x => ?_)
    constructor
    · intro hx
      exact ⟨hlt x hx, ((hl x).mp (mem_cons_of_mem k hx)).2⟩
    · rintro ⟨hle, hx⟩
      rcases mem_cons.mp ((hl x).mpr ⟨hleast.1.1.trans (Nat.le_of_succ_le hle), hx⟩) with rfl | hmem
      · omega
      · exact hmem

end Contract

/-! ## `UnionTrieIter` -/

/-- The iterators that a union comes to: `open` gives a union again, or the child of one
side. -/
inductive Boxed (σ τ : Type) where
  | union (a : σ) (b : τ)
  | left (a : σ)
  | right (b : τ)
  | empty

namespace UnionTrieIter

variable (A : TrieIterator σ) (B : TrieIterator τ)

def atEnd (a : σ) (b : τ) : Bool := A.atEnd a && B.atEnd b

def key (a : σ) (b : τ) : Option Nat :=
  match A.atEnd a, B.atEnd b with
  | true, true => some 0
  | true, false => B.key b
  | false, true => A.key a
  | false, false => do return min (← A.key a) (← B.key b)

/-- A side that has ended is left alone. -/
def seekSide (I : TrieIterator σ) (s : σ) (target : Nat) :
    Option σ := if I.atEnd s then some s else I.seek s target

def seek (a : σ) (b : τ) (target : Nat) : Option (Boxed σ τ) := do
  return .union (← seekSide A a target) (← seekSide B b target)

def advance (a : σ) (b : τ) : Option (Boxed σ τ) :=
  if atEnd A B a b then some (.union a b)
  else (key A B a b).bind fun cur => seek A B a b (min (cur + 1) u64Max)

def matchesKey (I : TrieIterator σ) (s : σ) (cur : Nat) : Bool := !I.atEnd s && I.key s = some cur

/-- `open`. -/
def descend (a : σ) (b : τ) : Option (Boxed σ τ) :=
  if atEnd A B a b then some .empty
  else (key A B a b).bind fun cur =>
    match matchesKey A a cur, matchesKey B b cur with
    | true, true => do return .union (← A.descend a) (← B.descend b)
    | true, false => (A.descend a).map .left
    | false, true => (B.descend b).map .right
    | false, false => none

def iter : TrieIterator (Boxed σ τ) where
  key
    | .union a b => key A B a b
    | .left a => A.key a
    | .right b => B.key b
    | .empty => some 0
  atEnd
    | .union a b => atEnd A B a b
    | .left a => A.atEnd a
    | .right b => B.atEnd b
    | .empty => true
  advance
    | .union a b => advance A B a b
    | .left a => (A.advance a).map .left
    | .right b => (B.advance b).map .right
    | .empty => some .empty
  seek
    | .union a b, target => seek A B a b target
    | .left a, target => (A.seek a target).map .left
    | .right b, target => (B.seek b target).map .right
    | .empty, _ => some .empty
  descend
    | .union a b => descend A B a b
    | .left a => (A.descend a).map .left
    | .right b => (B.descend b).map .right
    | .empty => some .empty

end UnionTrieIter

section Union

variable {A : TrieIterator σ} {B : TrieIterator τ} {RA : Stands σ} {RB : Stands τ} {n t : Nat} {P : Paths}

/-- One side of a union: it is not moved once it has ended. -/
def Side (R : Stands σ) (s : σ) (n t : Nat) (P : Paths) : Prop := ∃ t', R s n t' P ∧ keysFrom P t' = keysFrom P t

def Unites (RA : Stands σ) (RB : Stands τ) : Stands (Boxed σ τ)
  | .union a b, n, t, P => ∃ Pa Pb, Side RA a n t Pa ∧ Side RB b n t Pb ∧ P = Pa ∪ Pb
  | .left a, n, t, P => RA a n t P
  | .right b, n, t, P => RB b n t P
  | .empty, _, _, _ => False

theorem Side.atEnd {I : TrieIterator σ} {R : Stands σ} (h : Obeys I R) {s : σ} (hs : Side R s n t P) :
    I.atEnd s = true ↔ keysFrom P t = ∅ := by
  obtain ⟨t', hs, heq⟩ := hs
  rw [h.atEnd hs, heq]

theorem Side.key {I : TrieIterator σ} {R : Stands σ} (h : Obeys I R) {s : σ} (hs : Side R s n t P)
    (hend : I.atEnd s = false) : ∃ k, I.key s = some k ∧ IsLeast (keysFrom P t) k := by
  obtain ⟨t', hs, heq⟩ := hs
  rw [← heq]
  exact h.key hs hend

theorem Side.seek {I : TrieIterator σ} {R : Stands σ} (h : Obeys I R) {s : σ} (hs : Side R s n t P) (u : Nat) :
    ∃ s', UnionTrieIter.seekSide I s u = some s' ∧ Side R s' n (max t u) P := by
  have hall := hs.atEnd h
  obtain ⟨t', hs, heq⟩ := hs
  unfold UnionTrieIter.seekSide
  split
  · next hend =>
    refine ⟨s, rfl, t', hs, ?_⟩
    rw [heq, hall.mp hend]
    refine (Set.eq_empty_of_forall_notMem fun k hk => ?_).symm
    have hmem := (mem_keysFrom_max.mp hk).2
    rw [hall.mp hend] at hmem
    exact hmem
  · next hend =>
    obtain ⟨s', hseek, hs'⟩ := h.seek u hs (Bool.eq_false_iff.mpr hend)
    refine ⟨s', hseek, max t' u, hs', ?_⟩
    ext k
    rw [mem_keysFrom_max, mem_keysFrom_max, heq]

/-- A side has the least key of the union, or nothing below it. -/
theorem Side.descend {I : TrieIterator σ} {R : Stands σ} (h : Obeys I R) {s : σ} {k : Nat}
    (hs : Side R s (n + 2) t P)
    (hle : t ≤ k) (hleast : ∀ x ∈ keysFrom P t, k ≤ x) :
    UnionTrieIter.matchesKey I s k = true ∧ (∃ s', I.descend s = some s' ∧ R s' (n + 1) 0 (below P k)) ∨
      UnionTrieIter.matchesKey I s k = false ∧ below P k = ∅ := by
  by_cases hk : k ∈ keysFrom P t
  · obtain ⟨t', hs, heq⟩ := hs
    rw [← heq] at hk hleast
    have hleast : IsLeast (keysFrom P t') k := ⟨hk, hleast⟩
    refine .inl ⟨?_, h.descend hs hleast⟩
    rw [UnionTrieIter.matchesKey, h.atEnd_eq_false hs hk, h.key_eq hs hleast]
    simp
  · refine .inr ⟨?_, below_eq_empty hle hk⟩
    rw [UnionTrieIter.matchesKey, Bool.and_eq_false_iff, Bool.not_eq_false', decide_eq_false_iff_not]
    by_cases hend : I.atEnd s = true
    · exact .inl hend
    · obtain ⟨k', hkey, hk'⟩ := hs.key h (Bool.eq_false_iff.mpr hend)
      refine .inr fun heq => hk ?_
      rw [hkey] at heq
      exact Option.some.inj heq ▸ hk'.1

theorem exists_map {α β : Type} {x : Option α} {f : α → β} {Q : β → Prop} (h : ∃ a, x = some a ∧ Q (f a)) :
    ∃ b, x.map f = some b ∧ Q b := by
  obtain ⟨a, rfl, ha⟩ := h
  exact ⟨f a, rfl, ha⟩

variable (hA : Obeys A RA) (hB : Obeys B RB) {a : σ} {b : τ} {Pa Pb : Paths}

include hA hB

theorem union_atEnd (ha : Side RA a n t Pa) (hb : Side RB b n t Pb) :
    UnionTrieIter.atEnd A B a b = true ↔ keysFrom (Pa ∪ Pb) t = ∅ := by
  rw [UnionTrieIter.atEnd, Bool.and_eq_true, ha.atEnd hA, hb.atEnd hB, keysFrom_union, Set.union_empty_iff]

theorem union_key (ha : Side RA a n t Pa) (hb : Side RB b n t Pb) (hend : UnionTrieIter.atEnd A B a b = false) :
    ∃ k, UnionTrieIter.key A B a b = some k ∧ IsLeast (keysFrom (Pa ∪ Pb) t) k := by
  rw [UnionTrieIter.atEnd, Bool.and_eq_false_iff] at hend
  rw [keysFrom_union]
  unfold UnionTrieIter.key
  cases haend : A.atEnd a with
  | true =>
    cases hbend : B.atEnd b with
    | true => simp [haend, hbend] at hend
    | false =>
      rw [(ha.atEnd hA).mp haend, Set.empty_union]
      exact hb.key hB hbend
  | false =>
    obtain ⟨k, hkey, hk⟩ := ha.key hA haend
    cases hbend : B.atEnd b with
    | true =>
      rw [(hb.atEnd hB).mp hbend, Set.union_empty]
      exact ⟨k, hkey, hk⟩
    | false =>
      obtain ⟨k', hkey', hk'⟩ := hb.key hB hbend
      refine ⟨min k k', ?_, hk.union hk'⟩
      rw [hkey, hkey']
      rfl

theorem union_seek (ha : Side RA a n t Pa) (hb : Side RB b n t Pb) (u : Nat) :
    ∃ s', UnionTrieIter.seek A B a b u = some s' ∧ Unites RA RB s' n (max t u) (Pa ∪ Pb) := by
  obtain ⟨a', ha', hsa⟩ := ha.seek hA u
  obtain ⟨b', hb', hsb⟩ := hb.seek hB u
  refine ⟨.union a' b', ?_, Pa, Pb, hsa, hsb, rfl⟩
  rw [UnionTrieIter.seek, ha', hb']
  rfl

theorem union_bounded {k : Nat} (ha : Side RA a n t Pa) (hb : Side RB b n t Pb) (hk : k ∈ keysFrom (Pa ∪ Pb) t) :
    k < u64Max := by
  rw [keysFrom_union] at hk
  obtain ⟨ta, ha, heqa⟩ := ha
  obtain ⟨tb, hb, heqb⟩ := hb
  rcases hk with hk | hk
  · exact hA.bounded ha (heqa ▸ hk)
  · exact hB.bounded hb (heqb ▸ hk)

/-- In front of its least key the union has not ended and reads it. -/
theorem union_current {k : Nat} (ha : Side RA a n t Pa) (hb : Side RB b n t Pb)
    (hk : IsLeast (keysFrom (Pa ∪ Pb) t) k) :
    UnionTrieIter.atEnd A B a b = false ∧ UnionTrieIter.key A B a b = some k := by
  have hend : UnionTrieIter.atEnd A B a b = false := by
    rw [Bool.eq_false_iff, Ne, union_atEnd hA hB ha hb]
    exact Set.Nonempty.ne_empty ⟨k, hk.1⟩
  obtain ⟨k', hkey, hk'⟩ := union_key hA hB ha hb hend
  exact ⟨hend, hk'.unique hk ▸ hkey⟩

theorem union_advance {k : Nat} (ha : Side RA a n t Pa) (hb : Side RB b n t Pb)
    (hk : IsLeast (keysFrom (Pa ∪ Pb) t) k) :
    ∃ s', UnionTrieIter.advance A B a b = some s' ∧ Unites RA RB s' n (k + 1) (Pa ∪ Pb) := by
  obtain ⟨hend, hkey⟩ := union_current hA hB ha hb hk
  -- below u64::MAX the addition does not saturate
  have hmin : min (k + 1) u64Max = k + 1 := by
    have hlt := union_bounded hA hB ha hb hk.1
    omega
  have hmax : max t (k + 1) = k + 1 := by
    have hle := hk.1.1
    omega
  rw [UnionTrieIter.advance, hend, hkey, if_neg Bool.false_ne_true, Option.bind_some, hmin]
  have hseek := union_seek hA hB ha hb (k + 1)
  rwa [hmax] at hseek

theorem union_descend {k : Nat} (ha : Side RA a (n + 2) t Pa) (hb : Side RB b (n + 2) t Pb)
    (hk : IsLeast (keysFrom (Pa ∪ Pb) t) k) :
    ∃ s', UnionTrieIter.descend A B a b = some s' ∧ Unites RA RB s' (n + 1) 0 (below (Pa ∪ Pb) k) := by
  obtain ⟨hend, hkey⟩ := union_current hA hB ha hb hk
  have hunion : below (Pa ∪ Pb) k = below Pa k ∪ below Pb k := rfl
  obtain ⟨hmem, hleast⟩ := hk
  rw [keysFrom_union] at hmem hleast
  have hsa := ha.descend hA (hmem.elim (fun h => h.1) fun h => h.1) fun x hx => hleast (.inl hx)
  have hsb := hb.descend hB (hmem.elim (fun h => h.1) fun h => h.1) fun x hx => hleast (.inr hx)
  rw [UnionTrieIter.descend, hend, hkey, hunion, Option.bind_some]
  rcases hsa with ⟨hma, a', ha', hsa⟩ | ⟨hma, hna⟩
  · rcases hsb with ⟨hmb, b', hb', hsb⟩ | ⟨hmb, hnb⟩
    · refine ⟨.union a' b', ?_, below Pa k, below Pb k, ⟨0, hsa, rfl⟩, ⟨0, hsb, rfl⟩, rfl⟩
      rw [hma, hmb, ha', hb']
      rfl
    · refine ⟨.left a', ?_, ?_⟩
      · rw [hma, hmb, ha']
        rfl
      · rw [hnb, Set.union_empty]
        exact hsa
  · rcases hsb with ⟨hmb, b', hb', hsb⟩ | ⟨hmb, hnb⟩
    · refine ⟨.right b', ?_, ?_⟩
      · rw [hma, hmb, hb']
        rfl
      · rw [hna, Set.empty_union]
        exact hsb
    · rcases hmem with ⟨_, p, hp⟩ | ⟨_, p, hp⟩
      · exact (Set.notMem_empty p (hna ▸ hp)).elim
      · exact (Set.notMem_empty p (hnb ▸ hp)).elim

/-- The union obeys the contract, in the union of the paths. -/
theorem obeys_union : Obeys (UnionTrieIter.iter A B) (Unites RA RB) where
  bounded := by
    intro s n t P k hs hk
    cases s with
    | union a b =>
      obtain ⟨Pa, Pb, ha, hb, rfl⟩ := hs
      exact union_bounded hA hB ha hb hk
    | left a => exact hA.bounded hs hk
    | right b => exact hB.bounded hs hk
    | empty => exact hs.elim
  atEnd := by
    intro s n t P hs
    cases s with
    | union a b =>
      obtain ⟨Pa, Pb, ha, hb, rfl⟩ := hs
      exact union_atEnd hA hB ha hb
    | left a => exact hA.atEnd hs
    | right b => exact hB.atEnd hs
    | empty => exact hs.elim
  key := by
    intro s n t P hs hend
    cases s with
    | union a b =>
      obtain ⟨Pa, Pb, ha, hb, rfl⟩ := hs
      exact union_key hA hB ha hb hend
    | left a => exact hA.key hs hend
    | right b => exact hB.key hs hend
    | empty => exact hs.elim
  seek := by
    intro s n t P u hs hend
    cases s with
    | union a b =>
      obtain ⟨Pa, Pb, ha, hb, rfl⟩ := hs
      exact union_seek hA hB ha hb u
    | left a => exact exists_map (hA.seek u hs hend)
    | right b => exact exists_map (hB.seek u hs hend)
    | empty => exact hs.elim
  advance := by
    intro s n t P k hs hk
    cases s with
    | union a b =>
      obtain ⟨Pa, Pb, ha, hb, rfl⟩ := hs
      exact union_advance hA hB ha hb hk
    | left a => exact exists_map (hA.advance hs hk)
    | right b => exact exists_map (hB.advance hs hk)
    | empty => exact hs.elim
  descend := by
    intro s n t P k hs hk
    cases s with
    | union a b =>
      obtain ⟨Pa, Pb, ha, hb, rfl⟩ := hs
      exact union_descend hA hB ha hb hk
    | left a => exact exists_map (hA.descend hs hk)
    | right b => exact exists_map (hB.descend hs hk)
    | empty => exact hs.elim

end Union

/-! ## `SortedVecTrie` -/

/-- The array of a row. -/
def Row.path (row : Row) : List Nat := [row.s, row.p, row.o]

/-- The rows from `lo` to `hi` share the columns before `col`. -/
structure SortedVecTrie where
  rows : List Row
  lo : Nat
  hi : Nat
  col : Nat
  pos : Nat

namespace SortedVecTrie

def new (rows : List Row) : SortedVecTrie := ⟨rows, 0, rows.length, 0, 0⟩

variable (tr : SortedVecTrie)

def valAt (i : Nat) : Option Nat := tr.rows[i]?.bind fun row => row.path[tr.col]?

def lowerBound (target : Nat) : Nat := partitionPoint (fun i => (tr.valAt i).any fun v => v < target) tr.lo tr.hi

def atEnd : Bool := tr.hi ≤ tr.lo + tr.pos

def key : Option Nat := tr.valAt (tr.lo + tr.pos)

def seek (target : Nat) : Option SortedVecTrie :=
  if tr.atEnd then some tr
  else (tr.valAt (tr.lo + tr.pos)).bind fun v =>
    if target ≤ v then some tr else some { tr with pos := tr.lowerBound target - tr.lo }

def advance : Option SortedVecTrie :=
  if tr.atEnd then some tr else tr.key.bind fun curKey => tr.seek (min (curKey + 1) u64Max)

/-- Where the rows with the current key end. -/
def runEnd (curKey : Nat) : Nat :=
  partitionPoint (fun i => (tr.valAt i).any fun v => v = curKey) (tr.lo + tr.pos) tr.hi

/-- `open`; `none` inside is the `EmptyTrieIter` of a trie that has ended. -/
def descend : Option (Option SortedVecTrie) :=
  if tr.atEnd then some none
  else tr.key.bind fun curKey =>
    some (some { tr with lo := tr.lo + tr.pos, hi := tr.runEnd curKey, col := tr.col + 1, pos := 0 })

def iter : TrieIterator (Option SortedVecTrie) where
  key
    | some tr => tr.key
    | none => some 0
  atEnd
    | some tr => tr.atEnd
    | none => true
  advance
    | some tr => tr.advance.map some
    | none => some none
  seek
    | some tr, target => (tr.seek target).map some
    | none, _ => some none
  descend
    | some tr => tr.descend
    | none => some none

/-- The trie stands in front of the keys from `t` on. -/
structure Holds (tr : SortedVecTrie) (n t : Nat) (P : Paths) : Prop where
  levels : tr.col + (n + 1) = 3
  inRows : tr.hi ≤ tr.rows.length
  inRange : tr.lo + tr.pos ≤ tr.hi
  sorted : tr.rows.Pairwise (· ≤ ·)
  fits : ∀ row ∈ tr.rows, ∀ v ∈ row.path, v < u64Max
  shared : ∀ i j row row', tr.lo ≤ i → i ≤ j → j < tr.hi → tr.rows[i]? = some row → tr.rows[j]? = some row' →
    row.path.take tr.col = row'.path.take tr.col
  paths : ∀ p, p ∈ P ↔ ∃ i row, tr.lo ≤ i ∧ i < tr.hi ∧ tr.rows[i]? = some row ∧ row.path.drop tr.col = p
  split : ∀ i v, tr.lo ≤ i → i < tr.hi → tr.valAt i = some v → (v < t ↔ i < tr.lo + tr.pos)

end SortedVecTrie

/-- Rows that share their first columns are in the order of the next one. -/
theorem Row.le_path {row row' : Row} (hle : row ≤ row') {c v v' : Nat}
    (hshared : row.path.take c = row'.path.take c)
    (hv : row.path[c]? = some v) (hv' : row'.path[c]? = some v') : v ≤ v' := by
  have hkey : row.key ≤ row'.key := hle
  rw [Row.key, Row.key, Prod.Lex.toLex_le_toLex, Prod.Lex.toLex_le_toLex] at hkey
  simp only [Row.path] at hshared hv hv'
  rcases c with _ | _ | _ | c
  · simp at hv hv'
    omega
  · simp at hshared hv hv'
    omega
  · simp at hshared hv hv'
    omega
  · simp at hv

namespace SortedVecTrie

variable {tr : SortedVecTrie} {n t k : Nat} {P : Paths}

theorem Holds.row (h : tr.Holds n t P) {i : Nat} (hi : i < tr.hi) :
    ∃ row v, tr.rows[i]? = some row ∧ tr.valAt i = some v ∧
      row.path.drop tr.col = v :: row.path.drop (tr.col + 1) := by
  have hlen : i < tr.rows.length := Nat.lt_of_lt_of_le hi h.inRows
  have hcol : tr.col < tr.rows[i].path.length := by
    have hlevels := h.levels
    show tr.col < 3
    omega
  refine ⟨tr.rows[i], tr.rows[i].path[tr.col], getElem?_eq_getElem hlen, ?_, drop_eq_getElem_cons hcol⟩
  rw [valAt, getElem?_eq_getElem hlen, Option.bind_some, getElem?_eq_getElem hcol]

theorem Holds.mono (h : tr.Holds n t P) {i j v v' : Nat} (hlo : tr.lo ≤ i) (hij : i ≤ j) (hj : j < tr.hi)
    (hv : tr.valAt i = some v) (hv' : tr.valAt j = some v') : v ≤ v' := by
  obtain ⟨row, hrow, hval⟩ := Option.bind_eq_some_iff.mp hv
  obtain ⟨row', hrow', hval'⟩ := Option.bind_eq_some_iff.mp hv'
  refine Row.le_path ?_ (h.shared i j row row' hlo hij hj hrow hrow') hval hval'
  obtain ⟨hi, rfl⟩ := List.getElem?_eq_some_iff.mp hrow
  obtain ⟨hj, rfl⟩ := List.getElem?_eq_some_iff.mp hrow'
  rcases Nat.eq_or_lt_of_le hij with rfl | hlt
  · exact le_rfl
  · exact pairwise_iff_getElem.mp h.sorted i j hi hj hlt

theorem Holds.mem_keysFrom (h : tr.Holds n t P) :
    k ∈ keysFrom P t ↔ ∃ i, tr.lo + tr.pos ≤ i ∧ i < tr.hi ∧ tr.valAt i = some k := by
  constructor
  · rintro ⟨hle, p, hp⟩
    obtain ⟨i, row, hlo, hhi, hrow, hdrop⟩ := (h.paths _).mp hp
    obtain ⟨row', v, hrow', hval, hdrop'⟩ := h.row hhi
    cases hrow.symm.trans hrow'
    cases hdrop.symm.trans hdrop'
    refine ⟨i, ?_, hhi, hval⟩
    have hsplit := h.split i k hlo hhi hval
    omega
  · rintro ⟨i, hlo, hhi, hval⟩
    obtain ⟨row, v, hrow, hval', hdrop⟩ := h.row hhi
    cases hval.symm.trans hval'
    have hsplit := h.split i k (by omega) hhi hval
    exact ⟨by omega, _, (h.paths _).mpr ⟨i, row, by omega, hhi, hrow, hdrop⟩⟩

theorem Holds.bounded (h : tr.Holds n t P) (hk : k ∈ keysFrom P t) : k < u64Max := by
  obtain ⟨i, _, _, hval⟩ := h.mem_keysFrom.mp hk
  obtain ⟨row, hrow, hval⟩ := Option.bind_eq_some_iff.mp hval
  exact h.fits row (mem_of_getElem? hrow) k (mem_of_getElem? hval)

theorem Holds.least (h : tr.Holds n t P) (hend : tr.atEnd = false) :
    ∃ k, tr.valAt (tr.lo + tr.pos) = some k ∧ IsLeast (keysFrom P t) k := by
  rw [atEnd, decide_eq_false_iff_not, Nat.not_le] at hend
  obtain ⟨row, v, _, hval, _⟩ := h.row hend
  refine ⟨v, hval, h.mem_keysFrom.mpr ⟨_, le_rfl, hend, hval⟩, fun x hx => ?_⟩
  obtain ⟨i, hlo, hhi, hx⟩ := h.mem_keysFrom.mp hx
  exact h.mono (Nat.le_add_right _ _) hlo hhi hval hx

theorem Holds.atEnd_iff (h : tr.Holds n t P) : tr.atEnd = true ↔ keysFrom P t = ∅ := by
  constructor
  · intro hend
    refine Set.eq_empty_of_forall_notMem fun k hk => ?_
    obtain ⟨i, hlo, hhi, _⟩ := h.mem_keysFrom.mp hk
    have hge := of_decide_eq_true hend
    omega
  · intro hempty
    by_contra hend
    obtain ⟨k, _, hk, _⟩ := h.least (Bool.eq_false_iff.mpr hend)
    exact Set.notMem_empty k (hempty ▸ hk)

/-- A binary search over the values that are left. -/
theorem Holds.partition (h : tr.Holds n t P) (q : Nat → Bool) {lo : Nat} (hlo : tr.lo ≤ lo) (hhi : lo ≤ tr.hi)
    (hq : ∀ i w w', lo ≤ i → i < tr.hi → tr.valAt i = some w → w ≤ w' → q w' = true → q w = true) :
    lo ≤ partitionPoint (fun i => (tr.valAt i).any q) lo tr.hi ∧
      partitionPoint (fun i => (tr.valAt i).any q) lo tr.hi ≤ tr.hi ∧
      ∀ i w, lo ≤ i → i < tr.hi → tr.valAt i = some w →
        (q w = true ↔ i < partitionPoint (fun i => (tr.valAt i).any q) lo tr.hi) := by
  have hspec := partitionPoint_spec (fun i => (tr.valAt i).any q) lo tr.hi (by
    intro i j hi hij hj hp
    obtain ⟨_, w, _, hw, _⟩ := h.row (Nat.lt_of_le_of_lt hij hj)
    obtain ⟨_, w', _, hw', _⟩ := h.row hj
    simp only [hw, hw', Option.any_some] at hp ⊢
    exact hq i w w' hi (Nat.lt_of_le_of_lt hij hj) hw (h.mono (hlo.trans hi) hij hj hw hw') hp)
  refine ⟨le_partitionPoint _ hhi, partitionPoint_le _ hhi, fun i w hi hi' hw => ⟨fun hqw => ?_, fun hlt => ?_⟩⟩
  · by_contra hge
    have hnot := hspec.2 i (Nat.not_lt.mp hge) hi'
    simp [hw, hqw] at hnot
  · have hall := hspec.1 i hi hlt
    simpa [hw] using hall

theorem Holds.seek (h : tr.Holds n t P) (hend : tr.atEnd = false) (u : Nat) :
    ∃ tr', tr.seek u = some tr' ∧ tr'.Holds n (max t u) P := by
  obtain ⟨v, hval, hv⟩ := h.least hend
  have hcur := of_decide_eq_false hend
  have hle : t ≤ v := hv.1.1
  rw [SortedVecTrie.seek, hend, if_neg Bool.false_ne_true, hval, Option.bind_some]
  split
  · next huv =>
    refine ⟨tr, rfl, { h with split := fun i w hlo hhi hw => ?_ }⟩
    have hsplit := h.split i w hlo hhi hw
    have hcurrent : tr.lo + tr.pos ≤ i → v ≤ w := fun hi => h.mono (Nat.le_add_right _ _) hi hhi hval hw
    omega
  · next huv =>
    obtain ⟨hlo, hhi, hsplit⟩ :=
      h.partition (fun w => w < u) le_rfl (show tr.lo ≤ tr.hi by omega) fun _ w w' _ _ _ hww hw => by
      simp only [decide_eq_true_eq] at hw ⊢
      omega
    refine ⟨_, rfl, { h with inRange := ?_, split := fun i w hi hi' hw => ?_ }⟩
    · rw [lowerBound, Nat.add_sub_of_le hlo]
      exact hhi
    · rw [lowerBound, Nat.add_sub_of_le hlo, ← hsplit i w hi hi' hw, decide_eq_true_iff]
      omega

/-- In front of its least key the trie has not ended and stands on a row with it. -/
theorem Holds.current (h : tr.Holds n t P) (hk : IsLeast (keysFrom P t) k) :
    tr.atEnd = false ∧ tr.valAt (tr.lo + tr.pos) = some k := by
  have hend : tr.atEnd = false := by
    rw [Bool.eq_false_iff, Ne, h.atEnd_iff]
    exact Set.Nonempty.ne_empty ⟨k, hk.1⟩
  obtain ⟨v, hval, hv⟩ := h.least hend
  exact ⟨hend, hv.unique hk ▸ hval⟩

theorem Holds.advance (h : tr.Holds n t P) (hk : IsLeast (keysFrom P t) k) :
    ∃ tr', tr.advance = some tr' ∧ tr'.Holds n (k + 1) P := by
  obtain ⟨hend, hval⟩ := h.current hk
  have hmin : min (k + 1) u64Max = k + 1 := by
    have hlt := h.bounded hk.1
    omega
  have hmax : max t (k + 1) = k + 1 := by
    have hle := hk.1.1
    omega
  have hseek := h.seek hend (k + 1)
  rw [SortedVecTrie.advance, hend, if_neg Bool.false_ne_true, key, hval, Option.bind_some, hmin]
  rwa [hmax] at hseek

/-- The rows with the current key are a range, found by its end. -/
theorem Holds.descend (h : tr.Holds (n + 1) t P) (hk : IsLeast (keysFrom P t) k) :
    ∃ tr', tr.descend = some (some tr') ∧ tr'.Holds n 0 (below P k) := by
  obtain ⟨hend, hval⟩ := h.current hk
  have hle : t ≤ k := hk.1.1
  have hrun := h.partition (fun w => w = k) (Nat.le_add_right _ _) h.inRange fun i w w' hlo hhi hw hww hw' => by
    have hvw := h.mono (Nat.le_add_right _ _) hlo hhi hval hw
    simp only [decide_eq_true_eq] at hw' ⊢
    omega
  rw [← runEnd] at hrun
  obtain ⟨hlo, hhi, hrun⟩ := hrun
  rw [SortedVecTrie.descend, hend, if_neg Bool.false_ne_true, key, hval, Option.bind_some]
  generalize tr.runEnd k = hi at hlo hhi hrun
  have hrow : ∀ i row, tr.lo + tr.pos ≤ i → i < hi → tr.rows[i]? = some row →
      row.path.drop tr.col = k :: row.path.drop (tr.col + 1) := by
    intro i row hi₁ hi₂ hri
    obtain ⟨row', w, hri', hw, hdrop⟩ := h.row (Nat.lt_of_lt_of_le hi₂ hhi)
    cases hri.symm.trans hri'
    rwa [of_decide_eq_true ((hrun i w hi₁ (Nat.lt_of_lt_of_le hi₂ hhi) hw).mpr hi₂)] at hdrop
  refine ⟨_, rfl, ?_, hhi.trans h.inRows, hlo, h.sorted, h.fits, ?_, ?_, ?_⟩
  · have hlevels := h.levels
    show tr.col + 1 + (n + 1) = 3
    omega
  · intro i j row row' (hi₁ : tr.lo + tr.pos ≤ i) hij (hj : j < hi) hri hrj
    have hsame := h.shared i j row row' (by omega) hij (by omega) hri hrj
    rw [take_add_one, take_add_one, hsame, ← head?_drop, ← head?_drop,
      hrow i row hi₁ (by omega) hri, hrow j row' (by omega) hj hrj]
    rfl
  · intro p
    constructor
    · intro hp
      obtain ⟨i, row, hi₁, hi₂, hri, hdrop⟩ := (h.paths _).mp hp
      obtain ⟨row', w, hri', hw, hdrop'⟩ := h.row hi₂
      cases hri.symm.trans hri'
      cases hdrop.symm.trans hdrop'
      have hsplit := h.split i k hi₁ hi₂ hw
      have hcur : tr.lo + tr.pos ≤ i := by omega
      exact ⟨i, row, hcur, (hrun i k hcur hi₂ hw).mp (decide_eq_true rfl), hri, rfl⟩
    · rintro ⟨i, row, hi₁, hi₂, hri, rfl⟩
      exact (h.paths _).mpr ⟨i, row, (Nat.le_add_right _ _).trans hi₁, Nat.lt_of_lt_of_le hi₂ hhi,
        hri, hrow i row hi₁ hi₂ hri⟩
  · intro i w (hi₁ : tr.lo + tr.pos ≤ i) _ _
    show w < 0 ↔ i < tr.lo + tr.pos + 0
    omega

/-- What an iterator over sorted rows stands in; `EmptyTrieIter` stands in no path. -/
def Stood : Stands (Option SortedVecTrie)
  | some tr, n + 1, t, P => tr.Holds n t P
  | some _, 0, _, _ => False
  | none, _, _, P => P = ∅

theorem keysFrom_empty : keysFrom (∅ : Paths) t = ∅ :=
  Set.eq_empty_of_forall_notMem fun _ ⟨_, _, hp⟩ => Set.notMem_empty _ hp

/-- Each move keeps the range of rows that is left. -/
theorem obeys_iter : Obeys iter Stood where
  bounded := by
    rintro (_ | tr) n t P k hs hk
    · rw [show P = ∅ from hs, keysFrom_empty] at hk
      exact (Set.notMem_empty k hk).elim
    · cases n with
      | zero => exact hs.elim
      | succ n => exact Holds.bounded hs hk
  atEnd := by
    rintro (_ | tr) n t P hs
    · rw [show P = ∅ from hs, keysFrom_empty]
      exact iff_of_true rfl rfl
    · cases n with
      | zero => exact hs.elim
      | succ n => exact Holds.atEnd_iff hs
  key := by
    rintro (_ | tr) n t P hs hend
    · cases hend
    · cases n with
      | zero => exact hs.elim
      | succ n => exact Holds.least hs hend
  seek := by
    rintro (_ | tr) n t P u hs hend
    · cases hend
    · cases n with
      | zero => exact hs.elim
      | succ n => exact exists_map (Holds.seek hs hend u)
  advance := by
    rintro (_ | tr) n t P k hs hk
    · rw [show P = ∅ from hs, keysFrom_empty] at hk
      exact (Set.notMem_empty k hk.1).elim
    · cases n with
      | zero => exact hs.elim
      | succ n => exact exists_map (Holds.advance hs hk)
  descend := by
    rintro (_ | tr) n t P k hs hk
    · rw [show P = ∅ from hs, keysFrom_empty] at hk
      exact (Set.notMem_empty k hk.1).elim
    · obtain ⟨tr', hdesc, htr'⟩ := Holds.descend hs hk
      exact ⟨some tr', hdesc, htr'⟩

/-- A trie stands in front of all of its rows. -/
theorem holds_start {rows : List Row} {col n : Nat} (hlevels : col + (n + 1) = 3) (hsorted : rows.Pairwise (· ≤ ·))
    (hfits : ∀ row ∈ rows, ∀ v ∈ row.path, v < u64Max)
    (hshared : ∀ row ∈ rows, ∀ row' ∈ rows, row.path.take col = row'.path.take col) :
    Holds ⟨rows, 0, rows.length, col, 0⟩ n 0 {p | ∃ row ∈ rows, row.path.drop col = p} where
  levels := hlevels
  inRows := le_rfl
  inRange := Nat.zero_le _
  sorted := hsorted
  fits := hfits
  shared i j row row' _ _ _ hi hj := hshared row (mem_of_getElem? hi) row' (mem_of_getElem? hj)
  paths p := by
    constructor
    · rintro ⟨row, hrow, rfl⟩
      obtain ⟨i, hi, hget⟩ := mem_iff_getElem.mp hrow
      exact ⟨i, row, Nat.zero_le i, hi, List.getElem?_eq_some_iff.mpr ⟨hi, hget⟩, rfl⟩
    · rintro ⟨i, row, _, _, hrow, rfl⟩
      exact ⟨row, mem_of_getElem? hrow, rfl⟩
  split i v _ _ _ := by
    show v < 0 ↔ i < 0 + 0
    omega

/-! ### `join_scan` -/

/-- A row of `at_column`: the other columns are zero. -/
def columnRow (col : Fin 3) (v : Nat) : Row :=
  match col with
  | 0 => ⟨v, 0, 0⟩
  | 1 => ⟨0, v, 0⟩
  | 2 => ⟨0, 0, v⟩

def atColumn (values : List Nat) (col : Fin 3) : SortedVecTrie :=
  ⟨values.map (columnRow col), 0, (values.map (columnRow col)).length, col, 0⟩

/-- `join_scan`. -/
def joinScan (rows : List Row) (bound : Fin 3 → Option Nat) (target : Fin 3) : Option SortedVecTrie :=
  let vals := Reasoning.joinScan rows bound target
  if vals.isEmpty then none else some (atColumn vals target)

theorem columnRow_path (col : Fin 3) (v : Nat) :
    (columnRow col v).path = replicate col 0 ++ v :: replicate (2 - col) 0 := by
  fin_cases col <;> rfl

theorem holds_atColumn {values : List Nat} (col : Fin 3) (hsorted : values.Pairwise (· < ·))
    (hfits : ∀ v ∈ values, v < u64Max) :
    (atColumn values col).Holds (2 - col) 0 {p | ∃ v ∈ values, v :: replicate (2 - col) 0 = p} := by
  have hpaths : {p | ∃ row ∈ values.map (columnRow col), row.path.drop col = p} =
      {p | ∃ v ∈ values, v :: replicate (2 - col) 0 = p} := by
    ext p
    simp [columnRow_path]
  rw [← hpaths]
  refine holds_start (by omega) ?_ ?_ ?_
  · refine pairwise_map.mpr (hsorted.imp fun {v w} hvw => ?_)
    show (columnRow col v).key ≤ (columnRow col w).key
    rw [Row.key, Row.key, Prod.Lex.toLex_le_toLex, Prod.Lex.toLex_le_toLex]
    fin_cases col
    · exact .inl hvw
    · exact .inr ⟨rfl, .inl hvw⟩
    · exact .inr ⟨rfl, .inr ⟨rfl, hvw.le⟩⟩
  · intro row hrow v hv
    obtain ⟨w, hw, rfl⟩ := mem_map.mp hrow
    rw [columnRow_path] at hv
    rcases mem_append.mp hv with hv | hv
    · rw [eq_of_mem_replicate hv]
      exact Nat.lt_of_le_of_lt (Nat.zero_le w) (hfits w hw)
    · rcases mem_cons.mp hv with rfl | hv
      · exact hfits _ hw
      · rw [eq_of_mem_replicate hv]
        exact Nat.lt_of_le_of_lt (Nat.zero_le w) (hfits w hw)
  · intro row hrow row' hrow'
    obtain ⟨v, _, rfl⟩ := mem_map.mp hrow
    obtain ⟨w, _, rfl⟩ := mem_map.mp hrow'
    rw [columnRow_path, columnRow_path, take_append_of_le_length (by simp), take_append_of_le_length (by simp)]

/-- The rows that a scan goes through. -/
def Bound (bound : Fin 3 → Option Nat) (target : Fin 3) (row : Row) : Prop :=
  ∀ i, i = target ∨ ∀ v, bound i = some v → v = row.get i

theorem mem_joinScan {rows : List Row} {bound : Fin 3 → Option Nat} {target : Fin 3} {v : Nat} :
    v ∈ Reasoning.joinScan rows bound target ↔ ∃ row ∈ rows, Bound bound target row ∧ row.get target = v := by
  simp only [Reasoning.joinScan, Sorted.mem_ofList, mem_map, mem_filter, decide_eq_true_eq, Bound, and_assoc,
    Option.all_eq_true]

theorem keysFrom_scan {rows : List Row} {bound : Fin 3 → Option Nat} {target : Fin 3} {l : List Nat} {k : Nat} :
    k ∈ keysFrom {p | ∃ row ∈ rows, Bound bound target row ∧ row.get target :: l = p} 0 ↔
      k ∈ Reasoning.joinScan rows bound target := by
  rw [mem_joinScan]
  constructor
  · rintro ⟨_, p, row, hrow, hbound, heq⟩
    exact ⟨row, hrow, hbound, (cons.inj heq).1⟩
  · rintro ⟨row, hrow, hbound, rfl⟩
    exact ⟨Nat.zero_le _, l, row, hrow, hbound, rfl⟩

/-- `join_scan` stands in front of the values of the target in the rows with the bound fields. -/
theorem stood_joinScan (rows : List Row) (bound : Fin 3 → Option Nat) (target : Fin 3)
    (hfits : ∀ row ∈ rows, row.get target < u64Max) :
    Stood (joinScan rows bound target) (3 - target) 0
      {p | ∃ row ∈ rows, Bound bound target row ∧ row.get target :: replicate (2 - target) 0 = p} := by
  have hpaths : {p | ∃ row ∈ rows, Bound bound target row ∧ row.get target :: replicate (2 - target) 0 = p} =
      {p | ∃ v ∈ Reasoning.joinScan rows bound target, v :: replicate (2 - target) 0 = p} := by
    ext p
    constructor
    · rintro ⟨row, hrow, hbound, rfl⟩
      exact ⟨_, mem_joinScan.mpr ⟨row, hrow, hbound, rfl⟩, rfl⟩
    · rintro ⟨v, hv, rfl⟩
      obtain ⟨row, hrow, hbound, rfl⟩ := mem_joinScan.mp hv
      exact ⟨row, hrow, hbound, rfl⟩
  have hlevels : 3 - (target : Nat) = 2 - target + 1 := by omega
  rw [hpaths, hlevels, joinScan]
  split
  · next hempty =>
    rw [isEmpty_iff.mp hempty]
    exact Set.eq_empty_of_forall_notMem fun _ ⟨_, hv, _⟩ => not_mem_nil hv
  · refine holds_atColumn target (Sorted.pairwise_ofList _) fun v hv => ?_
    obtain ⟨row, hrow, _, rfl⟩ := mem_joinScan.mp hv
    exact hfits row hrow

end SortedVecTrie

/-! ## The iterators of the joins -/

/-- The state is at the root of a trie with these paths, `n` levels deep. -/
def Enumerates {σ : Type} (I : TrieIterator σ) (s : σ) (n : Nat) (P : Paths) : Prop := ∃ R, Obeys I R ∧ R s n 0 P

/-- The list that the join reads for a scan of two relations is what the union of
their iterators visits. -/
theorem visits_combinedSource (rows rows' : List Row) (bound : Fin 3 → Option Nat) (target : Fin 3)
    (hfits : ∀ row ∈ rows ++ rows', row.get target < u64Max) :
    Visits (UnionTrieIter.iter SortedVecTrie.iter SortedVecTrie.iter)
      (.union (SortedVecTrie.joinScan rows bound target) (SortedVecTrie.joinScan rows' bound target))
      (combinedSource (sliceSource rows) (sliceSource rows') bound target) := by
  have hobeys := obeys_union SortedVecTrie.obeys_iter SortedVecTrie.obeys_iter
  have ha := SortedVecTrie.stood_joinScan rows bound target fun row hrow => hfits row (mem_append_left _ hrow)
  have hb := SortedVecTrie.stood_joinScan rows' bound target fun row hrow => hfits row (mem_append_right _ hrow)
  refine hobeys.visits ⟨_, _, ⟨0, ha, rfl⟩, ⟨0, hb, rfl⟩, rfl⟩
    (Sorted.pairwise_union (Sorted.pairwise_ofList _)) fun k => ?_
  rw [keysFrom_union, Set.mem_union, SortedVecTrie.keysFrom_scan, SortedVecTrie.keysFrom_scan]
  exact Sorted.mem_union

/-- The union of two iterators obeys the contract that they obey, in the union of
their paths; a trie of sorted rows obeys it in these rows, and `join_scan` in the values
of its target; and under the contract advancing reads the keys in ascending order, each
once. -/
theorem trieIterators_enumerate :
    (∀ {σ τ : Type} (A : TrieIterator σ) (B : TrieIterator τ) (a : σ) (b : τ) (n : Nat) (P Q : Paths),
      Enumerates A a n P → Enumerates B b n Q → Enumerates (UnionTrieIter.iter A B) (.union a b) n (P ∪ Q)) ∧
    (∀ rows : List Row, rows.Pairwise (· ≤ ·) → (∀ row ∈ rows, ∀ v ∈ row.path, v < u64Max) →
      Enumerates SortedVecTrie.iter (some (.new rows)) 3 {p | ∃ row ∈ rows, row.path = p}) ∧
    (∀ (rows : List Row) (bound : Fin 3 → Option Nat) (target : Fin 3), (∀ row ∈ rows, row.get target < u64Max) →
      Enumerates SortedVecTrie.iter (SortedVecTrie.joinScan rows bound target) (3 - target)
        {p | ∃ row ∈ rows, SortedVecTrie.Bound bound target row ∧
          row.get target :: replicate (2 - target) 0 = p}) ∧
    ∀ {σ : Type} (I : TrieIterator σ) (s : σ) (n : Nat) (P : Paths) (l : List Nat), Enumerates I s n P →
      l.Pairwise (· < ·) → (∀ k, k ∈ l ↔ k ∈ keysFrom P 0) → Visits I s l := by
  refine ⟨?_, ?_, ?_, ?_⟩
  · rintro σ τ A B a b n P Q ⟨RA, hA, ha⟩ ⟨RB, hB, hb⟩
    exact ⟨Unites RA RB, obeys_union hA hB, P, Q, ⟨0, ha, rfl⟩, ⟨0, hb, rfl⟩, rfl⟩
  · intro rows hsorted hfits
    exact ⟨_, SortedVecTrie.obeys_iter, SortedVecTrie.holds_start rfl hsorted hfits fun _ _ _ _ => rfl⟩
  · intro rows bound target hfits
    exact ⟨_, SortedVecTrie.obeys_iter, SortedVecTrie.stood_joinScan rows bound target hfits⟩
  · rintro σ I s n P l ⟨R, hI, hs⟩ hsorted hl
    exact hI.visits hs hsorted hl

theorem trieIterators_enumerate_two :
    Enumerates (UnionTrieIter.iter SortedVecTrie.iter SortedVecTrie.iter)
      (.union (some (.new [⟨1, 10, 2⟩, ⟨1, 11, 3⟩])) (some (.new [⟨2, 10, 3⟩]))) 3
      ({p | ∃ row ∈ [(⟨1, 10, 2⟩ : Row), ⟨1, 11, 3⟩],
        row.path = p} ∪ {p | ∃ row ∈ [(⟨2, 10, 3⟩ : Row)], row.path = p}) ∧
      Visits (UnionTrieIter.iter SortedVecTrie.iter SortedVecTrie.iter)
        (.union (some (.new [⟨1, 10, 2⟩, ⟨1, 11, 3⟩])) (some (.new [⟨2, 10, 3⟩]))) [1, 2] := by
  obtain ⟨hunion, hsorted, _, hvisits⟩ := trieIterators_enumerate
  have henum := hunion SortedVecTrie.iter SortedVecTrie.iter (some (.new [⟨1, 10, 2⟩, ⟨1, 11, 3⟩]))
    (some (.new [⟨2, 10, 3⟩])) 3 _ _ (hsorted _ (by decide) (by decide)) (hsorted _ (by decide) (by decide))
  refine ⟨henum, hvisits _ _ 3 _ _ henum (by decide) fun k => ?_⟩
  simp [keysFrom, Row.path, exists_or]
  omega

end Nova.Reasoning
