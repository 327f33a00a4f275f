import Mathlib.Algebra.Order.Ring.Nat
import Mathlib.Data.List.Sort
import Mathlib.Data.List.Nodup
import Mathlib.Data.List.Dedup

/-!
# Tries of height three

A `Level` is a list of sibling keys with what is below each of them. It is also
an iterator over them: `key` reads the first, `advance` drops it, `seek` drops
the keys below a target, `descend` goes to the children. A `Trie3` has three
levels; `Trie3.ofRows` builds one from sorted rows by grouping equal prefixes
and `Trie3.rows` reads the rows back (`Trie3.rows_ofRows`). In a trie with
increasing keys, seeking a key and descending selects exactly the rows that
start with it (`Level.filter_key`).
-/

namespace Nova.Lib

open List

abbrev Level (α : Type) := List (Nat × α)

namespace Level

variable {α β : Type}

/-! ## Iterators -/

def key (it : Level α) : Option Nat := it.head?.map Prod.fst

/-- Move to the first key that is at least `target`. -/
def seek (it : Level α) (target : Nat) : Level α := it.dropWhile fun e => e.1 < target

/-- What is below the current key. -/
def descend (it : Level α) : Option α := it.head?.map Prod.snd

/-- Seek a key and descend if it is there. -/
def find (it : Level α) (v : Nat) : Option α :=
  if (it.seek v).key = some v then (it.seek v).descend else none

def keys (it : Level α) : List Nat := it.map Prod.fst

def Increasing (it : Level α) : Prop := it.Pairwise fun a b => a.1 < b.1

theorem find_cons (k : Nat) (c : α) (it : Level α) (v : Nat) :
    Level.find ((k, c) :: it) v = if k < v then it.find v else if k = v then some c else none := by
  unfold find seek
  by_cases hk : k < v
  · rw [if_pos hk, dropWhile_cons_of_pos (by simpa using hk)]
  · rw [if_neg hk, dropWhile_cons_of_neg (by simpa using hk)]
    simp [key, descend]

/-- At most one sibling has a given key, and `find` finds it. -/
theorem filter_key {it : Level α} (h : it.Increasing) (v : Nat) :
    it.filter (fun e => e.1 = v) = (it.find v).elim [] fun c => [(v, c)] := by
  induction it with
  | nil => rfl
  | cons e it ih =>
    rcases e with ⟨k, c⟩
    rcases pairwise_cons.mp h with ⟨hlt, hrest⟩
    rw [find_cons, filter_cons]
    by_cases hk : k < v
    · rw [if_pos hk, if_neg (by simpa using Nat.ne_of_lt hk)]
      exact ih hrest
    · have htail : it.filter (fun e => e.1 = v) = [] := by
        rw [filter_eq_nil_iff]
        intro e he heq
        have hke := hlt e he
        rw [decide_eq_true_eq] at heq
        omega
      rw [if_neg hk, htail]
      by_cases heq : k = v
      · simp [heq]
      · simp [heq]

theorem find_eq_some {it : Level α} (h : it.Increasing) {v : Nat} {c : α} :
    it.find v = some c ↔ (v, c) ∈ it := by
  have hmem : (v, c) ∈ it ↔ (v, c) ∈ it.filter (fun e => e.1 = v) := by simp
  rw [hmem, filter_key h]
  cases it.find v with
  | none => simp
  | some c' => simp [eq_comm]

/-! ## Grouping rows -/

/-- Neighbouring rows with the same first column share a node. -/
def group : List (Nat × β) → Level (List β)
  | [] => []
  | (k, b) :: rows =>
    match group rows with
    | [] => [(k, [b])]
    | (k', bs) :: rest => if k = k' then (k, b :: bs) :: rest else (k, [b]) :: (k', bs) :: rest

/-- The rows of a level of groups. -/
def ungroup (l : Level (List β)) : List (Nat × β) := l.flatMap fun e => e.2.map fun b => (e.1, b)

theorem ungroup_group (rows : List (Nat × β)) : ungroup (group rows) = rows := by
  induction rows with
  | nil => rfl
  | cons row rows ih =>
    rcases row with ⟨k, b⟩
    rw [group]
    cases hg : group rows with
    | nil =>
      rw [hg] at ih
      simp [ungroup, ← ih]
    | cons e rest =>
      rcases e with ⟨k', bs⟩
      rw [hg] at ih
      simp only
      by_cases hk : k = k'
      · rw [if_pos hk, ← ih, hk]
        simp [ungroup]
      · rw [if_neg hk, ← ih]
        simp [ungroup]

theorem group_cons (k : Nat) (b : β) (rows : List (Nat × β)) :
    group ((k, b) :: rows) =
      (k, b :: (rows.takeWhile fun r => r.1 = k).map Prod.snd) ::
        group (rows.dropWhile fun r => r.1 = k) := by
  induction rows generalizing k b with
  | nil => rfl
  | cons row rows ih =>
    rcases row with ⟨k', b'⟩
    rw [group, ih]
    simp only
    by_cases hk : k = k'
    · rw [if_pos hk, takeWhile_cons_of_pos (by simp [hk]), dropWhile_cons_of_pos (by simp [hk]), hk]
      rfl
    · rw [if_neg hk, takeWhile_cons_of_neg (by simpa using Ne.symm hk),
        dropWhile_cons_of_neg (by simpa using Ne.symm hk), ih]
      rfl

variable {rows : List (Nat × β)}

theorem group_ne_nil (hne : rows ≠ []) : group rows ≠ [] := by
  rcases exists_cons_of_ne_nil hne with ⟨⟨k, b⟩, rows, rfl⟩
  rw [group_cons]
  simp

variable {e : Nat × List β}

theorem ne_nil_of_mem_group (he : e ∈ group rows) : e.2 ≠ [] := by
  induction hn : rows.length using Nat.strongRecOn generalizing rows with
  | ind n ih =>
    cases rows with
    | nil => cases he
    | cons row rows =>
      rcases row with ⟨k, b⟩
      rw [group_cons, mem_cons] at he
      rcases he with rfl | he
      · exact cons_ne_nil _ _
      · have hlen := (dropWhile_sublist (l := rows) fun r : Nat × β => decide (r.1 = k)).length_le
        rw [length_cons] at hn
        exact ih _ (by omega) he rfl

theorem exists_row_of_mem_group (he : e ∈ group rows) : ∃ b, (e.1, b) ∈ rows := by
  induction rows generalizing e with
  | nil => cases he
  | cons row rows ih =>
    rcases row with ⟨k, b⟩
    rw [group] at he
    cases hg : group rows with
    | nil =>
      simp only [hg, mem_singleton] at he
      exact ⟨b, by simp [he]⟩
    | cons e' rest =>
      rcases e' with ⟨k', bs⟩
      simp only [hg] at he
      by_cases hk : k = k'
      · rw [if_pos hk] at he
        rcases mem_cons.mp he with rfl | he
        · exact ⟨b, mem_cons_self⟩
        · rcases ih (hg ▸ mem_cons_of_mem _ he) with ⟨b', hb'⟩
          exact ⟨b', mem_cons_of_mem _ hb'⟩
      · rw [if_neg hk] at he
        rcases mem_cons.mp he with rfl | he
        · exact ⟨b, mem_cons_self⟩
        · rcases ih (hg ▸ he) with ⟨b', hb'⟩
          exact ⟨b', mem_cons_of_mem _ hb'⟩

theorem mem_keys_group {k : Nat} : k ∈ (group rows).keys ↔ ∃ b, (k, b) ∈ rows := by
  rw [keys, mem_map]
  constructor
  · intro h
    rcases h with ⟨e, he, rfl⟩
    exact exists_row_of_mem_group he
  · intro h
    rcases h with ⟨b, hb⟩
    rw [← ungroup_group rows, ungroup, mem_flatMap] at hb
    rcases hb with ⟨e, he, hb⟩
    rcases mem_map.mp hb with ⟨b', -, heq⟩
    exact ⟨e, he, congrArg Prod.fst heq⟩

theorem group_map {γ : Type} {f : Nat → Nat} {g : β → γ}
    (hinj : ∀ a ∈ rows, ∀ b ∈ rows, f a.1 = f b.1 → a.1 = b.1) :
    group (rows.map fun r => (f r.1, g r.2)) = (group rows).map fun e => (f e.1, e.2.map g) := by
  induction rows with
  | nil => rfl
  | cons row rows ih =>
    rcases row with ⟨k, b⟩
    have hrec := ih fun a ha a' ha' => hinj a (mem_cons_of_mem _ ha) a' (mem_cons_of_mem _ ha')
    rw [map_cons, group, hrec, group]
    cases hg : group rows with
    | nil => rfl
    | cons e rest =>
      rcases e with ⟨k', bs⟩
      rcases exists_row_of_mem_group (show (k', bs) ∈ group rows by rw [hg]; exact mem_cons_self) with ⟨b', hb'⟩
      have hsame : f k = f k' ↔ k = k' := by
        constructor
        · exact hinj (k, b) mem_cons_self (k', b') (mem_cons_of_mem _ hb')
        · exact fun heq => by rw [heq]
      by_cases hk : k = k'
      · simp [hk]
      · simp [hk, mt hsame.mp hk]

theorem group_increasing (h : rows.Pairwise fun a b => a.1 ≤ b.1) : (group rows).Increasing := by
  induction rows with
  | nil => exact .nil
  | cons row rows ih =>
    rcases row with ⟨k, b⟩
    rcases pairwise_cons.mp h with ⟨hle, hrest⟩
    have hinc := ih hrest
    rw [group]
    cases hg : group rows with
    | nil => exact pairwise_singleton _ _
    | cons e rest =>
      rcases e with ⟨k', bs⟩
      rw [hg] at hinc
      simp only
      by_cases hk : k = k'
      · rw [if_pos hk]
        rcases pairwise_cons.mp hinc with ⟨hlt, hrest⟩
        refine pairwise_cons.mpr ⟨?_, hrest⟩
        intro e he
        have hlt' := hlt e he
        simp only at hlt' ⊢
        omega
      · rw [if_neg hk]
        refine pairwise_cons.mpr ⟨?_, hinc⟩
        intro e he
        rcases exists_row_of_mem_group (hg ▸ mem_cons_self) with ⟨b', hb'⟩
        have hkk' : k ≤ k' := hle (k', b') hb'
        rcases mem_cons.mp he with rfl | he
        · simp only
          omega
        · have hlt := (pairwise_cons.mp hinc).1 e he
          simp only at hlt ⊢
          omega

theorem sublist_of_mem_group (he : e ∈ group rows) : (e.2.map fun b => (e.1, b)).Sublist rows := by
  conv_rhs => rw [← ungroup_group rows]
  exact sublist_flatten_of_mem (mem_map_of_mem he)

theorem filter_flatMap_key {γ : Type} (l : Level α) (f : Nat × α → List (Nat × γ))
    (hf : ∀ e ∈ l, ∀ r ∈ f e, r.1 = e.1) (v : Nat) :
    (l.flatMap f).filter (fun r => r.1 = v) = (l.filter fun e => e.1 = v).flatMap f := by
  induction l with
  | nil => rfl
  | cons e l ih =>
    have hhead : (f e).filter (fun r => r.1 = v) = if e.1 = v then f e else [] := by
      by_cases he : e.1 = v
      · rw [if_pos he, filter_eq_self]
        intro r hr
        simpa [hf e mem_cons_self r hr] using he
      · rw [if_neg he, filter_eq_nil_iff]
        intro r hr
        simpa [hf e mem_cons_self r hr] using he
    rw [flatMap_cons, filter_append, hhead,
      ih fun e he => hf e (mem_cons_of_mem _ he), filter_cons]
    by_cases he : e.1 = v
    · simp [he]
    · simp [he]

end Level

/-! ## Rows of three columns -/

abbrev Row := Nat × Nat × Nat

/-- Rows compare column by column. -/
def Row.le (a b : Row) : Bool :=
  a.1 < b.1 || (a.1 == b.1 && (a.2.1 < b.2.1 || (a.2.1 == b.2.1 && a.2.2 ≤ b.2.2)))

theorem Row.le_iff {a b : Row} : Row.le a b = true ↔
    a.1 < b.1 ∨ a.1 = b.1 ∧ (a.2.1 < b.2.1 ∨ a.2.1 = b.2.1 ∧ a.2.2 ≤ b.2.2) := by
  simp [Row.le]

theorem Row.le_total (a b : Row) : Row.le a b = true ∨ Row.le b a = true := by
  rw [Row.le_iff, Row.le_iff]
  omega

theorem Row.le_trans {a b c : Row} (hab : Row.le a b = true) (hbc : Row.le b c = true) :
    Row.le a c = true := by
  rw [Row.le_iff] at hab hbc ⊢
  omega

theorem Row.le_antisymm {a b : Row} (hab : Row.le a b = true) (hba : Row.le b a = true) : a = b := by
  rw [Row.le_iff] at hab hba
  rcases a with ⟨a₀, a₁, a₂⟩
  rcases b with ⟨b₀, b₁, b₂⟩
  simp only [Prod.mk.injEq] at hab hba ⊢
  omega

/-- Sorting rows. -/
def sortRows (rows : List Row) : List Row := rows.insertionSort fun a b => Row.le a b = true

theorem sortRows_perm (rows : List Row) : (sortRows rows).Perm rows := perm_insertionSort _ rows

theorem sortRows_sorted (rows : List Row) : (sortRows rows).Pairwise fun a b => Row.le a b = true := by
  have : Std.Total (fun a b : Row => Row.le a b = true) := ⟨Row.le_total⟩
  have : IsTrans Row fun a b => Row.le a b = true := ⟨fun _ _ _ => Row.le_trans⟩
  exact pairwise_insertionSort _ rows

theorem eq_of_sorted {as bs : List Row} (hperm : as.Perm bs) (has : as.Pairwise fun a b => Row.le a b = true)
    (hbs : bs.Pairwise fun a b => Row.le a b = true) : as = bs :=
  hperm.eq_of_pairwise (fun _ _ _ _ => Row.le_antisymm) has hbs

/-- Drop an element that equals its successor. -/
def dedupRuns : List Row → List Row
  | [] => []
  | [a] => [a]
  | a :: b :: rows => if a = b then dedupRuns (b :: rows) else a :: dedupRuns (b :: rows)

theorem mem_dedupRuns {rows : List Row} {r : Row} : r ∈ dedupRuns rows ↔ r ∈ rows := by
  fun_induction dedupRuns rows with
  | case1 => rfl
  | case2 a => rfl
  | case3 a rows ih =>
    rw [ih]
    simp
  | case4 a b rows hne ih =>
    rw [mem_cons, ih, mem_cons (b := a)]

theorem dedupRuns_sublist (rows : List Row) : (dedupRuns rows).Sublist rows := by
  fun_induction dedupRuns rows with
  | case1 => exact List.Sublist.refl _
  | case2 a => exact List.Sublist.refl _
  | case3 a rows ih => exact ih.cons a
  | case4 a b rows hne ih => exact ih.cons_cons a

theorem dedupRuns_nodup {rows : List Row} (h : rows.Pairwise fun a b => Row.le a b = true) :
    (dedupRuns rows).Nodup := by
  fun_induction dedupRuns rows with
  | case1 => exact .nil
  | case2 a => exact nodup_singleton a
  | case3 a rows ih => exact ih (pairwise_cons.mp h).2
  | case4 a b rows hne ih =>
    rcases pairwise_cons.mp h with ⟨ha, hrest⟩
    refine nodup_cons.mpr ⟨?_, ih hrest⟩
    intro hmem
    rcases mem_cons.mp (mem_dedupRuns.mp hmem) with heq | hmem
    · exact hne heq
    · have hba := (pairwise_cons.mp hrest).1 a hmem
      exact hne (Row.le_antisymm (ha b mem_cons_self) hba)

theorem dedupRuns_of_nodup {rows : List Row} (h : rows.Nodup) : dedupRuns rows = rows := by
  fun_induction dedupRuns rows with
  | case1 => rfl
  | case2 a => rfl
  | case3 a rows ih => exact absurd mem_cons_self (nodup_cons.mp h).1
  | case4 a b rows hne ih => rw [ih (nodup_cons.mp h).2]

/-! ## Tries -/

abbrev Trie3 := Level (Level (Level Unit))

namespace Trie3

def ofRows (rows : List Row) : Trie3 :=
  (Level.group rows).map fun e =>
    (e.1, (Level.group e.2).map fun e' => (e'.1, e'.2.map fun k => (k, ())))

/-- The rows below a node of the second level. -/
def rows₂ (l : Level (Level Unit)) : List (Nat × Nat) :=
  l.flatMap fun e => e.2.map fun e' => (e.1, e'.1)

def rows (t : Trie3) : List Row := t.flatMap fun e => (rows₂ e.2).map fun r => (e.1, r)

theorem rows₂_group (rs : List (Nat × Nat)) :
    rows₂ ((Level.group rs).map fun e' => (e'.1, e'.2.map fun k => (k, ()))) = rs := by
  conv_rhs => rw [← Level.ungroup_group rs]
  simp [rows₂, Level.ungroup, flatMap_map, Function.comp_def]

theorem rows_ofRows (rs : List Row) : (ofRows rs).rows = rs := by
  conv_rhs => rw [← Level.ungroup_group rs]
  simp only [rows, ofRows, Level.ungroup, flatMap_map]
  congr 1
  funext e
  rw [rows₂_group]

/-- Keys increase at every level. -/
structure Sorted (t : Trie3) : Prop where
  top : t.Increasing
  mid : ∀ e ∈ t, e.2.Increasing
  bottom : ∀ e ∈ t, ∀ e' ∈ e.2, e'.2.Increasing

theorem sorted_ofRows {rs : List Row} (hsorted : rs.Pairwise fun a b => Row.le a b = true)
    (hnodup : rs.Nodup) : (ofRows rs).Sorted := by
  have hmid : ∀ e ∈ Level.group rs, (e.2.Pairwise fun a b => a.1 ≤ b.1) ∧
      ∀ e' ∈ Level.group e.2, e'.2.Pairwise (· < ·) := by
    intro e he
    have hsub := Level.sublist_of_mem_group he
    have hle := pairwise_map.mp (hsorted.sublist hsub)
    have hne := pairwise_map.mp ((nodup_iff_pairwise_ne.mp hnodup).sublist hsub)
    constructor
    · refine hle.imp ?_
      intro a b hab
      have hab := Row.le_iff.mp hab
      simp only at hab
      omega
    · intro e' he'
      have hsub' := Level.sublist_of_mem_group he'
      refine (pairwise_map.mp ((hle.and hne).sublist hsub')).imp ?_
      intro a b hab
      have hle := Row.le_iff.mp hab.1
      have hne : a ≠ b := fun heq => hab.2 (by rw [heq])
      simp only at hle
      omega
  constructor
  · apply pairwise_map.mpr
    exact Level.group_increasing (hsorted.imp fun hab => by have := Row.le_iff.mp hab; omega)
  · intro e he
    rcases mem_map.mp he with ⟨e₀, he₀, rfl⟩
    exact pairwise_map.mpr (Level.group_increasing (hmid e₀ he₀).1)
  · intro e he e' he'
    rcases mem_map.mp he with ⟨e₀, he₀, rfl⟩
    rcases mem_map.mp he' with ⟨e₁, he₁, rfl⟩
    exact pairwise_map.mpr ((hmid e₀ he₀).2 e₁ he₁)

/-- Every node above the last level has children. -/
structure NoStub (t : Trie3) : Prop where
  mid : ∀ e ∈ t, e.2 ≠ []
  bottom : ∀ e ∈ t, ∀ e' ∈ e.2, e'.2 ≠ []

theorem noStub_ofRows (rs : List Row) : (ofRows rs).NoStub where
  mid := by
    intro e he
    rcases mem_map.mp he with ⟨g, hg, rfl⟩
    simpa using Level.group_ne_nil (Level.ne_nil_of_mem_group hg)
  bottom := by
    intro e he e' he'
    rcases mem_map.mp he with ⟨g, hg, rfl⟩
    rcases mem_map.mp he' with ⟨g', hg', rfl⟩
    simpa using Level.ne_nil_of_mem_group hg'

/-! ## Selecting rows -/

variable {t : Trie3}

theorem mem_rows {r : Row} : r ∈ t.rows ↔ ∃ l, (r.1, l) ∈ t ∧ ∃ l', (r.2.1, l') ∈ l ∧ (r.2.2, ()) ∈ l' := by
  simp only [rows, rows₂, mem_flatMap, mem_map, Prod.exists]
  constructor
  · rintro ⟨k, l, hl, k', k'', ⟨w, l', hl', x, u, hx, heq⟩, rfl⟩
    cases heq
    exact ⟨l, hl, l', hl', hx⟩
  · rintro ⟨l, hl, l', hl', hx⟩
    exact ⟨r.1, l, hl, r.2.1, r.2.2, ⟨r.2.1, l', hl', r.2.2, (), hx, rfl⟩, rfl⟩

theorem mem_keys₀ (h : t.NoStub) {x : Nat} : x ∈ t.keys ↔ ∃ r ∈ t.rows, r.1 = x := by
  rw [Level.keys, mem_map]
  constructor
  · rintro ⟨e, he, rfl⟩
    rcases exists_mem_of_ne_nil _ (h.mid e he) with ⟨e', he'⟩
    rcases exists_mem_of_ne_nil _ (h.bottom e he e' he') with ⟨e'', he''⟩
    exact ⟨(e.1, e'.1, e''.1), mem_rows.mpr ⟨e.2, he, e'.2, he', he''⟩, rfl⟩
  · rintro ⟨r, hr, rfl⟩
    rcases mem_rows.mp hr with ⟨l, hl, _⟩
    exact ⟨(r.1, l), hl, rfl⟩

theorem mem_keys₁ (hs : t.Sorted) (h : t.NoStub) {v x : Nat} :
    x ∈ ((t.find v).elim [] Level.keys) ↔ ∃ r ∈ t.rows, r.1 = v ∧ r.2.1 = x := by
  constructor
  · intro hx
    cases hfind : t.find v with
    | none =>
      rw [hfind] at hx
      cases hx
    | some l =>
      rw [hfind] at hx
      have hl := (Level.find_eq_some hs.top).mp hfind
      rcases mem_map.mp hx with ⟨e, he, rfl⟩
      rcases exists_mem_of_ne_nil _ (h.bottom _ hl e he) with ⟨e', he'⟩
      exact ⟨(v, e.1, e'.1), mem_rows.mpr ⟨l, hl, e.2, he, he'⟩, rfl, rfl⟩
  · rintro ⟨r, hr, rfl, rfl⟩
    rcases mem_rows.mp hr with ⟨l, hl, l', hl', _⟩
    rw [(Level.find_eq_some hs.top).mpr hl]
    exact mem_map.mpr ⟨_, hl', rfl⟩

theorem mem_keys₂ (hs : t.Sorted) {v w x : Nat} :
    x ∈ (((t.find v).bind fun l => l.find w).elim [] Level.keys) ↔
      ∃ r ∈ t.rows, r.1 = v ∧ r.2.1 = w ∧ r.2.2 = x := by
  constructor
  · intro hx
    cases hfind : (t.find v).bind fun l => l.find w with
    | none =>
      rw [hfind] at hx
      cases hx
    | some l' =>
      rw [hfind] at hx
      rcases Option.bind_eq_some_iff.mp hfind with ⟨l, hl, hl'⟩
      have hl := (Level.find_eq_some hs.top).mp hl
      have hl' := (Level.find_eq_some (hs.mid _ hl)).mp hl'
      rcases mem_map.mp hx with ⟨e, he, rfl⟩
      exact ⟨(v, w, e.1), mem_rows.mpr ⟨l, hl, l', hl', he⟩, rfl, rfl, rfl⟩
  · rintro ⟨r, hr, rfl, rfl, rfl⟩
    rcases mem_rows.mp hr with ⟨l, hl, l', hl', hx⟩
    rw [(Level.find_eq_some hs.top).mpr hl, Option.bind_some,
      (Level.find_eq_some (hs.mid _ hl)).mpr hl']
    exact mem_map.mpr ⟨_, hx, rfl⟩

theorem filter₀ (h : t.Sorted) (v : Nat) :
    t.rows.filter (fun r => r.1 = v) = (t.find v).elim [] fun l => (rows₂ l).map fun r => (v, r) := by
  have hkey : ∀ e ∈ t, ∀ r ∈ (rows₂ e.2).map fun r => (e.1, r), r.1 = e.1 := by
    intro e _ r hr
    rcases mem_map.mp hr with ⟨r', -, rfl⟩
    rfl
  rw [rows, Level.filter_flatMap_key t _ hkey, Level.filter_key h.top]
  cases t.find v with
  | none => rfl
  | some l => simp

theorem filter₁ {l : Level (Level Unit)} (h : l.Increasing) (v : Nat) :
    (rows₂ l).filter (fun r => r.1 = v) = (l.find v).elim [] fun l' => l'.map fun e => (v, e.1) := by
  have hkey : ∀ e ∈ l, ∀ r ∈ e.2.map fun e' => (e.1, e'.1), r.1 = e.1 := by
    intro e _ r hr
    rcases mem_map.mp hr with ⟨r', -, rfl⟩
    rfl
  rw [rows₂, Level.filter_flatMap_key l _ hkey, Level.filter_key h]
  cases l.find v with
  | none => rfl
  | some l' => simp

theorem filter₀₁ (h : t.Sorted) (v w : Nat) :
    t.rows.filter (fun r => r.1 = v ∧ r.2.1 = w) =
      ((t.find v).bind fun l => l.find w).elim [] fun l' => l'.map fun e => (v, w, e.1) := by
  have hsplit : t.rows.filter (fun r => r.1 = v ∧ r.2.1 = w) =
      (t.rows.filter (fun r => r.1 = v)).filter (fun r => r.2.1 = w) := by
    rw [filter_filter]
    congr 1
    funext r
    simp [Bool.and_comm]
  rw [hsplit, filter₀ h]
  cases hfind : t.find v with
  | none => rfl
  | some l =>
    have hmem := (Level.find_eq_some h.top).mp hfind
    have hfilter := filter₁ (h.mid (v, l) hmem) w
    simp only [Option.elim_some, Option.bind_some, filter_map]
    have hcomp : ((fun r : Row => decide (r.2.1 = w)) ∘ fun r : Nat × Nat => (v, r)) =
        fun r : Nat × Nat => decide (r.1 = w) := rfl
    rw [hcomp, hfilter]
    cases l.find w with
    | none => rfl
    | some l' => simp

theorem mem_rows_iff (h : t.Sorted) (v w x : Nat) :
    (v, w, x) ∈ t.rows ↔
      (((t.find v).bind fun l => l.find w).bind fun l' => l'.find x) = some () := by
  have hmem : (v, w, x) ∈ t.rows ↔ (v, w, x) ∈ t.rows.filter (fun r => r.1 = v ∧ r.2.1 = w) := by
    simp
  rw [hmem, filter₀₁ h]
  cases hfind : t.find v with
  | none => simp
  | some l =>
    have hl := (Level.find_eq_some h.top).mp hfind
    cases hfind' : l.find w with
    | none => simp [hfind']
    | some l' =>
      have hl' := (Level.find_eq_some (h.mid (v, l) hl)).mp hfind'
      simp only [Option.bind_some, hfind', Option.elim_some, mem_map]
      rw [Level.find_eq_some (h.bottom (v, l) hl (w, l') hl')]
      constructor
      · intro hx
        rcases hx with ⟨e, he, heq⟩
        simp only [Prod.mk.injEq, true_and] at heq
        rw [← heq]
        exact he
      · intro hx
        exact ⟨(x, ()), hx, rfl⟩

/-! ## Renaming keys -/

/-- The keys of each level renamed. -/
def mapKeys (f₀ f₁ f₂ : Nat → Nat) (t : Trie3) : Trie3 :=
  t.map fun e => (f₀ e.1, e.2.map fun e' => (f₁ e'.1, e'.2.map fun e'' => (f₂ e''.1, ())))

theorem mapKeys_ofRows {f₀ f₁ f₂ : Nat → Nat} {rows : List Row}
    (h₀ : ∀ a ∈ rows, ∀ b ∈ rows, f₀ a.1 = f₀ b.1 → a.1 = b.1)
    (h₁ : ∀ a ∈ rows, ∀ b ∈ rows, f₁ a.2.1 = f₁ b.2.1 → a.2.1 = b.2.1) :
    ofRows (rows.map fun r => (f₀ r.1, f₁ r.2.1, f₂ r.2.2)) = mapKeys f₀ f₁ f₂ (ofRows rows) := by
  have htop := Level.group_map (f := f₀) (g := fun r : Nat × Nat => (f₁ r.1, f₂ r.2)) h₀
  rw [ofRows, htop, ofRows, mapKeys, map_map, map_map]
  refine map_congr_left ?_
  intro e he
  have hsub := Level.sublist_of_mem_group he
  have hinj : ∀ a ∈ e.2, ∀ b ∈ e.2, f₁ a.1 = f₁ b.1 → a.1 = b.1 := by
    intro a ha b hb
    exact h₁ _ (hsub.subset (mem_map_of_mem ha)) _ (hsub.subset (mem_map_of_mem hb))
  have hmid := Level.group_map (f := f₁) (g := f₂) hinj
  simp only [Function.comp_apply, hmid, map_map, Function.comp_def]

end Trie3

end Nova.Lib
