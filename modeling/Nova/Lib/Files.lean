import Mathlib.Data.List.Basic

/-!
# Numbered files

The files of one kind in a directory, told apart by a number: generations of a
snapshot, segments of a log. They are kept in ascending order, so that a reader
who wants all files from some number on gets them in the order they were made.

`since_put_new` and `since_put_top` say what such a reader sees after a file is
added at the end, `since_put` after any file is written; `since_keep` what it sees after
files were deleted. `top` is the number of the last file.
-/

namespace Nova.Lib

open List

structure Files (α : Type) where
  entries : List (Nat × α)
  sorted : entries.Pairwise fun a b => a.1 < b.1

namespace Files

variable {α : Type}

def empty : Files α := ⟨[], .nil⟩

def find (n : Nat) : List (Nat × α) → Option α
  | [] => none
  | e :: rest => if n = e.1 then some e.2 else find n rest

def get (fs : Files α) (n : Nat) : Option α := find n fs.entries

/-- Create or overwrite file `n`. -/
def putIn (n : Nat) (a : α) : List (Nat × α) → List (Nat × α)
  | [] => [(n, a)]
  | e :: rest =>
    if n < e.1 then (n, a) :: e :: rest
    else if n = e.1 then (n, a) :: rest
    else e :: putIn n a rest

theorem mem_putIn {n : Nat} {a : α} {e : Nat × α} : ∀ {l : List (Nat × α)},
    e ∈ putIn n a l → e = (n, a) ∨ e ∈ l
  | [], h => .inl (List.mem_singleton.mp h)
  | e' :: rest, h => by
    unfold putIn at h
    split at h
    · rcases List.mem_cons.mp h with h | h
      · exact .inl h
      · exact .inr h
    · split at h
      · rcases List.mem_cons.mp h with h | h
        · exact .inl h
        · exact .inr (List.mem_cons_of_mem _ h)
      · rcases List.mem_cons.mp h with h | h
        · exact .inr (h ▸ List.mem_cons_self)
        · rcases mem_putIn h with h | h
          · exact .inl h
          · exact .inr (List.mem_cons_of_mem _ h)

variable {l : List (Nat × α)}

theorem sorted_putIn (n : Nat) (a : α)
    (h : l.Pairwise fun x y => x.1 < y.1) : (putIn n a l).Pairwise fun x y => x.1 < y.1 := by
  induction l with
  | nil => exact pairwise_singleton _ _
  | cons e rest ih =>
    rcases pairwise_cons.mp h with ⟨hall, hrest⟩
    unfold putIn
    split
    · next hlt =>
      refine pairwise_cons.mpr ⟨?_, h⟩
      intro x hx
      rcases mem_cons.mp hx with rfl | hx
      · exact hlt
      · exact Nat.lt_trans hlt (hall x hx)
    · split
      · next heq =>
        refine pairwise_cons.mpr ⟨?_, hrest⟩
        intro x hx
        rw [heq]
        exact hall x hx
      · next hge hne =>
        refine pairwise_cons.mpr ⟨?_, ih hrest⟩
        intro x hx
        rcases mem_putIn hx with rfl | hx
        · show e.1 < n
          omega
        · exact hall x hx

def put (fs : Files α) (n : Nat) (a : α) : Files α :=
  ⟨putIn n a fs.entries, sorted_putIn n a fs.sorted⟩

/-- Delete the files whose number does not meet `p`. -/
def keep (fs : Files α) (p : Nat → Bool) : Files α :=
  ⟨fs.entries.filter fun e => p e.1, fs.sorted.filter _⟩

/-- The files from number `n` on, in ascending order. -/
def since (fs : Files α) (n : Nat) : List (Nat × α) := fs.entries.filter fun e => decide (n ≤ e.1)

variable {fs : Files α} {m n : Nat} {a b : α}

@[simp] theorem get_empty (n : Nat) : (empty : Files α).get n = none := rfl

@[simp] theorem since_empty (n : Nat) : (empty : Files α).since n = [] := rfl

theorem find_putIn (n : Nat) (a : α) (k : Nat) (l : List (Nat × α)) :
    find k (putIn n a l) = if k = n then some a else find k l := by
  induction l with
  | nil => rfl
  | cons e rest ih =>
    unfold putIn
    split
    · rfl
    · split
      · next heq =>
        by_cases hk : k = n
        · simp [find, hk]
        · simp [find, hk, ← heq]
      · next hne =>
        simp only [find, ih]
        by_cases hk : k = e.1
        · have hkn : k ≠ n := fun hkn => hne (hkn.symm.trans hk)
          simp [hk, hk ▸ hkn]
        · simp [hk]

theorem get_put (fs : Files α) (n : Nat) (a : α) (k : Nat) :
    (fs.put n a).get k = if k = n then some a else fs.get k :=
  find_putIn n a k fs.entries

variable {p : Nat → Bool}

theorem find_filter (hn : p n = true) (l : List (Nat × α)) : find n (l.filter fun e => p e.1) = find n l := by
  induction l with
  | nil => rfl
  | cons e rest ih =>
    by_cases hp : p e.1 = true
    · rw [filter_cons, if_pos hp]
      simp only [find, ih]
    · have hne : n ≠ e.1 := by
        intro heq
        rw [heq] at hn
        exact hp hn
      rw [filter_cons, if_neg hp, find, if_neg hne]
      exact ih

theorem get_keep_of (hn : p n = true) : (fs.keep p).get n = fs.get n :=
  find_filter hn fs.entries

theorem mem_since {e : Nat × α} : e ∈ fs.since n ↔ e ∈ fs.entries ∧ n ≤ e.1 := by
  simp [since]

/-- Files that are deleted before number `n` do not matter from there on. -/
theorem since_keep (p : Nat → Bool) : (fs.keep p).since n = (fs.since n).filter fun e => p e.1 := by
  simp only [since, keep, filter_filter, Bool.and_comm]

theorem putIn_new (h : ∀ e ∈ l, e.1 < n) : putIn n a l = l ++ [(n, a)] := by
  induction l with
  | nil => rfl
  | cons e rest ih =>
    have he := h e mem_cons_self
    rw [putIn, if_neg (by omega), if_neg (by omega), ih fun x hx => h x (mem_cons_of_mem _ hx)]
    rfl

/-- A file with a number above all others comes last. -/
theorem since_put_new (h : ∀ e ∈ fs.entries, e.1 < n) (hm : m ≤ n) :
    (fs.put n a).since m = fs.since m ++ [(n, a)] := by
  show (putIn n a fs.entries).filter _ = _
  rw [putIn_new h, filter_append]
  simp [since, hm]

theorem putIn_self (hs : l.Pairwise fun x y => x.1 < y.1) (h : find n l = some a) : putIn n a l = l := by
  induction l with
  | nil => cases h
  | cons e rest ih =>
    rcases pairwise_cons.mp hs with ⟨hall, hrest⟩
    rw [find] at h
    by_cases hk : n = e.1
    · rw [if_pos hk] at h
      cases h
      rw [putIn, if_neg (by omega), if_pos hk, hk]
    · rw [if_neg hk] at h
      -- the file stands further back, so its number is larger
      have hmem : ∃ x ∈ rest, x.1 = n := by
        clear ih hall hrest hs
        induction rest with
        | nil => cases h
        | cons x rest ih =>
          rw [find] at h
          by_cases hx : n = x.1
          · exact ⟨x, mem_cons_self, hx.symm⟩
          · rw [if_neg hx] at h
            rcases ih h with ⟨y, hy, heq⟩
            exact ⟨y, mem_cons_of_mem _ hy, heq⟩
      rcases hmem with ⟨x, hx, rfl⟩
      have hlt := hall x hx
      rw [putIn, if_neg (by omega), if_neg hk, ih hrest h]

theorem put_get (h : fs.get n = some a) : fs.put n a = fs := by
  cases fs with
  | mk l hs => simp only [put, putIn_self hs h]

theorem find_eq_none (h : ∀ e ∈ l, e.1 ≠ n) : find n l = none := by
  induction l with
  | nil => rfl
  | cons e rest ih =>
    rw [find, if_neg (fun heq => h e mem_cons_self heq.symm)]
    exact ih fun x hx => h x (mem_cons_of_mem _ hx)

theorem get_of_mem {e : Nat × α} (h : e ∈ fs.entries) : fs.get e.1 = some e.2 := by
  unfold get
  have hs := fs.sorted
  revert h hs
  generalize fs.entries = l
  intro h hs
  induction l with
  | nil => cases h
  | cons x rest ih =>
    rcases pairwise_cons.mp hs with ⟨hall, hrest⟩
    rw [find]
    rcases mem_cons.mp h with rfl | h
    · rw [if_pos rfl]
    · rw [if_neg (Nat.ne_of_gt (hall e h))]
      exact ih h hrest

theorem mem_of_get (h : fs.get n = some a) : (n, a) ∈ fs.entries := by
  unfold get at h
  revert h
  generalize fs.entries = l
  intro h
  induction l with
  | nil => cases h
  | cons e rest ih =>
    rw [find] at h
    by_cases hn : n = e.1
    · rw [if_pos hn] at h
      cases h
      rw [hn]
      exact mem_cons_self
    · rw [if_neg hn] at h
      exact mem_cons_of_mem _ (ih h)

/-- The file with the highest number is the only one from there on. -/
theorem since_put_top (h : ∀ e ∈ fs.entries, e.1 ≤ n) : (fs.put n a).since n = [(n, a)] := by
  have hs := fs.sorted
  show (putIn n a fs.entries).filter _ = _
  revert h hs
  generalize fs.entries = l
  intro h hs
  induction l with
  | nil => simp [putIn]
  | cons e rest ih =>
    rcases pairwise_cons.mp hs with ⟨hall, hrest⟩
    have he := h e mem_cons_self
    rw [putIn, if_neg (by omega)]
    by_cases hk : n = e.1
    · rw [if_pos hk]
      have hnil : rest = [] := by
        cases rest with
        | nil => rfl
        | cons x rest =>
          have hlt := hall x mem_cons_self
          have hle := h x (mem_cons_of_mem _ mem_cons_self)
          omega
      simp [hnil]
    · rw [if_neg hk, filter_cons, if_neg (by simp; omega)]
      exact ih (fun x hx => h x (mem_cons_of_mem _ hx)) hrest

/-! ## Writing a file in the middle -/

theorem putIn_split (n : Nat) (b : α) (hs : l.Pairwise fun x y => x.1 < y.1) :
    ∃ l₁ l₂, l = l₁ ++ (find n l).toList.map (Prod.mk n) ++ l₂ ∧ putIn n b l = l₁ ++ (n, b) :: l₂ ∧
      ∀ e ∈ l₂, n < e.1 := by
  induction l with
  | nil => exact ⟨[], [], rfl, rfl, nofun⟩
  | cons x rest ih =>
    rcases pairwise_cons.mp hs with ⟨hall, hrest⟩
    by_cases hlt : n < x.1
    · -- the file comes before all others
      have hlater : ∀ e ∈ x :: rest, n < e.1 := by
        intro e he
        rcases mem_cons.mp he with rfl | he
        · exact hlt
        · exact Nat.lt_trans hlt (hall e he)
      have hnone : find n (x :: rest) = none := find_eq_none fun e he => Nat.ne_of_gt (hlater e he)
      refine ⟨[], x :: rest, ?_, ?_, hlater⟩
      · rw [hnone]
        rfl
      · rw [putIn, if_pos hlt]
        rfl
    · by_cases heq : n = x.1
      · refine ⟨[], rest, ?_, ?_, fun e he => heq ▸ hall e he⟩
        · rw [find, if_pos heq, heq]
          rfl
        · rw [putIn, if_neg hlt, if_pos heq]
          rfl
      · rcases ih hrest with ⟨l₁, l₂, hl, hput, hlater⟩
        refine ⟨x :: l₁, l₂, ?_, ?_, hlater⟩
        · rw [find, if_neg heq, cons_append, cons_append, ← hl]
        · rw [putIn, if_neg hlt, if_neg heq, hput, cons_append]

/-- Writing file `n` changes this one file, whoever reads from a number up to `n` on. -/
theorem since_put (fs : Files α) (b : α) (hm : m ≤ n) :
    ∃ l₁ l₂, fs.since m = l₁ ++ (fs.get n).toList.map (Prod.mk n) ++ l₂ ∧
      (fs.put n b).since m = l₁ ++ (n, b) :: l₂ ∧ ∀ e ∈ l₂, e ∈ fs.entries ∧ n < e.1 := by
  rcases putIn_split n b fs.sorted with ⟨l₁, l₂, hl, hput, hlater⟩
  have hkept : ((fs.get n).toList.map (Prod.mk n)).filter (fun e => decide (m ≤ e.1)) =
      (fs.get n).toList.map (Prod.mk n) := by
    rw [filter_eq_self]
    intro e he
    rcases mem_map.mp he with ⟨a, -, rfl⟩
    exact decide_eq_true hm
  have hrest : l₂.filter (fun e => decide (m ≤ e.1)) = l₂ := by
    rw [filter_eq_self]
    intro e he
    exact decide_eq_true (Nat.le_trans hm (Nat.le_of_lt (hlater e he)))
  refine ⟨l₁.filter fun e => decide (m ≤ e.1), l₂, ?_, ?_, ?_⟩
  · rw [since, hl, filter_append, filter_append, hrest]
    exact congrArg (fun x => _ ++ x ++ l₂) hkept
  · show (putIn n b fs.entries).filter _ = _
    rw [hput, filter_append, filter_cons, if_pos (decide_eq_true hm), hrest]
  · intro e he
    refine ⟨?_, hlater e he⟩
    rw [hl]
    exact mem_append_right _ he

theorem mem_put {e : Nat × α} (h : e ∈ (fs.put n a).entries) : e = (n, a) ∨ e ∈ fs.entries := mem_putIn h

theorem keep_eq_self (h : ∀ k, p k = true) : fs.keep p = fs := by
  cases fs with
  | mk l hs =>
    have hl : l.filter (fun e => p e.1) = l := filter_eq_self.mpr fun e _ => h e.1
    simp only [keep, hl]

/-! ## The last file -/

/-- The number of the last file from number `n` on, or `n` if there is none. -/
def top (fs : Files α) (n : Nat) : Nat :=
  match (fs.since n).getLast? with
  | some e => e.1
  | none => n

theorem le_top (fs : Files α) (n : Nat) : n ≤ fs.top n := by
  have hge : ∀ e ∈ fs.since n, n ≤ e.1 := fun e he => (mem_since.mp he).2
  unfold top
  generalize fs.since n = l at hge
  cases hl : l.getLast? with
  | none => exact Nat.le_refl _
  | some e => exact hge e (mem_of_getLast? hl)

theorem since_le_top {e : Nat × α} (he : e ∈ fs.since n) : e.1 ≤ fs.top n := by
  have hs : (fs.since n).Pairwise fun a b => a.1 < b.1 := fs.sorted.filter _
  unfold top
  generalize fs.since n = l at he hs
  rcases eq_nil_or_concat' l with rfl | ⟨init, last, rfl⟩
  · cases he
  · rw [getLast?_concat]
    rcases mem_append.mp he with he | he
    · exact Nat.le_of_lt ((pairwise_append.mp hs).2.2 e he last mem_cons_self)
    · exact Nat.le_of_eq (congrArg Prod.fst (mem_singleton.mp he))

theorem entries_le_top {e : Nat × α} (he : e ∈ fs.entries) (n : Nat) : e.1 ≤ fs.top n := by
  by_cases hge : n ≤ e.1
  · exact since_le_top (mem_since.mpr ⟨he, hge⟩)
  · have hle := fs.le_top n
    omega

/-! ## Files that are lists of files -/

/-- The same numbers with other contents. -/
def mapContents {β : Type} (fs : Files α) (f : Nat → α → β) : Files β :=
  ⟨fs.entries.map fun e => (e.1, f e.1 e.2), List.pairwise_map.mpr fs.sorted⟩

theorem get_mapContents {β : Type} (fs : Files α) (f : Nat → α → β) (n : Nat) :
    (fs.mapContents f).get n = (fs.get n).map (f n) := by
  show find n (fs.entries.map fun e => (e.1, f e.1 e.2)) = (find n fs.entries).map (f n)
  generalize fs.entries = l
  induction l with
  | nil => rfl
  | cons e rest ih =>
    rw [map_cons, find, find]
    by_cases hn : n = e.1
    · rw [if_pos hn, if_pos hn, hn]
      rfl
    · rw [if_neg hn, if_neg hn, ih]

end Files

end Nova.Lib
