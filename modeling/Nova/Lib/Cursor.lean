import Nova.Lib.Leapfrog
import Mathlib.Data.List.TakeWhile

/-!
# Cursors over ascending keys

A cursor reads its current key, moves past it and seeks a key. It `Lists` an ascending
list if after any moves it stands where the same moves lead in the list. For a proof
one says which list is left at each state (`lists_of_invariant`); what a walk reads
is then the list itself (`Lists.walk`).

A move that fails is `none`.
-/

namespace Nova.Lib

open Leapfrog List

structure Cursor (σ α : Type) where
  key : σ → Option α
  atEnd : σ → Bool
  advance : σ → Option σ
  seek : σ → α → Option σ

namespace Cursor

variable {σ α : Type} [LinearOrder α]

inductive Move (α : Type) where
  | advance
  | seek (target : α)

/-- What a move leaves of a list. -/
def Move.onList : Move α → List α → List α
  | .advance, l => l.tail
  | .seek target, l => Leapfrog.seek l target

variable (cur : Cursor σ α)

def step (s : σ) : Move α → Option σ
  | .advance => cur.advance s
  | .seek target => cur.seek s target

def run : σ → List (Move α) → Option σ
  | s, [] => some s
  | s, m :: ms => (cur.step s m).bind fun s' => run s' ms

def runList (l : List α) (moves : List (Move α)) : List α := moves.foldl (fun l m => m.onList l) l

/-- The cursor stands in front of the list. -/
structure At (s : σ) (l : List α) : Prop where
  atEnd : cur.atEnd s = l.isEmpty
  key : ∀ k, l.head? = some k → cur.key s = some k

/-- The cursor lists the list, wherever it is moved. -/
def Lists (s : σ) (l : List α) : Prop := ∀ moves, ∃ s', cur.run s moves = some s' ∧ cur.At s' (runList l moves)

variable {cur}

theorem lists_of_invariant {R : σ → List α → Prop} (hat : ∀ s l, R s l → cur.At s l)
    (hstep : ∀ s l m, R s l → ∃ s', cur.step s m = some s' ∧ R s' (m.onList l)) {s : σ} {l : List α} (h : R s l) :
    cur.Lists s l := by
  intro moves
  induction moves generalizing s l with
  | nil => exact ⟨s, rfl, hat s l h⟩
  | cons m ms ih =>
    obtain ⟨s₁, hs₁, h₁⟩ := hstep s l m h
    obtain ⟨s', hs', h'⟩ := ih h₁
    refine ⟨s', ?_, h'⟩
    rw [run, hs₁, Option.bind_some, hs']

theorem runList_advance (l : List α) (n : Nat) : runList l (List.replicate n .advance) = l.drop n := by
  induction n generalizing l with
  | zero => rfl
  | succ n ih =>
    show runList l.tail (List.replicate n .advance) = _
    rw [ih, drop_tail]

/-- Walking from the start reads the list key by key. -/
theorem Lists.walk {s : σ} {l : List α} (h : cur.Lists s l) (n : Nat) :
    ∃ s', cur.run s (List.replicate n .advance) = some s' ∧ cur.atEnd s' = decide (l.length ≤ n) ∧
      ∀ k, l[n]? = some k → cur.key s' = some k := by
  obtain ⟨s', hs', hat⟩ := h (List.replicate n .advance)
  rw [runList_advance] at hat
  refine ⟨s', hs', ?_, ?_⟩
  · rw [hat.atEnd, Bool.eq_iff_iff, List.isEmpty_iff, drop_eq_nil_iff, decide_eq_true_iff]
  · intro k hk
    apply hat.key
    rwa [head?_drop]

theorem Lists.unique {s : σ} {l l' : List α} (h : cur.Lists s l) (h' : cur.Lists s l') : l = l' := by
  have hwalk : ∀ n, (l.length ≤ n ↔ l'.length ≤ n) ∧ (∀ k k', l[n]? = some k → l'[n]? = some k' → k = k') := by
    intro n
    obtain ⟨s₁, hs₁, hend, hkey⟩ := h.walk n
    obtain ⟨s₂, hs₂, hend', hkey'⟩ := h'.walk n
    have hs : s₁ = s₂ := Option.some.inj (hs₁.symm.trans hs₂)
    subst hs
    refine ⟨decide_eq_decide.mp (hend.symm.trans hend'), ?_⟩
    intro k k' hk hk'
    exact Option.some.inj ((hkey k hk).symm.trans (hkey' k' hk'))
  have hlen : l.length = l'.length := by
    have h₁ := (hwalk l.length).1
    have h₂ := (hwalk l'.length).1
    omega
  apply ext_getElem hlen
  intro n h₁ h₂
  exact (hwalk n).2 _ _ (getElem?_eq_getElem h₁) (getElem?_eq_getElem h₂)

end Cursor

/-! ## Parts of an ascending list -/

namespace Leapfrog

variable {α : Type} [LinearOrder α] {l : List α} {a b k : α}

theorem seek_seek (l : List α) (hab : a ≤ b) : seek (seek l a) b = seek l b := by
  unfold seek
  induction l with
  | nil => rfl
  | cons x xs ih =>
    by_cases ha : x < a
    · have hb : x < b := lt_of_lt_of_le ha hab
      rw [dropWhile_cons_of_pos (by simpa using ha), ih, dropWhile_cons_of_pos (by simpa using hb)]
    · rw [dropWhile_cons_of_neg (by simpa using ha)]

theorem le_of_head_seek (h : (seek l a).head? = some k) : a ≤ k := by
  unfold seek at h
  have hk := head?_dropWhile_not (fun x => decide (x < a)) l
  rw [h] at hk
  simpa using hk

theorem seek_eq_self (h : ∀ k, l.head? = some k → a ≤ k) : seek l a = l := by
  rcases l with _ | ⟨x, xs⟩
  · rfl
  · have hx : ¬ x < a := not_lt_of_ge (h x rfl)
    exact dropWhile_cons_of_neg (by simpa using hx)

theorem seek_eq_nil (h : ∀ x ∈ l, x < a) : seek l a = [] := by
  apply dropWhile_eq_nil_iff.mpr
  intro x hx
  exact decide_eq_true (h x hx)

/-- The first element from `a` on is the head of what seeking `a` leaves. -/
theorem head_seek_eq (hsorted : l.Pairwise (· < ·)) (hk : k ∈ l) (hle : a ≤ k)
    (hleast : ∀ x ∈ l, a ≤ x → k ≤ x) : (seek l a).head? = some k := by
  have hmem : k ∈ seek l a := (mem_seek hsorted).mpr ⟨hk, hle⟩
  rcases hrest : seek l a with _ | ⟨x, xs⟩
  · rw [hrest] at hmem
    exact absurd hmem not_mem_nil
  · have hx : x ∈ l ∧ a ≤ x := (mem_seek hsorted).mp (by rw [hrest]; exact mem_cons_self)
    have hkx : k ≤ x := hleast x hx.1 hx.2
    have hs : (x :: xs).Pairwise (· < ·) := hrest ▸ hsorted.sublist (seek_sublist l a)
    rw [hrest] at hmem
    rcases mem_cons.mp hmem with heq | hin
    · rw [heq]
      rfl
    · exact absurd hkx (not_le_of_gt ((pairwise_cons.mp hs).1 k hin))

theorem seek_cons_eq (hlt : k < a) (hnext : ∀ x ∈ l, a ≤ x) :
    seek (k :: l) a = l := by
  unfold seek
  rw [dropWhile_cons_of_pos (by simpa using hlt)]
  apply seek_eq_self
  intro x hx
  exact hnext x (mem_of_mem_head? hx)

end Leapfrog

end Nova.Lib
