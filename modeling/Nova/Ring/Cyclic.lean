import Nova.Lib.LastFirst
import Nova.Lib.Trie
import Mathlib.Data.List.Induction

/-!
# The cyclic ring

A graph as three columns. The triples are sorted as SPO, OSP and POS rows, and of
each table only the last column is kept, with the number of smaller symbols for each
symbol of the alphabet. `f` goes from a row to its place in the next table,
`fInverse` back, `leadRange` and `backwardStep` find the rows with a given prefix and
`enumerateSpo` reads the triples back.

The columns are lists: reading, counting and finding a symbol are taken to be right.
Row numbers and counts are 32-bit and wrap; a read outside an array is a panic (`none`).

* `faithful_of_fits` — with fewer than `2 ^ 32` triples the ring represents them
* `buildShared_faithful_iff` — and only then
-/

namespace Nova.Ring

open Nova.Lib Nova.Lib.LastFirst List

/-! ## Words -/

def u32 (x : Nat) : Nat := x % 2 ^ 32

def addU32 (x y : Nat) : Nat := u32 (x + y)

def subU32 (x y : Nat) : Nat := u32 (x + 2 ^ 32 - y)

theorem u32_of_lt {x : Nat} (h : x < 2 ^ 32) : u32 x = x := Nat.mod_eq_of_lt h

theorem subU32_of_le {x y : Nat} (hle : y ≤ x) (hlt : x < 2 ^ 32) : subU32 x y = x - y := by
  unfold subU32 u32
  omega

/-! ## The ring -/

/-- A column, by the role of its symbols. -/
inductive Col where
  | O
  | P
  | S
  deriving Repr, DecidableEq

/-- Half-open range of rows. -/
structure RowRange where
  start : Nat
  stop : Nat
  deriving Repr, DecidableEq

namespace RowRange

def empty : RowRange := ⟨0, 0⟩

def full (n : Nat) : RowRange := ⟨0, n⟩

def isEmpty (r : RowRange) : Bool := decide (r.stop ≤ r.start)

def len (r : RowRange) : Nat := r.stop - r.start

def Mem (r : RowRange) (j : Nat) : Prop := r.start ≤ j ∧ j < r.stop

instance (r : RowRange) (j : Nat) : Decidable (r.Mem j) := inferInstanceAs (Decidable (_ ∧ _))

end RowRange

structure CyclicRing where
  cO : List Nat
  cP : List Nat
  cS : List Nat
  aO : List Nat
  aP : List Nat
  aS : List Nat
  n : Nat
  univ : Nat
  deriving Repr, DecidableEq

/-- Counts the symbols, then sums the counts up. -/
def cumulativeA (col : List Nat) (alphabet : Nat) : List Nat :=
  let counts := col.foldl (fun a s => a.modify (s + 1) (addU32 · 1)) (List.replicate (alphabet + 1) 0)
  (List.range alphabet).foldl (fun a i => a.modify (i + 1) (addU32 · (a.getD i 0))) counts

/-- Moves the last component to the front. -/
def rotate (t : Row) : Row := (t.2.2, t.1, t.2.1)

/-- `build_shared_inner`. The role sizes and the kind of the predicate column only change how the
columns are stored. -/
def buildShared (triples : List Row) (univ : Nat) : CyclicRing :=
  let spo := sortRows triples
  let osp := sortRows (spo.map rotate)
  let pos := sortRows (osp.map rotate)
  let cO := spo.map fun t => t.2.2
  let cP := osp.map fun t => t.2.2
  let cS := pos.map fun t => t.2.2
  { cO, cP, cS
    aO := cumulativeA cO univ
    aP := cumulativeA cP univ
    aS := cumulativeA cS univ
    n := u32 triples.length
    univ }

namespace CyclicRing

variable (r : CyclicRing)

def col : Col → List Nat
  | .O => r.cO
  | .P => r.cP
  | .S => r.cS

def colA : Col → List Nat
  | .O => r.aO
  | .P => r.aP
  | .S => r.aS

def access (c : Col) (pos : Nat) : Option Nat := (r.col c)[pos]?

def rank (c : Col) (symbol pos : Nat) : Nat := u32 (LastFirst.rank (r.col c) symbol pos)

def select (c : Col) (symbol occurrence : Nat) : Option Nat :=
  (LastFirst.select symbol (r.col c) occurrence).map u32

/-- The row of the next table, where the column leads. -/
def f (c : Col) (i : Nat) : Option Nat := do
  let symbol ← r.access c i
  let ac ← (r.colA c)[symbol]?
  some (subU32 (addU32 ac (r.rank c symbol (i + 1))) 1)

def partitionPoint (a : List Nat) (p : Nat → Bool) : Nat := (a.takeWhile p).length

def fInverse (c : Col) (i : Nat) : Option Nat := do
  let symbol := subU32 (u32 (partitionPoint (r.colA c) fun x => x ≤ i)) 1
  let ac ← (r.colA c)[symbol]?
  r.select c symbol (subU32 i ac)

/-- From the rows with a prefix to the rows of the next table with the symbol put before it. -/
def backwardStep (c : Col) (range : RowRange) (symbol : Nat) : Option RowRange :=
  if range.isEmpty then some .empty
  else do
    let ac ← (r.colA c)[symbol]?
    some ⟨addU32 ac (r.rank c symbol range.start), addU32 ac (r.rank c symbol range.stop)⟩

/-- The rows of the next table that start with the symbol. -/
def leadRange (c : Col) (symbol : Nat) : Option RowRange := do
  let start ← (r.colA c)[symbol]?
  let stop ← (r.colA c)[symbol + 1]?
  some ⟨start, stop⟩

/-- The triple of row `i`, read along the cycle. -/
def tripleAt (i : Nat) : Option Row := do
  let o ← r.access .O i
  let iOsp ← r.f .O i
  let p ← r.access .P iOsp
  let iPos ← r.f .P iOsp
  let s ← r.access .S iPos
  some (s, p, o)

def enumerateSpo : Option (List Row) := (List.range r.n).mapM r.tripleAt

end CyclicRing

/-! ## Cumulative counts -/

variable {col : List Nat}

variable {a : List Nat}

theorem foldl_counts {k m : Nat} (h : a[k + 1]? = some (u32 m)) :
    (col.foldl (fun a s => a.modify (s + 1) (addU32 · 1)) a)[k + 1]? = some (u32 (m + col.count k)) := by
  induction col generalizing a m with
  | nil => simpa using h
  | cons s col ih =>
    rw [foldl_cons]
    by_cases hs : s = k
    · subst hs
      have hstep : (a.modify (s + 1) (addU32 · 1))[s + 1]? = some (u32 (m + 1)) := by
        rw [getElem?_modify_eq, h]
        simp [addU32, u32]
      rw [ih hstep, count_cons_self]
      congr 2
      omega
    · have hstep : (a.modify (s + 1) (addU32 · 1))[k + 1]? = some (u32 m) := by
        rw [getElem?_modify_ne _ _ (by omega), h]
      rw [ih hstep, count_cons_of_ne hs]

theorem foldl_counts_zero : (col.foldl (fun a s => a.modify (s + 1) (addU32 · 1)) a)[0]? = a[0]? := by
  induction col generalizing a with
  | nil => rfl
  | cons s col ih => rw [foldl_cons, ih, getElem?_modify_ne _ _ (by omega)]

theorem start_succ (col : List Nat) (c : Nat) : start col (c + 1) = start col c + col.count c :=
  start_of_follows fun _ => Nat.lt_succ_iff

/-- After `t` rounds the first entries are summed up and the rest are still counts. -/
theorem foldl_sums {alphabet : Nat} (hzero : a[0]? = some 0)
    (hcount : ∀ k < alphabet, a[k + 1]? = some (u32 (col.count k))) {t : Nat} (ht : t ≤ alphabet) :
    ∀ k ≤ alphabet, ((List.range t).foldl (fun a i => a.modify (i + 1) (addU32 · (a.getD i 0))) a)[k]? =
      if k ≤ t then some (u32 (start col k)) else a[k]? := by
  induction t with
  | zero =>
    intro k hk
    by_cases hk0 : k ≤ 0
    · have hk' : k = 0 := by omega
      simp [hk', hzero, start, u32]
    · simp [hk0]
  | succ t ih =>
    intro k hk
    have hprev := ih (by omega)
    rw [range_succ, foldl_append, foldl_cons, foldl_nil]
    by_cases hkt : k = t + 1
    · subst hkt
      have hsum : ((List.range t).foldl (fun a i => a.modify (i + 1) (addU32 · (a.getD i 0))) a).getD t 0 =
          u32 (start col t) := by
        rw [getD_eq_getElem?_getD, hprev t (by omega), if_pos (le_refl t)]
        rfl
      rw [getElem?_modify_eq, hprev (t + 1) hk, if_neg (by omega), hcount t (by omega), hsum,
        if_pos (le_refl _), start_succ]
      simp [addU32, u32, Nat.add_comm]
    · rw [getElem?_modify_ne _ _ (by omega), hprev k hk]
      by_cases hle : k ≤ t
      · rw [if_pos hle, if_pos (by omega)]
      · rw [if_neg hle, if_neg (by omega)]

theorem getElem?_cumulativeA {alphabet c : Nat} (hc : c ≤ alphabet) :
    (cumulativeA col alphabet)[c]? = some (u32 (start col c)) := by
  have hzero : (col.foldl (fun a s => a.modify (s + 1) (addU32 · 1)) (List.replicate (alphabet + 1) 0))[0]? =
      some 0 := by
    rw [foldl_counts_zero]
    simp
  have hcount : ∀ k < alphabet,
      (col.foldl (fun a s => a.modify (s + 1) (addU32 · 1)) (List.replicate (alphabet + 1) 0))[k + 1]? =
        some (u32 (col.count k)) := by
    intro k hk
    have hrep : (List.replicate (alphabet + 1) 0)[k + 1]? = some (u32 0) := by
      rw [getElem?_replicate_of_lt (by omega)]
      rfl
    rw [foldl_counts hrep, Nat.zero_add]
  unfold cumulativeA
  rw [foldl_sums hzero hcount (le_refl alphabet) c hc, if_pos hc]

/-! ## The three tables -/

def Col.next : Col → Col
  | .O => .P
  | .P => .S
  | .S => .O

/-- The table whose last column is kept under the name. -/
def table (triples : List Row) : Col → List Row
  | .O => sortRows triples
  | .P => sortRows ((sortRows triples).map rotate)
  | .S => sortRows ((sortRows ((sortRows triples).map rotate)).map rotate)

def RowLt (a b : Row) : Prop := Row.le a b = true ∧ a ≠ b

instance : DecidableRel RowLt := fun a b => inferInstanceAs (Decidable (Row.le a b = true ∧ a ≠ b))

theorem rotate_injective : Function.Injective rotate := by
  intro a b h
  simp only [rotate, Prod.mk.injEq] at h
  exact Prod.ext h.2.1 (Prod.ext h.2.2 h.1)

theorem rotate_rotate_rotate (t : Row) : rotate (rotate (rotate t)) = t := rfl

theorem turns_rotate : Turns RowLt (fun t : Row => t.2.2) (fun t => t.1) rotate where
  asymm := by
    intro a b hab hba
    exact hab.2 (Row.le_antisymm hab.1 hba.1)
  lt_turn := by
    intro a b
    rcases a with ⟨a₀, a₁, a₂⟩
    rcases b with ⟨b₀, b₁, b₂⟩
    simp only [RowLt, Row.le_iff, rotate, ne_eq, Prod.mk.injEq]
    omega
  lead_turn := by
    intro t
    rfl

theorem pairwise_rowLt {rows : List Row} (hnodup : rows.Nodup) : (sortRows rows).Pairwise RowLt := by
  have hn : (sortRows rows).Nodup := (sortRows_perm rows).nodup_iff.mpr hnodup
  exact ((sortRows_sorted rows).and hn).imp fun h => h

variable {triples : List Row}

theorem table_perm_next (triples : List Row) (c : Col) :
    (table triples c.next).Perm ((table triples c).map rotate) := by
  rcases c with _ | _ | _
  · exact sortRows_perm _
  · exact sortRows_perm _
  · -- three turns give the triples back
    have hP := (sortRows_perm ((sortRows triples).map rotate)).map rotate
    have hS := (sortRows_perm ((sortRows ((sortRows triples).map rotate)).map rotate)).map rotate
    refine (List.Perm.symm ?_)
    refine hS.trans ((hP.map rotate).trans ?_)
    rw [map_map, map_map]
    have hid : (rotate ∘ (rotate ∘ rotate)) = id := funext rotate_rotate_rotate
    rw [show (rotate ∘ rotate) ∘ rotate = id from hid, map_id]
    exact List.Perm.refl _

theorem table_sorted (hnodup : triples.Nodup) (c : Col) : (table triples c).Pairwise RowLt := by
  have hO : (sortRows triples).Nodup := (sortRows_perm triples).nodup_iff.mpr hnodup
  have hP : (sortRows ((sortRows triples).map rotate)).Nodup :=
    (sortRows_perm _).nodup_iff.mpr (hO.map rotate_injective)
  rcases c with _ | _ | _
  · exact pairwise_rowLt hnodup
  · exact pairwise_rowLt (hO.map rotate_injective)
  · exact pairwise_rowLt (hP.map rotate_injective)

theorem turned_table (hnodup : triples.Nodup) (c : Col) :
    Turned RowLt rotate (table triples c) (table triples c.next) where
  sorted := table_sorted hnodup c
  sorted_next := table_sorted hnodup c.next
  perm := table_perm_next triples c

@[simp] theorem length_table (triples : List Row) (c : Col) : (table triples c).length = triples.length := by
  rcases c with _ | _ | _ <;> simp [table, (sortRows_perm _).length_eq]

/-- All symbols lie in the alphabet. -/
def Shared (triples : List Row) (univ : Nat) : Prop :=
  ∀ t ∈ triples, t.1 < univ ∧ t.2.1 < univ ∧ t.2.2 < univ

instance (triples : List Row) (univ : Nat) : Decidable (Shared triples univ) :=
  inferInstanceAs (Decidable (∀ t ∈ triples, _))

theorem shared_table {univ : Nat} (h : Shared triples univ) (c : Col) : Shared (table triples c) univ := by
  have hO : Shared (sortRows triples) univ := fun t ht => h t ((sortRows_perm _).mem_iff.mp ht)
  -- turning a row moves its symbols only
  have hturn : ∀ rows, Shared rows univ → Shared (sortRows (rows.map rotate)) univ := by
    intro rows hrows t ht
    obtain ⟨x, hx, rfl⟩ := mem_map.mp ((sortRows_perm _).mem_iff.mp ht)
    have hb := hrows x hx
    exact ⟨hb.2.2, hb.1, hb.2.1⟩
  rcases c with _ | _ | _
  · exact hO
  · exact hturn _ hO
  · exact hturn _ (hturn _ hO)

/-! ## What the ring answers -/

variable {univ : Nat}

@[simp] theorem col_buildShared (c : Col) :
    (buildShared triples univ).col c = (table triples c).map fun t => t.2.2 := by
  rcases c with _ | _ | _ <;> rfl

variable {symbol : Nat}

theorem colA_buildShared (c : Col) (hsymbol : symbol ≤ univ) : ((buildShared triples univ).colA c)[symbol]? =
      some (u32 (start ((table triples c).map fun t => t.2.2) symbol)) := by
  rcases c with _ | _ | _ <;> exact getElem?_cumulativeA hsymbol

/-- The rows of a range are those of the table with a property. -/
def RowsAre (range : RowRange) (rows : List Row) (P : Row → Prop) : Prop :=
  ∀ j, range.Mem j ↔ ∃ t, rows[j]? = some t ∧ P t

/-- The symbols the row starts with. -/
def HasPrefix (symbols : List Nat) (t : Row) : Prop := symbols <+: [t.1, t.2.1, t.2.2]

/-- The ring represents the triples. -/
structure Faithful (r : CyclicRing) (triples : List Row) : Prop where
  /-- A row goes to its turned row in the next table. -/
  turn : ∀ c, ∀ i < triples.length, ∃ j < triples.length, r.f c i = some j ∧
    (table triples c.next)[j]? = (table triples c)[i]?.map rotate
  bijective : ∀ c, ∀ j < triples.length, ∃! i, i < triples.length ∧ r.f c i = some j
  cycle : ∀ i < triples.length, ((r.f .O i).bind (r.f .P)).bind (r.f .S) = some i
  inverse : ∀ c, ∀ i < triples.length, (r.f c i).bind (r.fInverse c) = some i
  inverse_f : ∀ c, ∀ j < triples.length, (r.fInverse c j).bind (r.f c) = some j
  lead : ∀ c, ∀ symbol < r.univ, ∃ range, r.leadRange c symbol = some range ∧
    RowsAre range (table triples c.next) fun t => t.1 = symbol
  step : ∀ c symbols range, symbols.length < 3 → RowsAre range (table triples c) (HasPrefix symbols) →
    ∀ symbol < r.univ, ∃ range', r.backwardStep c range symbol = some range' ∧
      RowsAre range' (table triples c.next) (HasPrefix (symbol :: symbols))
  enumerate : r.enumerateSpo = some (sortRows triples)

/-- The column of a table. -/
def lasts (triples : List Row) (c : Col) : List Nat := (table triples c).map fun t => t.2.2

theorem access_buildShared (c : Col) (i : Nat) :
    (buildShared triples univ).access c i = (table triples c)[i]?.map fun t => t.2.2 := by
  rw [CyclicRing.access, col_buildShared, getElem?_map]

@[simp] theorem length_lasts (triples : List Row) (c : Col) : (lasts triples c).length = triples.length := by
  rw [lasts, length_map, length_table]

theorem partitionPoint_eq {p : Nat → Bool} {k : Nat}
    (hbefore : ∀ j < k, ∃ x, a[j]? = some x ∧ p x = true) (hstop : ∃ x, a[k]? = some x ∧ p x = false) :
    CyclicRing.partitionPoint a p = k := by
  unfold CyclicRing.partitionPoint
  induction a generalizing k with
  | nil =>
    obtain ⟨x, hx, -⟩ := hstop
    exact absurd hx (by simp)
  | cons y ys ih =>
    rcases k with _ | k
    · obtain ⟨x, hx, hp⟩ := hstop
      have hy : y = x := by simpa using hx
      rw [hy, takeWhile_cons_of_neg (by simp [hp]), length_nil]
    · obtain ⟨x, hx, hp⟩ := hbefore 0 (Nat.succ_pos k)
      have hy : y = x := by simpa using hx
      rw [hy, takeWhile_cons_of_pos hp, length_cons, ih]
      · intro j hj
        simpa using hbefore (j + 1) (Nat.succ_lt_succ hj)
      · simpa using hstop

variable {c : Col} {i : Nat} {t : Row}

theorem next_lf_eq (hnodup : triples.Nodup) (hi : (table triples c)[i]? = some t) :
    (table triples c.next)[lf (lasts triples c) t.2.2 i]? = some (rotate t) :=
  Turned.next_lf turns_rotate (turned_table hnodup c) hi

theorem mapM_range_eq {α : Type} {g : Nat → Option α} {out : List α} (h : ∀ i t, out[i]? = some t → g i = some t) :
    (List.range out.length).mapM g = some out := by
  induction out using List.reverseRecOn with
  | nil => rfl
  | append_singleton out t ih =>
    have hinit : (List.range out.length).mapM g = some out := by
      apply ih
      intro i x hi
      apply h
      rw [getElem?_append_left (List.getElem?_eq_some_iff.mp hi).1]
      exact hi
    have hlast : g out.length = some t := h _ _ (by simp)
    rw [length_append, length_singleton, range_succ, mapM_append, hinit]
    simp [hlast]

theorem length_of_mapM {α β : Type} {g : α → Option β} : ∀ {l : List α} {out : List β},
    l.mapM g = some out → out.length = l.length := by
  intro l
  induction l with
  | nil =>
    intro out h
    have hout : [] = out := by simpa using h
    subst hout
    rfl
  | cons x xs ih =>
    intro out h
    simp only [mapM_cons, Option.bind_eq_bind, Option.bind_eq_some_iff, Option.pure_def,
      Option.some.injEq] at h
    obtain ⟨y, -, ys, hys, rfl⟩ := h
    rw [length_cons, ih hys, length_cons]

variable {range : RowRange}

section Fits

variable (hfits : triples.length < 2 ^ 32)
include hfits

theorem start_lt_pow (c : Col) (symbol : Nat) : start (lasts triples c) symbol < 2 ^ 32 := by
  have hle := lf_le_length (lasts triples c) symbol 0
  rw [length_lasts, lf] at hle
  omega

theorem colA_eq (c : Col) (hsymbol : symbol ≤ univ) :
    ((buildShared triples univ).colA c)[symbol]? = some (start (lasts triples c) symbol) := by
  rw [colA_buildShared c hsymbol, ← lasts, u32_of_lt (start_lt_pow hfits c symbol)]

theorem rank_eq (c : Col) (symbol i : Nat) :
    (buildShared triples univ).rank c symbol i = rank (lasts triples c) symbol i := by
  have hle := lf_le_length (lasts triples c) symbol i
  rw [length_lasts, lf] at hle
  rw [CyclicRing.rank, col_buildShared, ← lasts, u32_of_lt (by omega)]

theorem lf_lt_pow (c : Col) (symbol i : Nat) : lf (lasts triples c) symbol i < 2 ^ 32 := by
  have hle := lf_le_length (lasts triples c) symbol i
  rw [length_lasts] at hle
  omega

theorem leadRange_eq (hsymbol : symbol < univ) : (buildShared triples univ).leadRange c symbol =
      some ⟨start (lasts triples c) symbol, start (lasts triples c) (symbol + 1)⟩ := by
  simp [CyclicRing.leadRange, colA_eq hfits c (Nat.le_of_lt hsymbol), colA_eq hfits c hsymbol]

theorem backwardStep_eq (hne : range.isEmpty = false)
    (hsymbol : symbol < univ) : (buildShared triples univ).backwardStep c range symbol =
      some ⟨lf (lasts triples c) symbol range.start, lf (lasts triples c) symbol range.stop⟩ := by
  have hstart := lf_lt_pow hfits c symbol range.start
  have hstop := lf_lt_pow hfits c symbol range.stop
  unfold lf at hstart hstop ⊢
  simp [CyclicRing.backwardStep, hne, colA_eq hfits c (Nat.le_of_lt hsymbol), rank_eq hfits, addU32,
    u32_of_lt hstart, u32_of_lt hstop]

variable (hshared : Shared triples univ)
include hshared

theorem f_eq (hi : (table triples c)[i]? = some t) :
    (buildShared triples univ).f c i = some (lf (lasts triples c) t.2.2 i) := by
  have hsymbol : t.2.2 < univ := (shared_table hshared c t (mem_of_getElem? hi)).2.2
  have hlast : (lasts triples c)[i]? = some t.2.2 := by rw [lasts, getElem?_map, hi]; rfl
  have hrank : rank (lasts triples c) t.2.2 (i + 1) = rank (lasts triples c) t.2.2 i + 1 := by
    simpa using rank_succ (c := t.2.2) hlast
  have hlt := lf_lt_pow hfits c t.2.2 (i + 1)
  rw [lf, hrank] at hlt
  rw [CyclicRing.f, access_buildShared, hi]
  simp only [Option.map_some, Option.bind_eq_bind, Option.bind_some, colA_eq hfits c (Nat.le_of_lt hsymbol),
    rank_eq hfits, hrank, addU32, u32_of_lt hlt]
  rw [subU32_of_le (by omega) hlt, lf]
  congr 1

variable (hnodup : triples.Nodup)
include hnodup

theorem fInverse_eq (huniv : univ < 2 ^ 32) (hi : (table triples c)[i]? = some t) :
    (buildShared triples univ).fInverse c (lf (lasts triples c) t.2.2 i) = some i := by
  have hsymbol : t.2.2 < univ := (shared_table hshared c t (mem_of_getElem? hi)).2.2
  have hlast : (lasts triples c)[i]? = some t.2.2 := by rw [lasts, getElem?_map, hi]; rfl
  have hnext := next_lf_eq hnodup hi
  have hturned := turned_table hnodup c
  -- the row starts with the symbol, so it lies between the two entries of the symbol
  have hlead := (Turned.lead_iff turns_rotate hturned hnext (c := t.2.2) (d := t.2.2 + 1)
    fun _ => Nat.lt_succ_iff).mpr rfl
  have hpoint : CyclicRing.partitionPoint ((buildShared triples univ).colA c)
      (fun x => x ≤ lf (lasts triples c) t.2.2 i) = t.2.2 + 1 := by
    apply partitionPoint_eq
    · intro j hj
      refine ⟨_, colA_eq hfits c (by omega), ?_⟩
      have hmono : start (lasts triples c) j ≤ start (lasts triples c) t.2.2 := by
        apply countP_mono_left
        intro x _ hx
        simp only [decide_eq_true_eq] at hx ⊢
        omega
      have hle := hlead.1
      exact decide_eq_true (Nat.le_trans hmono hle)
    · refine ⟨_, colA_eq hfits c (by omega), ?_⟩
      have hlt := hlead.2
      exact decide_eq_false (Nat.not_le_of_lt hlt)
  have hlt := lf_lt_pow hfits c t.2.2 i
  rw [CyclicRing.fInverse, hpoint, u32_of_lt (by omega), subU32_of_le (by omega) (by omega), Nat.add_sub_cancel]
  simp only [colA_eq hfits c (Nat.le_of_lt hsymbol), Option.bind_eq_bind, Option.bind_some, CyclicRing.select,
    col_buildShared]
  rw [subU32_of_le (by unfold lf; omega) hlt, lf, Nat.add_sub_cancel_left, ← lasts, select_rank hlast,
    Option.map_some, u32_of_lt]
  have hi' := (List.getElem?_eq_some_iff.mp hi).1
  rw [length_table] at hi'
  omega

theorem tripleAt_eq (hi : (table triples .O)[i]? = some t) :
    (buildShared triples univ).tripleAt i = some t := by
  have hP : (table triples .P)[lf (lasts triples .O) t.2.2 i]? = some (rotate t) := next_lf_eq hnodup hi
  have hS : (table triples .S)[lf (lasts triples .P) (rotate t).2.2 (lf (lasts triples .O) t.2.2 i)]? =
      some (rotate (rotate t)) := next_lf_eq hnodup hP
  simp only [CyclicRing.tripleAt, access_buildShared, hi, f_eq hfits hshared hi, hP, f_eq hfits hshared hP, hS,
    Option.map_some, Option.bind_eq_bind, Option.bind_some]
  rfl

theorem enumerateSpo_eq : (buildShared triples univ).enumerateSpo = some (sortRows triples) := by
  have hn : (buildShared triples univ).n = (sortRows triples).length := by
    rw [(sortRows_perm triples).length_eq]
    exact u32_of_lt hfits
  rw [CyclicRing.enumerateSpo, hn]
  apply mapM_range_eq
  intro i t hi
  exact tripleAt_eq hfits hshared hnodup hi

end Fits

/-! ## Ranges of rows -/

theorem rowsAre_lead (hnodup : triples.Nodup) (c : Col) (symbol : Nat) :
    RowsAre ⟨start (lasts triples c) symbol, start (lasts triples c) (symbol + 1)⟩ (table triples c.next)
      fun t => t.1 = symbol := by
  have hturned := turned_table hnodup c
  intro j
  constructor
  · intro hj
    have hlen : start (lasts triples c) (symbol + 1) ≤ (table triples c.next).length := by
      have hle := lf_le_length (lasts triples c) (symbol + 1) 0
      rw [length_lasts, lf] at hle
      rw [length_table]
      omega
    obtain ⟨t, ht⟩ : ∃ t, (table triples c.next)[j]? = some t :=
      ⟨_, getElem?_eq_getElem (Nat.lt_of_lt_of_le hj.2 hlen)⟩
    exact ⟨t, ht, (Turned.lead_iff turns_rotate hturned ht fun _ => Nat.lt_succ_iff).mp hj⟩
  · rintro ⟨t, ht, hlead⟩
    exact (Turned.lead_iff turns_rotate hturned ht fun _ => Nat.lt_succ_iff).mpr hlead

variable {symbols : List Nat}

theorem hasPrefix_rotate (hlen : symbols.length < 3) :
    HasPrefix (symbol :: symbols) (rotate t) ↔ t.2.2 = symbol ∧ HasPrefix symbols t := by
  unfold HasPrefix rotate
  rw [cons_prefix_cons]
  -- of a prefix shorter than the row the last symbol says nothing
  have hshort : symbols <+: [t.1, t.2.1] ↔ symbols <+: [t.1, t.2.1, t.2.2] := by
    constructor
    · intro h
      exact h.trans ⟨[t.2.2], rfl⟩
    · intro h
      exact prefix_of_prefix_length_le h ⟨[t.2.2], rfl⟩ (Nat.le_of_lt_succ hlen)
  rw [← hshort, eq_comm]

theorem rowsAre_step (hnodup : triples.Nodup)
    (hlen : symbols.length < 3) (hrange : RowsAre range (table triples c) (HasPrefix symbols)) (symbol : Nat) :
    RowsAre ⟨lf (lasts triples c) symbol range.start, lf (lasts triples c) symbol range.stop⟩
      (table triples c.next) (HasPrefix (symbol :: symbols)) := by
  have hturned := turned_table hnodup c
  -- a row of the next table and the row it comes from
  have hstep : ∀ j t, (table triples c.next)[j]? = some t →
      (lf (lasts triples c) symbol range.start ≤ j ∧ j < lf (lasts triples c) symbol range.stop ↔
        HasPrefix (symbol :: symbols) t) := by
    intro j t ht
    have hiff := Turned.step_iff turns_rotate hturned ht (c := symbol) (d := symbol + 1)
      (fun _ => Nat.lt_succ_iff) (a := range.start) (b := range.stop)
    rw [← lasts] at hiff
    rw [hiff]
    constructor
    · rintro ⟨i, x, hi, rfl, hlast, hmem⟩
      obtain ⟨x', hx', hp⟩ := (hrange i).mp hmem
      have hx : x = x' := Option.some.inj (hi.symm.trans hx')
      subst hx
      exact (hasPrefix_rotate hlen).mpr ⟨hlast, hp⟩
    · intro hp
      obtain ⟨i, x, hi, rfl, -⟩ := Turned.of_next turns_rotate hturned ht
      have hx := (hasPrefix_rotate hlen).mp hp
      exact ⟨i, x, hi, rfl, hx.1, (hrange i).mpr ⟨x, hi, hx.2⟩⟩
  intro j
  constructor
  · intro hj
    have hlt : j < (table triples c.next).length := by
      have hle := lf_le_length (lasts triples c) symbol range.stop
      rw [length_lasts] at hle
      rw [length_table]
      exact Nat.lt_of_lt_of_le hj.2 hle
    exact ⟨_, getElem?_eq_getElem hlt, (hstep j _ (getElem?_eq_getElem hlt)).mp hj⟩
  · rintro ⟨t, ht, hp⟩
    exact (hstep j t ht).mpr hp

theorem rowsAre_step_empty (hnodup : triples.Nodup)
    (hlen : symbols.length < 3) (hempty : range.isEmpty = true)
    (hrange : RowsAre range (table triples c) (HasPrefix symbols)) (symbol : Nat) :
    RowsAre .empty (table triples c.next) (HasPrefix (symbol :: symbols)) := by
  intro j
  constructor
  · intro hj
    exact absurd hj.2 (Nat.not_lt_zero j)
  · rintro ⟨t, ht, hp⟩
    obtain ⟨i, x, hi, rfl, -⟩ := Turned.of_next turns_rotate (turned_table hnodup c) ht
    have hmem := (hrange i).mpr ⟨x, hi, ((hasPrefix_rotate hlen).mp hp).2⟩
    have hle : range.stop ≤ range.start := of_decide_eq_true hempty
    have h₁ := hmem.1
    have h₂ := hmem.2
    omega

/-! ## Faithfulness -/

theorem exists_row (c : Col) (hi : i < triples.length) : ∃ t, (table triples c)[i]? = some t :=
  ⟨_, getElem?_eq_getElem (by rwa [length_table])⟩

theorem lt_of_row (ht : (table triples c)[i]? = some t) : i < triples.length := by
  have hlt := (List.getElem?_eq_some_iff.mp ht).1
  rwa [length_table] at hlt

/-- Turning is a bijection of rows as long as positions fit into a word. -/
theorem faithful_of_fits (hnodup : triples.Nodup) (hshared : Shared triples univ) (huniv : univ < 2 ^ 32)
    (hfits : triples.length < 2 ^ 32) : Faithful (buildShared triples univ) triples where
  turn := by
    intro c i hi
    obtain ⟨t, ht⟩ := exists_row c hi
    have hnext := next_lf_eq hnodup ht
    refine ⟨_, lt_of_row hnext, f_eq hfits hshared ht, ?_⟩
    rw [hnext, ht, Option.map_some]
  bijective := by
    intro c j hj
    obtain ⟨t, ht⟩ := exists_row c.next hj
    obtain ⟨i, x, hi, rfl, rfl⟩ := Turned.of_next turns_rotate (turned_table hnodup c) ht
    refine ⟨i, ⟨lt_of_row hi, f_eq hfits hshared hi⟩, ?_⟩
    rintro i' ⟨hi', hf⟩
    -- going back from the common row gives both
    obtain ⟨x', hx'⟩ := exists_row c hi'
    rw [f_eq hfits hshared hx', Option.some.injEq] at hf
    have hback := fInverse_eq hfits hshared hnodup huniv hx'
    rw [hf] at hback
    exact Option.some.inj (hback.symm.trans (fInverse_eq hfits hshared hnodup huniv hi))
  cycle := by
    intro i hi
    obtain ⟨t, ht⟩ := exists_row .O hi
    have hP : (table triples .P)[lf (lasts triples .O) t.2.2 i]? = some (rotate t) := next_lf_eq hnodup ht
    have hS : (table triples .S)[lf (lasts triples .P) (rotate t).2.2 (lf (lasts triples .O) t.2.2 i)]? =
        some (rotate (rotate t)) := next_lf_eq hnodup hP
    rw [f_eq hfits hshared ht, Option.bind_some, f_eq hfits hshared hP, Option.bind_some,
      f_eq hfits hshared hS]
    -- the row reached is the row left, and no row stands twice in the table
    have hsame : (table triples .O)[lf (lasts triples .S) (rotate (rotate t)).2.2
        (lf (lasts triples .P) (rotate t).2.2 (lf (lasts triples .O) t.2.2 i))]? = some t := next_lf_eq hnodup hS
    have hpos := countP_lt turns_rotate.asymm (table_sorted hnodup .O) ht
    exact congrArg some ((countP_lt turns_rotate.asymm (table_sorted hnodup .O) hsame).symm.trans hpos)
  inverse := by
    intro c i hi
    obtain ⟨t, ht⟩ := exists_row c hi
    rw [f_eq hfits hshared ht, Option.bind_some, fInverse_eq hfits hshared hnodup huniv ht]
  inverse_f := by
    intro c j hj
    obtain ⟨t, ht⟩ := exists_row c.next hj
    obtain ⟨i, x, hi, rfl, rfl⟩ := Turned.of_next turns_rotate (turned_table hnodup c) ht
    have hback := fInverse_eq hfits hshared hnodup huniv hi
    rw [lasts] at hback
    rw [hback, Option.bind_some, f_eq hfits hshared hi, lasts]
  lead := by
    intro c symbol hsymbol
    exact ⟨_, leadRange_eq hfits hsymbol, rowsAre_lead hnodup c symbol⟩
  step := by
    intro c symbols range hlen hrange symbol hsymbol
    by_cases hempty : range.isEmpty = true
    · refine ⟨.empty, ?_, rowsAre_step_empty hnodup hlen hempty hrange symbol⟩
      rw [CyclicRing.backwardStep, if_pos hempty]
    · have hne : range.isEmpty = false := by simpa using hempty
      exact ⟨_, backwardStep_eq hfits hne hsymbol, rowsAre_step hnodup hlen hrange symbol⟩
  enumerate := enumerateSpo_eq hfits hshared hnodup

theorem fits_of_enumerate (h : (buildShared triples univ).enumerateSpo = some (sortRows triples)) :
    triples.length < 2 ^ 32 := by
  have hlen := length_of_mapM h
  rw [(sortRows_perm triples).length_eq, length_range] at hlen
  have hmod : triples.length = triples.length % 2 ^ 32 := hlen
  omega

/-- The ring represents its triples exactly when their number fits in 32 bits. -/
theorem buildShared_faithful_iff (triples : List Row) (univ : Nat) (hnodup : triples.Nodup)
    (hshared : Shared triples univ) (huniv : univ < 2 ^ 32) :
    Faithful (buildShared triples univ) triples ↔ triples.length < 2 ^ 32 := by
  constructor
  · intro h
    exact fits_of_enumerate h.enumerate
  · exact faithful_of_fits hnodup hshared huniv

/-- Two triples with a common subject. -/
theorem buildShared_two_faithful : Faithful (buildShared [(0, 1, 3), (0, 1, 2)] 4) [(0, 1, 3), (0, 1, 2)] :=
  (buildShared_faithful_iff [(0, 1, 3), (0, 1, 2)] 4 (by decide) (by decide) (by decide)).mpr (by decide)

/-- The `2 ^ 32` triples over two sets of `2 ^ 16` symbols. -/
def squareTriples : List Row := (List.range (2 ^ 32)).map fun i => (0, i / 2 ^ 16, i % 2 ^ 16)

theorem squareTriples_nodup : squareTriples.Nodup := by
  apply nodup_range.map
  intro i j h
  simp only [Prod.mk.injEq, true_and] at h
  have hi := Nat.div_add_mod i (2 ^ 16)
  omega

theorem squareTriples_shared : Shared squareTriples (2 ^ 16) := by
  intro t ht
  obtain ⟨i, hi, rfl⟩ := mem_map.mp ht
  rw [mem_range] at hi
  refine ⟨Nat.pow_pos (by decide), ?_, Nat.mod_lt _ (Nat.pow_pos (by decide))⟩
  show i / 2 ^ 16 < 2 ^ 16
  omega

/-- With `2 ^ 32` triples the row count wraps to zero and nothing is read back. -/
theorem squareTriples_not_faithful : squareTriples.Nodup ∧ Shared squareTriples (2 ^ 16) ∧
    (buildShared squareTriples (2 ^ 16)).enumerateSpo = some [] ∧
    ¬ Faithful (buildShared squareTriples (2 ^ 16)) squareTriples := by
  have hlen : squareTriples.length = 2 ^ 32 := by rw [squareTriples, length_map, length_range]
  have hn : (buildShared squareTriples (2 ^ 16)).n = 0 := by
    show u32 squareTriples.length = 0
    rw [hlen]
    rfl
  refine ⟨squareTriples_nodup, squareTriples_shared, ?_, ?_⟩
  · rw [CyclicRing.enumerateSpo, hn]
    rfl
  · intro h
    have hfits := fits_of_enumerate h.enumerate
    omega

end Nova.Ring
