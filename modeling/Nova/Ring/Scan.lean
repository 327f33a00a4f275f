import Nova.Ring.Image

/-!
# Scanning a cyclic ring

For a pattern and a target position the ring picks one of four ways to list the
target's symbols (`denseScanKind`): none, one, the last column over a range of rows, or
the middle components under a leading symbol. `denseSeek` finds the next symbol for
each of them; under a leading symbol it searches by galloping and bisection.

Row numbers stay below `2 ^ 32`, so the saturating sums of the search are plain sums
(`lowerBoundMiddleSaturating_eq`).
`none` is a panic; a search that finds nothing returns `some none`.

* `Splits`, `lowerBoundMiddle_spec` — the search on an ascending sequence
* `rowsAre_rangeUnder` — the rows with two given leading symbols
* `kindShows_denseScanKind` — what is picked lists the target's symbols
-/

namespace Nova.Ring

open Nova.Lib Nova.Lib.LastFirst List

/-! ## Search -/

/-- Doubles the step until the value at the bound reaches the target. -/
def gallop (mid : Nat → Option Nat) (hi target lo step bound : Nat) : Option (Nat × Nat) :=
  if _h : bound < hi then
    match mid bound with
    | none => none
    | some v =>
      if v < target then gallop mid hi target (bound + 1) (step * 2) (min (bound + 1 + step * 2) hi)
      else some (lo, bound)
  else some (lo, bound)
termination_by hi - bound

def bisect (mid : Nat → Option Nat) (target lo hi : Nat) : Option Nat :=
  if _h : lo < hi then
    match mid (lo + (hi - lo) / 2) with
    | none => none
    | some v =>
      if v < target then bisect mid target (lo + (hi - lo) / 2 + 1) hi
      else bisect mid target lo (lo + (hi - lo) / 2)
  else some lo
termination_by hi - lo

/-- The first position of `[lo, hi)` whose value reaches the target, or `hi`. -/
def lowerBoundMiddle (mid : Nat → Option Nat) (lo hi target : Nat) : Option Nat :=
  if hi ≤ lo then some lo
  else do
    let v ← mid lo
    if target ≤ v then some lo
    else do
      let (lo', bound) ← gallop mid hi target lo 1 (lo + 1)
      bisect mid target lo' (min bound hi)

/-- `k` separates the values below the target from the rest. -/
structure Splits (val : Nat → Nat) (lo hi target k : Nat) : Prop where
  lo_le : lo ≤ k
  le_hi : k ≤ hi
  below : ∀ i, lo ≤ i → i < k → val i < target
  above : ∀ i, k ≤ i → i < hi → target ≤ val i

section Search

variable {mid : Nat → Option Nat} {val : Nat → Nat} {start stop target : Nat}
  (hmid : ∀ i, start ≤ i → i < stop → mid i = some (val i))
  (hmono : ∀ i j, start ≤ i → i ≤ j → j < stop → val i ≤ val j)

include hmid hmono

theorem bisect_spec {lo hi : Nat} (hlo : start ≤ lo) (hle : lo ≤ hi) (hhi : hi ≤ stop)
    (hbelow : ∀ i, start ≤ i → i < lo → val i < target) (habove : ∀ i, hi ≤ i → i < stop → target ≤ val i) :
    ∃ k, bisect mid target lo hi = some k ∧ Splits val start stop target k := by
  induction hn : hi - lo using Nat.strong_induction_on generalizing lo hi with
  | h n ih =>
    rw [bisect]
    by_cases hlt : lo < hi
    · rw [dif_pos hlt, hmid _ (by omega) (by omega)]
      dsimp only
      by_cases hv : val (lo + (hi - lo) / 2) < target
      · rw [if_pos hv]
        refine ih (hi - (lo + (hi - lo) / 2 + 1)) (by omega) (by omega) (by omega) hhi ?_ habove rfl
        intro i hi₁ hi₂
        exact Nat.lt_of_le_of_lt (hmono i _ hi₁ (by omega) (by omega)) hv
      · rw [if_neg hv]
        refine ih (lo + (hi - lo) / 2 - lo) (by omega) hlo (by omega) (by omega) hbelow ?_ rfl
        intro i hi₁ hi₂
        exact Nat.le_trans (Nat.le_of_not_lt hv) (hmono _ i (by omega) hi₁ hi₂)
    · rw [dif_neg hlt]
      exact ⟨lo, rfl, hlo, by omega, hbelow, fun i h₁ h₂ => habove i (by omega) h₂⟩

/-- The gallop keeps the values before `lo` below the target. -/
theorem gallop_spec {lo step bound : Nat} (hlo : start ≤ lo) (hle : lo ≤ bound) (hbound : bound ≤ stop)
    (hbelow : ∀ i, start ≤ i → i < lo → val i < target) :
    ∃ lo' bound', gallop mid stop target lo step bound = some (lo', bound') ∧ start ≤ lo' ∧ lo' ≤ bound' ∧
      bound' ≤ stop ∧ (∀ i, start ≤ i → i < lo' → val i < target) ∧
      (∀ i, bound' ≤ i → i < stop → target ≤ val i) := by
  induction hn : stop - bound using Nat.strong_induction_on generalizing lo step bound with
  | h n ih =>
    rw [gallop]
    by_cases hlt : bound < stop
    · rw [dif_pos hlt, hmid _ (by omega) hlt]
      dsimp only
      by_cases hv : val bound < target
      · rw [if_pos hv]
        refine ih (stop - min (bound + 1 + step * 2) stop) (by omega) (by omega) (by omega) (by omega) ?_ rfl
        intro i h₁ h₂
        exact Nat.lt_of_le_of_lt (hmono i bound h₁ (by omega) hlt) hv
      · rw [if_neg hv]
        refine ⟨lo, bound, rfl, hlo, hle, hbound, hbelow, ?_⟩
        intro i h₁ h₂
        exact Nat.le_trans (Nat.le_of_not_lt hv) (hmono bound i (by omega) h₁ h₂)
    · rw [dif_neg hlt]
      exact ⟨lo, bound, rfl, hlo, hle, hbound, hbelow, fun i h₁ h₂ => absurd h₂ (by omega)⟩

theorem lowerBoundMiddle_spec (hle : start ≤ stop) :
    ∃ k, lowerBoundMiddle mid start stop target = some k ∧ Splits val start stop target k := by
  unfold lowerBoundMiddle
  by_cases hempty : stop ≤ start
  · rw [if_pos hempty]
    exact ⟨start, rfl, Nat.le_refl _, hle, fun i h₁ h₂ => absurd h₂ (by omega),
      fun i h₁ h₂ => absurd h₂ (by omega)⟩
  · rw [if_neg hempty, hmid start (Nat.le_refl _) (by omega)]
    simp only [Option.bind_eq_bind, Option.bind_some]
    by_cases hv : target ≤ val start
    · rw [if_pos hv]
      refine ⟨start, rfl, Nat.le_refl _, hle, fun i h₁ h₂ => absurd h₂ (by omega), ?_⟩
      intro i h₁ h₂
      exact Nat.le_trans hv (hmono start i (Nat.le_refl _) h₁ h₂)
    · rw [if_neg hv]
      obtain ⟨lo', bound', hg, hlo', hle', hbound', hbelow, habove⟩ :=
        @gallop_spec mid val start stop target hmid hmono start 1 (start + 1) (Nat.le_refl _) (by omega) (by omega)
          (fun i h₁ h₂ => absurd h₂ (by omega))
      rw [hg]
      simp only [Option.bind_some]
      rw [Nat.min_eq_left hbound']
      exact bisect_spec hmid hmono hlo' hle' hbound' hbelow habove

end Search

/-- Addition of row numbers that stops at the largest one. -/
def saturatingAdd (a b : Nat) : Nat := min (a + b) (2 ^ 32 - 1)

/-- `lo.checked_add(step)`, at most `hi`. -/
def nextBound (lo step hi : Nat) : Nat := if lo + step < 2 ^ 32 then min (lo + step) hi else hi

theorem lt_nextBound {step bound hi : Nat} (hlt : bound < hi) (hhi : hi < 2 ^ 32) :
    bound < nextBound (saturatingAdd bound 1) step hi := by
  unfold nextBound saturatingAdd
  split <;> omega

/-- `gallop` in the arithmetic of the code, whose sums stop at the largest row number. -/
def gallopSaturating (mid : Nat → Option Nat) (hi : Fin (2 ^ 32)) (target lo step bound : Nat) :
    Option (Nat × Nat) :=
  if _h : bound < hi then
    match mid bound with
    | none => none
    | some v =>
      if v < target then
        let lo' := saturatingAdd bound 1
        let step' := min (step * 2) (2 ^ 32 - 1)
        gallopSaturating mid hi target lo' step' (nextBound lo' step' hi)
      else some (lo, bound)
  else some (lo, bound)
termination_by hi.val - bound
decreasing_by exact Nat.sub_lt_sub_left _h (lt_nextBound _h hi.isLt)

def lowerBoundMiddleSaturating (mid : Nat → Option Nat) (lo : Nat) (hi : Fin (2 ^ 32))
    (target : Nat) : Option Nat :=
  if hi ≤ lo then some lo
  else do
    let v ← mid lo
    if target ≤ v then some lo
    else do
      let (lo', bound) ← gallopSaturating mid hi target lo 1 (saturatingAdd lo 1)
      bisect mid target lo' (min bound hi)

theorem gallopSaturating_eq (mid : Nat → Option Nat) (hi : Fin (2 ^ 32)) (target lo step bound : Nat) :
    gallopSaturating mid hi target lo (min step (2 ^ 32 - 1)) bound = gallop mid hi target lo step bound := by
  induction hn : hi.val - bound using Nat.strong_induction_on generalizing lo step bound with
  | h n ih =>
    rw [gallopSaturating, gallop]
    by_cases hlt : bound < hi
    · rw [dif_pos hlt, dif_pos hlt]
      have hlo : saturatingAdd bound 1 = bound + 1 := Nat.min_eq_left (by omega)
      have hstep : min (min step (2 ^ 32 - 1) * 2) (2 ^ 32 - 1) = min (step * 2) (2 ^ 32 - 1) := by omega
      have hbound : nextBound (bound + 1) (min (step * 2) (2 ^ 32 - 1)) hi = min (bound + 1 + step * 2) hi := by
        unfold nextBound
        split <;> omega
      simp only [hlo, hstep, hbound]
      rw [ih _ (by omega) _ _ _ rfl]
    · rw [dif_neg hlt, dif_neg hlt]

theorem lowerBoundMiddleSaturating_eq (mid : Nat → Option Nat) (lo : Nat) (hi : Fin (2 ^ 32)) (target : Nat) :
    lowerBoundMiddleSaturating mid lo hi target = lowerBoundMiddle mid lo hi target := by
  unfold lowerBoundMiddleSaturating lowerBoundMiddle
  by_cases hempty : hi ≤ lo
  · rw [if_pos hempty, if_pos hempty]
  · have hlo : saturatingAdd lo 1 = lo + 1 := Nat.min_eq_left (by omega)
    have hstep := gallopSaturating_eq mid hi target lo 1 (lo + 1)
    rw [if_neg hempty, if_neg hempty, hlo, ← hstep]
    rfl

/-- The search in a range of ascending values: the first that reaches the target, or the end. -/
theorem lowerBoundMiddleSaturating_spec {mid : Nat → Option Nat} {val : Nat → Nat} {lo : Nat} {hi : Fin (2 ^ 32)}
    (hmid : ∀ i, lo ≤ i → i < hi → mid i = some (val i))
    (hmono : ∀ i j, lo ≤ i → i ≤ j → j < hi → val i ≤ val j) (target : Nat) :
    ∃ k, lowerBoundMiddleSaturating mid lo hi target = some k ∧ (hi ≤ lo → k = lo) ∧
      (lo ≤ hi → Splits val lo hi target k) := by
  rw [lowerBoundMiddleSaturating_eq]
  rcases Nat.le_total lo hi with hle | hle
  · obtain ⟨k, hk, hsplits⟩ : ∃ k, lowerBoundMiddle mid lo hi target = some k ∧ Splits val lo hi target k :=
      lowerBoundMiddle_spec hmid hmono hle
    exact ⟨k, hk, fun h => Nat.le_antisymm (Nat.le_trans hsplits.le_hi h) hsplits.lo_le, fun _ => hsplits⟩
  · refine ⟨lo, by rw [lowerBoundMiddle, if_pos hle], fun _ => rfl, ?_⟩
    intro h
    exact ⟨Nat.le_refl _, h, fun i h₁ h₂ => absurd h₂ (by omega), fun i h₁ h₂ => absurd h₂ (by omega)⟩

/-! ## Ranges and scan kinds -/

/-- The middle component under a leading symbol, by its role and that of the lead. -/
inductive MiddleKind where
  | pUnderS
  | sUnderO
  | oUnderP
  deriving Repr, DecidableEq

/-- How the symbols of the target are listed. -/
inductive DenseScanKind where
  | empty
  | singleton (v : Nat)
  | lastCol (col : Col) (range : RowRange)
  | middleRuns (range : RowRange) (mid : MiddleKind)
  deriving Repr, DecidableEq

namespace CyclicRing

variable (r : CyclicRing)

def rangeS (s : Nat) : Option RowRange := r.leadRange .S s

def rangeO (o : Nat) : Option RowRange := r.leadRange .O o

def rangeP (p : Nat) : Option RowRange := r.leadRange .P p

/-- The symbols of a column over a range of rows. -/
def segment (c : Col) (range : RowRange) : List Nat := ((r.col c).drop range.start).take range.len

/-- The least symbol of the range that is at least the target. -/
def rangeNextValue (c : Col) (range : RowRange) (target : Nat) : Option Nat :=
  if range.isEmpty || r.univ ≤ target then none
  else ((r.segment c range).filter fun v => target ≤ v).min?

/-- The least symbol from the target on that all ranges have; on a mapped column the ranges are
descended together. -/
def intersectionNextValue (c : Col) (ranges : List RowRange) (target : Nat) : Option Nat :=
  match ranges with
  | [] => none
  | first :: rest =>
    if ranges.any RowRange.isEmpty then none
    else ((r.segment c first).filter fun v =>
      target ≤ v && rest.all fun range => (r.segment c range).contains v).min?

def intersectionNextValue2 (c : Col) (left right : RowRange) (target : Nat) : Option Nat :=
  r.intersectionNextValue c [left, right] target

def intersectionNextValue3 (c : Col) (first second third : RowRange) (target : Nat) : Option Nat :=
  r.intersectionNextValue c [first, second, third] target

/-- The second component of a row, read in the next table. -/
def middle (c : Col) (i : Nat) : Option Nat := do
  let j ← r.f c i
  r.access c.next j

def middlePSpo (i : Nat) : Option Nat := r.middle .O i

def middleSOsp (i : Nat) : Option Nat := r.middle .P i

def middleOPos (i : Nat) : Option Nat := r.middle .S i

/-- The rows of a range with the given second component. -/
def rangeUnder (lead : Option RowRange) (mid : Nat → Option Nat) (x : Nat) : Option RowRange := do
  let range ← lead
  if range.isEmpty then some range
  else do
    let start ← lowerBoundMiddle mid range.start range.stop x
    let stop ← if x = 2 ^ 32 - 1 then some range.stop else lowerBoundMiddle mid start range.stop (x + 1)
    some ⟨start, stop⟩

def rangeSp (s p : Nat) : Option RowRange := rangeUnder (r.rangeS s) r.middlePSpo p

def rangeOs (o s : Nat) : Option RowRange := rangeUnder (r.rangeO o) r.middleSOsp s

def rangePo (p o : Nat) : Option RowRange := rangeUnder (r.rangeP p) r.middleOPos o

/-- A scan over a range, none if the range is empty. -/
def unlessEmpty (range : Option RowRange) (kind : RowRange → DenseScanKind) : Option DenseScanKind := do
  let range ← range
  some (if range.isEmpty then .empty else kind range)

def inAlphabet (v : Option Nat) : Bool := v.all fun x => x < r.univ

/-- Picks the scan for a pattern and a target position (`0`, `1` or `2`). -/
def denseScanKind (s p o : Option Nat) (target : Nat) : Option DenseScanKind :=
  if r.n = 0 then some .empty
  else if !r.inAlphabet s || !r.inAlphabet p || !r.inAlphabet o then some .empty
  else
    match s, p, o, min target 2 with
    | none, none, none, 0 => some (.lastCol .S (.full r.n))
    | none, none, none, 1 => some (.lastCol .P (.full r.n))
    | none, none, none, 2 => some (.lastCol .O (.full r.n))
    | some sv, none, none, 2 => unlessEmpty (r.rangeS sv) fun range => .lastCol .O range
    | some sv, none, none, 1 => unlessEmpty (r.rangeS sv) fun range => .middleRuns range .pUnderS
    | some sv, none, none, 0 => unlessEmpty (r.rangeS sv) fun _ => .singleton sv
    | none, some pv, none, 0 => unlessEmpty (r.rangeP pv) fun range => .lastCol .S range
    | none, some pv, none, 2 => unlessEmpty (r.rangeP pv) fun range => .middleRuns range .oUnderP
    | none, some pv, none, 1 => unlessEmpty (r.rangeP pv) fun _ => .singleton pv
    | none, none, some ov, 1 => unlessEmpty (r.rangeO ov) fun range => .lastCol .P range
    | none, none, some ov, 0 => unlessEmpty (r.rangeO ov) fun range => .middleRuns range .sUnderO
    | none, none, some ov, 2 => unlessEmpty (r.rangeO ov) fun _ => .singleton ov
    | some sv, some pv, none, 2 => do
      let range ← r.rangeSp sv pv
      if range.isEmpty then some .empty
      else if range.len = 1 then do
        let v ← r.access .O range.start
        some (.singleton v)
      else some (.lastCol .O range)
    | some sv, some pv, none, 0 => unlessEmpty (r.rangeSp sv pv) fun _ => .singleton sv
    | some sv, some pv, none, 1 => unlessEmpty (r.rangeSp sv pv) fun _ => .singleton pv
    | some sv, none, some ov, 1 => unlessEmpty (r.rangeOs ov sv) fun range => .lastCol .P range
    | some sv, none, some ov, 0 => unlessEmpty (r.rangeOs ov sv) fun _ => .singleton sv
    | some sv, none, some ov, 2 => unlessEmpty (r.rangeOs ov sv) fun _ => .singleton ov
    | none, some pv, some ov, 0 => unlessEmpty (r.rangePo pv ov) fun range => .lastCol .S range
    | none, some pv, some ov, 1 => unlessEmpty (r.rangePo pv ov) fun _ => .singleton pv
    | none, some pv, some ov, 2 => unlessEmpty (r.rangePo pv ov) fun _ => .singleton ov
    | some sv, some pv, some ov, tf => do
      let range ← r.rangeSp sv pv
      if range.isEmpty then some .empty
      else if r.rangeNextValue .O range ov = some ov then
        match tf with
        | 0 => some (.singleton sv)
        | 1 => some (.singleton pv)
        | _ => some (.singleton ov)
      else some .empty
    | _, _, _, _ => some .empty

def middleOf : MiddleKind → Nat → Option Nat
  | .pUnderS => r.middlePSpo
  | .sUnderO => r.middleSOsp
  | .oUnderP => r.middleOPos

/-- The first symbol of the scan that is at least the target. -/
def denseSeek (kind : DenseScanKind) (target : Nat) : Option (Option Nat) :=
  match kind with
  | .empty => some none
  | .singleton v => some (if target ≤ v then some v else none)
  | .lastCol col range => some (if range.isEmpty then none else r.rangeNextValue col range target)
  | .middleRuns range mid =>
    if range.isEmpty then some none
    else do
      let i ← lowerBoundMiddle (r.middleOf mid) range.start range.stop target
      if range.stop ≤ i then some none
      else do
        let v ← r.middleOf mid i
        some (some v)

def denseAdvance (kind : DenseScanKind) (current : Nat) : Option (Option Nat) :=
  if current = 2 ^ 32 - 1 then some none else r.denseSeek kind (current + 1)

end CyclicRing

/-! ## Rows of a built ring -/

/-- The conditions under which a ring represents its triples. -/
structure Built (triples : List Row) (univ : Nat) : Prop where
  nodup : triples.Nodup
  shared : Shared triples univ
  fits : triples.length < 2 ^ 32
  univ_lt : univ < 2 ^ 32

variable {triples : List Row} {univ : Nat}

theorem table_le (c : Col) {i j : Nat} {a b : Row} (ha : (table triples c)[i]? = some a)
    (hb : (table triples c)[j]? = some b) (hij : i ≤ j) : Row.le a b = true := by
  have hsorted : (table triples c).Pairwise fun a b => Row.le a b = true := by
    rcases c with _ | _ | _ <;> exact sortRows_sorted _
  rcases Nat.eq_or_lt_of_le hij with rfl | hlt
  · have hab : a = b := Option.some.inj (ha.symm.trans hb)
    rw [hab]
    exact (Row.le_total b b).elim id id
  · obtain ⟨hi, rfl⟩ := List.getElem?_eq_some_iff.mp ha
    obtain ⟨hj, rfl⟩ := List.getElem?_eq_some_iff.mp hb
    exact pairwise_iff_getElem.mp hsorted i j hi hj hlt

variable {P : Row → Prop}

/-- Rows that stand together are those that a filter keeps. -/
theorem segment_eq_filter {rows : List Row} [DecidablePred P] {a b : Nat}
    (h : ∀ j, a ≤ j ∧ j < b ↔ ∃ t, rows[j]? = some t ∧ P t) :
    (rows.drop a).take (b - a) = rows.filter fun t => decide (P t) := by
  induction rows generalizing a b with
  | nil => simp
  | cons x xs ih =>
    rcases a with _ | a
    · rcases b with _ | b
      · have hnone : ∀ t ∈ x :: xs, ¬ P t := by
          intro t ht hp
          obtain ⟨j, hj⟩ := mem_iff_getElem?.mp ht
          have hlt := ((h j).mpr ⟨t, hj, hp⟩).2
          omega
        rw [filter_eq_nil_iff.mpr (by simpa using hnone)]
        rfl
      · have hx : P x := by
          obtain ⟨t, ht, hp⟩ := (h 0).mp ⟨Nat.le_refl 0, Nat.succ_pos b⟩
          have hxt : x = t := by simpa using ht
          exact hxt ▸ hp
        have htail : ∀ j, 0 ≤ j ∧ j < b ↔ ∃ t, xs[j]? = some t ∧ P t := by
          intro j
          have hj := h (j + 1)
          rw [getElem?_cons_succ] at hj
          rw [← hj]
          omega
        have hrest := ih htail
        rw [filter_cons_of_pos (by simpa using hx), ← hrest]
        rfl
    · have hx : ¬ P x := by
        intro hp
        have hle := ((h 0).mpr ⟨x, rfl, hp⟩).1
        omega
      have htail : ∀ j, a ≤ j ∧ j < b - 1 ↔ ∃ t, xs[j]? = some t ∧ P t := by
        intro j
        have hj := h (j + 1)
        rw [getElem?_cons_succ] at hj
        rw [← hj]
        omega
      rw [filter_cons_of_neg (by simpa using hx), ← ih htail, drop_succ_cons]
      congr 1
      omega

variable {c : Col}

theorem access_row {i : Nat} {t : Row} (hi : (table triples c)[i]? = some t) :
    (buildShared triples univ).access c i = some t.2.2 := by
  rw [access_buildShared, hi, Option.map_some]

variable {range : RowRange}

theorem segment_eq [DecidablePred P]
    (hrange : RowsAre range (table triples c) P) : (buildShared triples univ).segment c range =
      ((table triples c).filter fun t => decide (P t)).map fun t => t.2.2 := by
  rw [CyclicRing.segment, col_buildShared, ← segment_eq_filter hrange, map_take, map_drop]
  rfl

theorem rowsAre_full (triples : List Row) (c : Col) : RowsAre (.full triples.length)
    (table triples c) fun _ => True := by
  intro j
  constructor
  · intro hj
    obtain ⟨t, ht⟩ := exists_row c hj.2
    exact ⟨t, ht, trivial⟩
  · rintro ⟨t, ht, -⟩
    exact ⟨Nat.zero_le j, lt_of_row ht⟩

variable {x y : Nat}

namespace Built

variable (h : Built triples univ)
include h

theorem middle_row {i : Nat} {t : Row} (hi : (table triples c)[i]? = some t) :
    (buildShared triples univ).middle c i = some t.2.1 := by
  rw [CyclicRing.middle, f_eq h.fits h.shared hi]
  exact access_row (next_lf_eq h.nodup hi)

theorem n_eq : (buildShared triples univ).n = triples.length := u32_of_lt h.fits

theorem leadRange_spec (hx : x < univ) : ∃ range, (buildShared triples univ).leadRange c x = some range ∧
      RowsAre range (table triples c.next) (fun t => t.1 = x) ∧ range.start ≤ range.stop := by
  refine ⟨_, leadRange_eq h.fits hx, rowsAre_lead h.nodup c x, ?_⟩
  show start _ _ ≤ start _ _
  rw [start_succ]
  omega

/-- Among the rows with one leading symbol the middle components ascend. -/
theorem search_middle
    (hrange : RowsAre range (table triples c) fun t => t.1 = x) {a : Nat} (ha : range.start ≤ a)
    (hle : a ≤ range.stop) (target : Nat) :
    ∃ k, lowerBoundMiddle ((buildShared triples univ).middle c) a range.stop target = some k ∧
      Splits (fun i => ((table triples c)[i]?.getD (0, 0, 0)).2.1) a range.stop target k := by
  have hrow : ∀ i, a ≤ i → i < range.stop → ∃ t, (table triples c)[i]? = some t ∧ t.1 = x := by
    intro i h₁ h₂
    exact (hrange i).mp ⟨Nat.le_trans ha h₁, h₂⟩
  apply lowerBoundMiddle_spec _ _ hle
  · intro i h₁ h₂
    obtain ⟨t, ht, -⟩ := hrow i h₁ h₂
    rw [h.middle_row ht, ht, Option.getD_some]
  · intro i j h₁ hij h₂
    obtain ⟨t, ht, htx⟩ := hrow i h₁ (by omega)
    obtain ⟨u, hu, hux⟩ := hrow j (by omega) h₂
    have hord := Row.le_iff.mp (table_le c ht hu hij)
    rw [ht, hu, Option.getD_some, Option.getD_some]
    omega

/-- The rows below a pair are a range again. -/
theorem rowsAre_rangeUnder
    (hrange : RowsAre range (table triples c) fun t => t.1 = x) (hle : range.start ≤ range.stop)
    (hy : y < 2 ^ 32 - 1) :
    ∃ range', CyclicRing.rangeUnder (some range) ((buildShared triples univ).middle c) y = some range' ∧
      RowsAre range' (table triples c) (fun t => t.1 = x ∧ t.2.1 = y) ∧ range'.start ≤ range'.stop := by
  unfold CyclicRing.rangeUnder
  simp only [Option.bind_eq_bind, Option.bind_some]
  by_cases hempty : range.isEmpty = true
  · rw [if_pos hempty]
    refine ⟨range, rfl, ?_, hle⟩
    have hstop : range.stop ≤ range.start := of_decide_eq_true hempty
    intro j
    constructor
    · intro hj
      have h₁ := hj.1
      have h₂ := hj.2
      omega
    · rintro ⟨t, ht, htx, -⟩
      exact (hrange j).mpr ⟨t, ht, htx⟩
  · rw [if_neg hempty]
    -- two searches, for `y` and for the next number, cut out the range
    obtain ⟨k, hk, hsplit⟩ := h.search_middle hrange (Nat.le_refl _) hle y
    obtain ⟨k', hk', hsplit'⟩ := h.search_middle hrange hsplit.lo_le hsplit.le_hi (y + 1)
    rw [hk, Option.bind_some, if_neg (by omega), hk', Option.bind_some]
    refine ⟨⟨k, k'⟩, rfl, ?_, hsplit'.lo_le⟩
    have hlo := hsplit.lo_le
    have hhi := hsplit'.le_hi
    intro j
    constructor
    · intro hj
      have h₁ : k ≤ j := hj.1
      have h₂ : j < k' := hj.2
      obtain ⟨t, ht, htx⟩ := (hrange j).mp ⟨by omega, by omega⟩
      have hge := hsplit.above j h₁ (by omega)
      have hlt := hsplit'.below j h₁ h₂
      rw [ht, Option.getD_some] at hge hlt
      exact ⟨t, ht, htx, by omega⟩
    · rintro ⟨t, ht, htx, hty⟩
      have hmem := (hrange j).mpr ⟨t, ht, htx⟩
      have h₁ := hmem.1
      have h₂ := hmem.2
      refine ⟨?_, ?_⟩
      · by_contra hlt
        have hb := hsplit.below j h₁ (Nat.lt_of_not_le hlt)
        rw [ht, Option.getD_some] at hb
        omega
      · by_contra hlt
        have hb := hsplit'.above j (Nat.le_of_not_lt hlt) h₂
        rw [ht, Option.getD_some] at hb
        omega

end Built

/-! ## What a scan lists -/

/-- The first element from the target on. -/
def LeastFrom (S : Nat → Prop) (target : Nat) : Option Nat → Prop
  | none => ∀ v, S v → v < target
  | some v => S v ∧ target ≤ v ∧ ∀ w, S w → target ≤ w → v ≤ w

/-- The scan finds the elements of a set. -/
def KindShows (r : CyclicRing) (kind : DenseScanKind) (S : Nat → Prop) : Prop :=
  ∀ target, ∃ res, r.denseSeek kind target = some res ∧ LeastFrom S target res

section Kinds

variable {r : CyclicRing} {S : Nat → Prop}

theorem kindShows_empty (hS : ∀ v, ¬ S v) : KindShows r .empty S :=
  fun _ => ⟨none, rfl, fun v hv => absurd hv (hS v)⟩

theorem kindShows_singleton {v : Nat} (hS : ∀ w, S w ↔ w = v) : KindShows r (.singleton v) S := by
  intro target
  refine ⟨_, rfl, ?_⟩
  by_cases hle : target ≤ v
  · rw [if_pos hle]
    refine ⟨(hS v).mpr rfl, hle, ?_⟩
    intro w hw _
    exact Nat.le_of_eq ((hS w).mp hw).symm
  · rw [if_neg hle]
    intro w hw
    have heq := (hS w).mp hw
    omega

theorem leastFrom_min? {l : List Nat} {target : Nat} (hS : ∀ w, S w ↔ w ∈ l) :
    LeastFrom S target (l.filter fun v => decide (target ≤ v)).min? := by
  rcases hmin : (l.filter fun v => decide (target ≤ v)).min? with _ | v
  · rw [min?_eq_none_iff, filter_eq_nil_iff] at hmin
    intro w hw
    have hw' := hmin w ((hS w).mp hw)
    simpa using hw'
  · obtain ⟨hmem, hleast⟩ := min?_eq_some_iff.mp hmin
    rw [mem_filter, decide_eq_true_eq] at hmem
    refine ⟨(hS v).mpr hmem.1, hmem.2, ?_⟩
    intro w hw hle
    exact hleast w (mem_filter.mpr ⟨(hS w).mp hw, decide_eq_true hle⟩)

theorem kindShows_lastCol (hS : ∀ w, S w ↔ w ∈ r.segment c range)
    (hbound : ∀ w, S w → w < r.univ) (hne : range.isEmpty = false) : KindShows r (.lastCol c range) S := by
  intro target
  refine ⟨_, rfl, ?_⟩
  rw [if_neg (by simp [hne]), CyclicRing.rangeNextValue]
  by_cases hu : r.univ ≤ target
  · simp only [hne, hu, decide_true, Bool.or_true, if_true]
    intro w hw
    exact Nat.lt_of_lt_of_le (hbound w hw) hu
  · simp only [hne, hu, decide_false, Bool.or_false, Bool.false_eq_true, if_false]
    exact leastFrom_min? hS

end Kinds

theorem Built.kindShows_middleRuns (h : Built triples univ)
    {mid : MiddleKind} (hrange : RowsAre range (table triples c) fun t => t.1 = x)
    (hmid : (buildShared triples univ).middleOf mid = (buildShared triples univ).middle c)
    (hne : range.isEmpty = false) : KindShows (buildShared triples univ) (.middleRuns range mid)
      fun v => ∃ t ∈ table triples c, t.1 = x ∧ t.2.1 = v := by
  have hle : range.start ≤ range.stop := by
    have hlt : ¬ range.stop ≤ range.start := of_decide_eq_false hne
    omega
  intro target
  obtain ⟨k, hk, hsplit⟩ := h.search_middle hrange (Nat.le_refl _) hle target
  -- a row with the leading symbol, in terms of its position
  have hpos : ∀ v, (∃ t ∈ table triples c, t.1 = x ∧ t.2.1 = v) →
      ∃ i, range.start ≤ i ∧ i < range.stop ∧ ((table triples c)[i]?.getD (0, 0, 0)).2.1 = v := by
    rintro v ⟨t, ht, htx, htv⟩
    obtain ⟨i, hi⟩ := mem_iff_getElem?.mp ht
    have hmem := (hrange i).mpr ⟨t, hi, htx⟩
    exact ⟨i, hmem.1, hmem.2, by rw [hi]; exact htv⟩
  unfold CyclicRing.denseSeek
  dsimp only
  rw [if_neg (by simp [hne]), hmid, hk]
  simp only [Option.bind_eq_bind, Option.bind_some]
  have hlo := hsplit.lo_le
  by_cases hstop : range.stop ≤ k
  · rw [if_pos hstop]
    refine ⟨none, rfl, ?_⟩
    intro v hv
    obtain ⟨i, h₁, h₂, rfl⟩ := hpos v hv
    exact hsplit.below i h₁ (by omega)
  · rw [if_neg hstop]
    obtain ⟨t, ht, htx⟩ := (hrange k).mp ⟨by omega, by omega⟩
    rw [h.middle_row ht, Option.bind_some]
    refine ⟨some t.2.1, rfl, ⟨t, mem_of_getElem? ht, htx, rfl⟩, ?_, ?_⟩
    · have hge := hsplit.above k (Nat.le_refl k) (by omega)
      rwa [ht, Option.getD_some] at hge
    · intro w hw hle'
      obtain ⟨i, h₁, h₂, rfl⟩ := hpos w hw
      have hki : k ≤ i := by
        by_contra hlt
        have hb := hsplit.below i h₁ (by omega)
        omega
      obtain ⟨u, hu, hux⟩ := (hrange i).mp ⟨h₁, h₂⟩
      have hord := Row.le_iff.mp (table_le c ht hu hki)
      rw [hu, Option.getD_some]
      omega

/-! ## Patterns -/

/-- The triples a scan is about. -/
def matchesRow (s p o : Option Nat) (t : Row) : Bool :=
  s.all (fun v => t.1 == v) && p.all (fun v => t.2.1 == v) && o.all (fun v => t.2.2 == v)

def field (t : Row) : Nat → Nat
  | 0 => t.1
  | 1 => t.2.1
  | _ => t.2.2

/-- What a scan should list. -/
def oracleJoinScan (triples : List Row) (s p o : Option Nat) (target : Nat) : List Nat :=
  Sorted.ofList ((triples.filter (matchesRow s p o)).map fun t => field t (min target 2))

/-- The column of the target. -/
def targetCol : Nat → Col
  | 0 => .S
  | 1 => .P
  | _ => .O

/-- The constant in the first place of the table that ends with the target. -/
def leadOf (s p o : Option Nat) : Nat → Option Nat
  | 0 => p
  | 1 => o
  | _ => s

/-- The constant in its second place. -/
def midOf (s p o : Option Nat) : Nat → Option Nat
  | 0 => o
  | 1 => s
  | _ => p

/-- The constant in the place of the target. -/
def ownOf (s p o : Option Nat) : Nat → Option Nat
  | 0 => s
  | 1 => p
  | _ => o

def rowMatches (lead mid : Option Nat) (t : Row) : Bool :=
  lead.all (fun v => t.1 == v) && mid.all (fun v => t.2.1 == v)

/-- The last components of the matching rows, in the order of the table. -/
def column (triples : List Row) (c : Col) (lead mid : Option Nat) : List Nat :=
  ((table triples c).filter (rowMatches lead mid)).map fun t => t.2.2

/-- The target's symbols in the order in which the last column has them. -/
def scanOrder (triples : List Row) (s p o : Option Nat) (target : Nat) : List Nat :=
  column triples (targetCol target) (leadOf s p o target) (midOf s p o target)

theorem mem_table_next {t : Row} : rotate t ∈ table triples c.next ↔ t ∈ table triples c := by
  rw [(table_perm_next triples c).mem_iff]
  exact mem_map_of_injective rotate_injective

theorem mem_table_O {t : Row} : t ∈ table triples .O ↔ t ∈ triples := (sortRows_perm _).mem_iff

variable {lead mid : Option Nat}

theorem mem_column {v : Nat} :
    v ∈ column triples c lead mid ↔ ∃ t ∈ table triples c, rowMatches lead mid t = true ∧ t.2.2 = v := by
  simp only [column, mem_map, mem_filter, and_assoc]

theorem mem_scanOrder {s p o : Option Nat} {target v : Nat} (hown : ownOf s p o target = none) :
    v ∈ scanOrder triples s p o target ↔ ∃ t ∈ triples, matchesRow s p o t = true ∧ field t target = v := by
  rw [scanOrder, mem_column]
  rcases target with _ | _ | target
  · -- the rows are turned once
    have hs : s = none := hown
    subst hs
    constructor
    · rintro ⟨t, ht, hm, rfl⟩
      refine ⟨rotate t, mem_table_O.mp (mem_table_next (c := .S).mpr ht), ?_, rfl⟩
      simpa [matchesRow, rowMatches, rotate, leadOf, midOf] using hm
    · rintro ⟨t, ht, hm, rfl⟩
      refine ⟨rotate (rotate t), ?_, ?_, rfl⟩
      · exact mem_table_next (c := .P).mpr (mem_table_next (c := .O).mpr (mem_table_O.mpr ht))
      · simpa [matchesRow, rowMatches, rotate, leadOf, midOf] using hm
  · have hp : p = none := hown
    subst hp
    constructor
    · rintro ⟨t, ht, hm, rfl⟩
      refine ⟨rotate (rotate t), ?_, ?_, rfl⟩
      · exact mem_table_O.mp (mem_table_next (c := .S).mpr (mem_table_next (c := .P).mpr ht))
      · simpa [matchesRow, rowMatches, rotate, leadOf, midOf, and_comm] using hm
    · rintro ⟨t, ht, hm, rfl⟩
      refine ⟨rotate t, mem_table_next (c := .O).mpr (mem_table_O.mpr ht), ?_, rfl⟩
      simpa [matchesRow, rowMatches, rotate, leadOf, midOf, and_comm] using hm
  · have ho : o = none := hown
    subst ho
    constructor
    · rintro ⟨t, ht, hm, rfl⟩
      refine ⟨t, mem_table_O.mp ht, ?_, rfl⟩
      simpa [matchesRow, rowMatches, leadOf, midOf] using hm
    · rintro ⟨t, ht, hm, rfl⟩
      refine ⟨t, mem_table_O.mpr ht, ?_, rfl⟩
      simpa [matchesRow, rowMatches, leadOf, midOf] using hm

theorem KindShows.congr {r : CyclicRing} {kind : DenseScanKind} {S S' : Nat → Prop} (hkind : KindShows r kind S)
    (hS : ∀ v, S v ↔ S' v) : KindShows r kind S' := by
  have heq : S = S' := funext fun v => propext (hS v)
  rwa [← heq]

theorem column_lt (hshared : Shared triples univ) {v : Nat}
    (hv : v ∈ column triples c lead mid) : v < univ := by
  obtain ⟨t, ht, -, rfl⟩ := mem_column.mp hv
  exact (shared_table hshared c t ht).2.2

section LastColumn

variable {c : Col} {lead mid : Option Nat} {range : RowRange}
  (hrange : RowsAre range (table triples c) fun t => rowMatches lead mid t = true)

include hrange

theorem segment_eq_column : (buildShared triples univ).segment c range = column triples c lead mid := by
  rw [segment_eq hrange, column]
  simp

theorem len_eq_length : range.len = (column triples c lead mid).length := by
  have hlen : min (range.stop - range.start) ((table triples c).length - range.start) =
      ((table triples c).filter (rowMatches lead mid)).length := by
    have hseg := congrArg List.length (segment_eq_filter hrange)
    simpa using hseg
  have hstop : range.stop ≤ range.start ∨ range.stop ≤ (table triples c).length := by
    by_cases hempty : range.stop ≤ range.start
    · exact .inl hempty
    · obtain ⟨t, ht, -⟩ := (hrange (range.stop - 1)).mp ⟨by omega, by omega⟩
      have hlt := (List.getElem?_eq_some_iff.mp ht).1
      omega
  simp only [column, length_map, RowRange.len]
  omega

theorem column_eq_nil_iff : column triples c lead mid = [] ↔ range.isEmpty = true := by
  rw [← length_eq_zero_iff, ← len_eq_length hrange]
  simp only [RowRange.len, RowRange.isEmpty, decide_eq_true_eq]
  omega

theorem kindShows_column (hshared : Shared triples univ) (hne : range.isEmpty = false) :
    KindShows (buildShared triples univ) (.lastCol c range) (· ∈ column triples c lead mid) := by
  apply kindShows_lastCol _ _ hne
  · intro w
    rw [segment_eq_column hrange]
  · intro w hw
    exact column_lt hshared hw

end LastColumn

theorem RowsAre.congr {rows : List Row} {Q : Row → Prop} (h : RowsAre range rows P)
    (hPQ : ∀ t, P t ↔ Q t) : RowsAre range rows Q := by
  have heq : P = Q := funext fun t => propext (hPQ t)
  rwa [← heq]

/-! ## What is picked -/

/-- The scan picked for the rows of a table with the given first and second components. -/
structure Picked (triples : List Row) (univ : Nat) (c : Col) (lead mid : Option Nat) (kind : DenseScanKind) :
    Prop where
  /-- It lists their last components. -/
  shows : KindShows (buildShared triples univ) kind (· ∈ column triples c lead mid)
  /-- It runs over the last column only if the given components are a prefix. -/
  lastCol : ∀ col range, kind = .lastCol col range →
    (buildShared triples univ).segment col range = column triples c lead mid ∧
      range.len = (column triples c lead mid).length ∧ (lead = none → mid = none)
  /-- And then it does, unless there is at most one row. -/
  isLast : (lead = none → mid = none) → 1 < (column triples c lead mid).length →
    ∃ col range, kind = .lastCol col range

section Picks

variable {c : Col} {lead mid : Option Nat}

theorem picked_empty (hnil : column triples c lead mid = []) : Picked triples univ c lead mid .empty where
  shows := kindShows_empty (by simp [hnil])
  lastCol := by
    intro col range heq
    exact absurd heq (by simp)
  isLast := by
    intro _ hlen
    rw [hnil] at hlen
    exact absurd hlen (by decide)

section

variable (hshared : Shared triples univ) (hfront : lead = none → mid = none)
    (hrange : RowsAre range (table triples c) fun t => rowMatches lead mid t = true)
include hshared hfront hrange

theorem picked_lastCol
    (hne : range.isEmpty = false) : Picked triples univ c lead mid (.lastCol c range) where
  shows := kindShows_column hrange hshared hne
  lastCol := by
    intro col range' heq
    obtain ⟨rfl, rfl⟩ := DenseScanKind.lastCol.inj heq
    exact ⟨segment_eq_column hrange, len_eq_length hrange, hfront⟩
  isLast := fun _ _ => ⟨c, range, rfl⟩

theorem picked_unlessEmpty :
    ∃ kind, CyclicRing.unlessEmpty (some range) (fun range => .lastCol c range) = some kind ∧
      Picked triples univ c lead mid kind := by
  refine ⟨_, rfl, ?_⟩
  by_cases hempty : range.isEmpty = true
  · rw [if_pos hempty]
    exact picked_empty ((column_eq_nil_iff hrange).mpr hempty)
  · rw [if_neg hempty]
    exact picked_lastCol hshared hfront hrange (by simpa using hempty)

end

end Picks

namespace Built

variable (h : Built triples univ)
include h

theorem picked_full (c : Col) (hne : triples ≠ []) :
    Picked triples univ c none none (.lastCol c (.full (buildShared triples univ).n)) := by
  rw [h.n_eq]
  apply picked_lastCol h.shared fun _ => rfl
  · exact (rowsAre_full triples c).congr fun t => by simp [rowMatches]
  · have hpos := length_pos_iff.mpr hne
    exact decide_eq_false (Nat.not_le_of_lt hpos)

theorem picked_lead (c : Col) (hx : x < univ) :
    ∃ kind, CyclicRing.unlessEmpty ((buildShared triples univ).leadRange c x)
      (fun range => .lastCol c.next range) =
      some kind ∧ Picked triples univ c.next (some x) none kind := by
  obtain ⟨range, hlead, hrange, -⟩ := h.leadRange_spec (c := c) hx
  rw [hlead]
  apply picked_unlessEmpty h.shared (by simp)
  exact hrange.congr fun t => by simp [rowMatches]

theorem under_spec (c : Col) (hx : x < univ) (hy : y < univ) :
    ∃ range, CyclicRing.rangeUnder ((buildShared triples univ).leadRange c x)
        ((buildShared triples univ).middle c.next) y = some range ∧
      RowsAre range (table triples c.next) (fun t => rowMatches (some x) (some y) t = true) ∧
      range.start ≤ range.stop := by
  obtain ⟨range, hlead, hrange, hle⟩ := h.leadRange_spec (c := c) hx
  have huniv := h.univ_lt
  obtain ⟨range', hunder, hrange', hle'⟩ := h.rowsAre_rangeUnder hrange hle (y := y) (by omega)
  rw [hlead]
  exact ⟨range', hunder, hrange'.congr fun t => by simp [rowMatches], hle'⟩

theorem picked_under (c : Col) (hx : x < univ) (hy : y < univ) :
    ∃ kind, CyclicRing.unlessEmpty (CyclicRing.rangeUnder ((buildShared triples univ).leadRange c x)
        ((buildShared triples univ).middle c.next) y) (fun range => .lastCol c.next range) = some kind ∧
      Picked triples univ c.next (some x) (some y) kind := by
  obtain ⟨range, hunder, hrange, -⟩ := h.under_spec c hx hy
  rw [hunder]
  exact picked_unlessEmpty h.shared (by simp) hrange

/-- A single row is not scanned but read. -/
theorem picked_under_or_one (c : Col) (hx : x < univ) (hy : y < univ) : ∃ kind, (do
        let range ← CyclicRing.rangeUnder ((buildShared triples univ).leadRange c x)
          ((buildShared triples univ).middle c.next) y
        if range.isEmpty then some .empty
        else if range.len = 1 then do
          let v ← (buildShared triples univ).access c.next range.start
          some (.singleton v) else some (.lastCol c.next range)) = some kind ∧
      Picked triples univ c.next (some x) (some y) kind := by
  obtain ⟨range, hunder, hrange, hle⟩ := h.under_spec c hx hy
  have hlen := len_eq_length hrange
  rw [hunder]
  simp only [Option.bind_eq_bind, Option.bind_some]
  by_cases hempty : range.isEmpty = true
  · rw [if_pos hempty]
    exact ⟨_, rfl, picked_empty ((column_eq_nil_iff hrange).mpr hempty)⟩
  · rw [if_neg hempty]
    by_cases hone : range.len = 1
    · rw [if_pos hone]
      have hmem : range.Mem range.start := by
        unfold RowRange.len at hone
        exact ⟨Nat.le_refl _, by omega⟩
      obtain ⟨t, ht, hm⟩ := (hrange range.start).mp hmem
      rw [access_row ht, Option.bind_some]
      refine ⟨_, rfl, ?_, ?_, ?_⟩
      · -- the column has one element, the one that was read
        apply kindShows_singleton
        obtain ⟨v, hv⟩ := length_eq_one_iff.mp (hlen.symm.trans hone)
        have hin : t.2.2 ∈ column triples c.next (some x) (some y) :=
          mem_column.mpr ⟨t, mem_of_getElem? ht, hm, rfl⟩
        intro w
        rw [hv, mem_singleton] at hin
        rw [hv, mem_singleton, hin]
      · intro col range' heq
        exact absurd heq (by simp)
      · intro _ hlt
        omega
    · rw [if_neg hone]
      exact ⟨_, rfl, picked_lastCol h.shared (by simp) hrange (by simpa using hempty)⟩

theorem picked_middle (c : Col) (hy : y < univ) {mid : MiddleKind}
    (hmid : (buildShared triples univ).middleOf mid = (buildShared triples univ).middle c.next.next) :
    ∃ kind, CyclicRing.unlessEmpty ((buildShared triples univ).leadRange c.next y)
        (fun range => .middleRuns range mid) = some kind ∧ Picked triples univ c none (some y) kind := by
  obtain ⟨range, hlead, hrange, -⟩ := h.leadRange_spec (c := c.next) hy
  -- the middle components there are the last components here
  have hmem : ∀ v, (∃ t ∈ table triples c.next.next, t.1 = y ∧ t.2.1 = v) ↔
      v ∈ column triples c none (some y) := by
    intro v
    rw [mem_column]
    have hcycle : c.next.next.next = c := by rcases c with _ | _ | _ <;> rfl
    constructor
    · rintro ⟨t, ht, hty, htv⟩
      refine ⟨rotate t, ?_, by simp [rowMatches, rotate, hty], htv⟩
      rw [← hcycle]
      exact mem_table_next.mpr ht
    · rintro ⟨t, ht, hm, htv⟩
      refine ⟨rotate (rotate t), mem_table_next.mpr (mem_table_next.mpr ht), ?_, htv⟩
      simpa [rowMatches, rotate] using hm
  rw [hlead]
  refine ⟨_, rfl, ?_⟩
  by_cases hempty : range.isEmpty = true
  · rw [if_pos hempty]
    apply picked_empty
    rw [eq_nil_iff_forall_not_mem]
    intro v hv
    obtain ⟨t, ht, hty, -⟩ := (hmem v).mpr hv
    obtain ⟨i, hi⟩ := mem_iff_getElem?.mp ht
    have hin := (hrange i).mpr ⟨t, hi, hty⟩
    have hle : range.stop ≤ range.start := of_decide_eq_true hempty
    have h₁ := hin.1
    have h₂ := hin.2
    omega
  · rw [if_neg hempty]
    refine ⟨(h.kindShows_middleRuns hrange hmid (by simpa using hempty)).congr hmem, ?_, ?_⟩
    · intro col range' heq
      exact absurd heq (by simp)
    · intro hfront
      exact absurd (hfront rfl) (by simp)

theorem column_eq_nil_of_outside
    (hout : (buildShared triples univ).inAlphabet lead = false ∨
      (buildShared triples univ).inAlphabet mid = false) :
    column triples c lead mid = [] := by
  rw [eq_nil_iff_forall_not_mem]
  intro v hv
  obtain ⟨t, ht, hm, -⟩ := mem_column.mp hv
  obtain ⟨hlt₁, hlt₂, -⟩ := shared_table h.shared c t ht
  simp only [rowMatches, Bool.and_eq_true] at hm
  rcases hout with hout | hout
  · rcases lead with _ | x
    · exact absurd hout (by simp [CyclicRing.inAlphabet])
    · have hx : t.1 = x := by simpa using hm.1
      have hge : ¬ x < univ := of_decide_eq_false hout
      omega
  · rcases mid with _ | x
    · exact absurd hout (by simp [CyclicRing.inAlphabet])
    · have hx : t.2.1 = x := by simpa using hm.2
      have hge : ¬ x < univ := of_decide_eq_false hout
      omega

/-- The kind of scan that is picked shows the rows with the bound fields. -/
theorem picked_denseScanKind {s p o : Option Nat} {target : Nat} (htarget : target < 3)
    (hown : ownOf s p o target = none) :
    ∃ kind, (buildShared triples univ).denseScanKind s p o target = some kind ∧
      Picked triples univ (targetCol target) (leadOf s p o target) (midOf s p o target) kind := by
  unfold CyclicRing.denseScanKind
  by_cases hn : (buildShared triples univ).n = 0
  · rw [if_pos hn]
    refine ⟨_, rfl, picked_empty ?_⟩
    have hnil : triples = [] := length_eq_zero_iff.mp (h.n_eq.symm.trans hn)
    subst hnil
    rcases target with _ | _ | target <;> rfl
  · rw [if_neg hn]
    have hne : triples ≠ [] := by
      intro hnil
      rw [h.n_eq, hnil] at hn
      exact hn rfl
    by_cases hout : (!(buildShared triples univ).inAlphabet s || !(buildShared triples univ).inAlphabet p ||
        !(buildShared triples univ).inAlphabet o) = true
    · rw [if_pos hout]
      refine ⟨_, rfl, picked_empty (h.column_eq_nil_of_outside ?_)⟩
      have hfree : (buildShared triples univ).inAlphabet none = true := rfl
      rcases target with _ | _ | target
      · have hs : s = none := hown
        subst hs
        rw [hfree] at hout
        simpa [leadOf, midOf] using hout
      · have hp : p = none := hown
        subst hp
        rw [hfree] at hout
        simpa [leadOf, midOf, or_comm] using hout
      · have ho : o = none := hown
        subst ho
        rw [hfree] at hout
        simpa [leadOf, midOf] using hout
    · rw [if_neg hout]
      simp only [Bool.or_eq_true, Bool.not_eq_true', not_or, Bool.not_eq_false] at hout
      obtain ⟨⟨hs, hp⟩, ho⟩ := hout
      have hbound : ∀ x, (buildShared triples univ).inAlphabet (some x) = true → x < univ :=
        fun x hx => of_decide_eq_true hx
      -- the target, then which of the two other positions are constants
      have hcases : target = 0 ∨ target = 1 ∨ target = 2 := by omega
      rcases hcases with rfl | rfl | rfl
      · have hs' : s = none := hown
        subst hs'
        rcases p with _ | pv <;> rcases o with _ | ov
        · exact ⟨_, rfl, h.picked_full .S hne⟩
        · exact h.picked_middle .S (hbound ov ho) rfl
        · exact h.picked_lead .P (hbound pv hp)
        · exact h.picked_under .P (hbound pv hp) (hbound ov ho)
      · have hp' : p = none := hown
        subst hp'
        rcases s with _ | sv <;> rcases o with _ | ov
        · exact ⟨_, rfl, h.picked_full .P hne⟩
        · exact h.picked_lead .O (hbound ov ho)
        · exact h.picked_middle .P (hbound sv hs) rfl
        · exact h.picked_under .O (hbound ov ho) (hbound sv hs)
      · have ho' : o = none := hown
        subst ho'
        rcases s with _ | sv <;> rcases p with _ | pv
        · exact ⟨_, rfl, h.picked_full .O hne⟩
        · exact h.picked_middle .O (hbound pv hp) rfl
        · exact h.picked_lead .S (hbound sv hs)
        · exact h.picked_under_or_one .S (hbound sv hs) (hbound pv hp)

end Built

end Nova.Ring
