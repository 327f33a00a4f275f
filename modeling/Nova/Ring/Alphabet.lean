import Nova.Ring.Image
import Nova.Lib.Varint

/-!
# Compact alphabets

The predicate column may be stored over its own symbols: `HuffColP` numbers the symbols
of the column in their order, keeps a wavelet tree of the numbers and translates at its
boundary. `IdRemap` does the same for the ids of a graph and is kept in a file beside the
image. A wavelet tree is the list it was built from, and a position beyond it has no rank.

* `answers_eq` — a column stored so answers as the plain one
* `reads_remap` — what was written to the file is read back
* `alphabets_faithful` — when both translations are faithful
-/

namespace Nova.Ring

open Nova.Lib Nova.Lib.LastFirst List

/-! ## Columns -/

/-- `rank` of a wavelet tree, `none` beyond the column. -/
def wtRank (wt : List Nat) (symbol pos : Nat) : Option Nat :=
  if pos ≤ wt.length then some (rank wt symbol pos) else none

/-- What a predicate column answers. -/
structure PredicateColumn where
  access : Nat → Option Nat
  rank : Nat → Nat → Nat
  select : Nat → Nat → Option Nat
  rangeDistinct : Nat → Nat → List (Nat × Nat)
  rangeNextValue : Nat → Nat → Nat → Option Nat

/-- The rows of a range. -/
def rowsOf (col : List Nat) (start stop : Nat) : List Nat := (col.drop start).take (stop - start)

def plainRangeDistinct (col : List Nat) (start stop : Nat) : List (Nat × Nat) :=
  if stop ≤ start ∨ col.length < stop then []
  else (Sorted.ofList (rowsOf col start stop)).map fun v => (v, u32 ((rowsOf col start stop).count v))

def plainRangeNextValue (col : List Nat) (start stop target : Nat) : Option Nat :=
  if stop ≤ start ∨ col.length < stop then none
  else ((rowsOf col start stop).filter fun v => target ≤ v).min?

/-- The plain column. -/
def plainColumn (col : List Nat) : PredicateColumn where
  access pos := col[pos]?
  rank symbol pos := u32 ((wtRank col symbol pos).getD 0)
  select symbol occurrence := (select symbol col occurrence).map u32
  rangeDistinct := plainRangeDistinct col
  rangeNextValue := plainRangeNextValue col

structure HuffColP where
  wt : List Nat
  /-- The symbols, ascending. -/
  localToShared : List Nat
  pBase : Nat
  np : Nat
  deriving Repr, DecidableEq

namespace HuffColP

/-- For symbols of the contiguous range from `pBase` on. -/
def buildFromShared (col : List Nat) (pBase np : Nat) : HuffColP :=
  { wt := col.map fun v => subU32 v pBase
    localToShared := (List.range np).map fun i => addU32 pBase i
    pBase, np }

/-- Sorts the symbols of the column; each of them is then found. -/
def buildFromColumn (col : List Nat) : HuffColP :=
  let uniq := Sorted.ofList col
  { wt := col.map fun v => u32 (uniq.idxOf v)
    localToShared := uniq
    pBase := uniq.headD 0
    np := u32 uniq.length }

variable (h : HuffColP)

def sharedToLocal (symbol : Nat) : Option Nat := (h.localToShared.idxOf? symbol).map u32

def access (pos : Nat) : Option Nat := do
  let code ← h.wt[pos]?
  h.localToShared[code]?

def rank (symbol pos : Nat) : Nat :=
  match h.sharedToLocal symbol with
  | none => 0
  | some code => u32 ((wtRank h.wt code pos).getD 0)

def select (symbol occurrence : Nat) : Option Nat := do
  let code ← h.sharedToLocal symbol
  (LastFirst.select code h.wt occurrence).map u32

/-- How often a number occurs in a range, by its rank at both ends. -/
def occurrences (code start stop : Nat) : Nat :=
  (wtRank h.wt code stop).getD 0 - (wtRank h.wt code start).getD 0

def rangeDistinctScan (start stop : Nat) : List (Nat × Nat) :=
  if stop ≤ start then []
  else (List.range h.np).filterMap fun code =>
    if 0 < h.occurrences code start stop then
      h.localToShared[code]?.map fun v => (v, u32 (h.occurrences code start stop))
    else none

def rangeNextValueScan (start stop target : Nat) : Option Nat := do
  if stop ≤ start ∨ h.np = 0 then none
  else
    let first := u32 (CyclicRing.partitionPoint h.localToShared fun s => s < target)
    let code ← (List.range' first (h.np - first)).find? fun code => 0 < h.occurrences code start stop
    h.localToShared[code]?

def answers : PredicateColumn where
  access := h.access
  rank := h.rank
  select := h.select
  rangeDistinct := h.rangeDistinctScan
  rangeNextValue := h.rangeNextValueScan

/-- The numbers stand for the symbols of the column. -/
structure Encodes (h : HuffColP) (col : List Nat) : Prop where
  sorted : h.localToShared.Pairwise (· < ·)
  fits : h.localToShared.length < 2 ^ 32
  np : h.np = h.localToShared.length
  codes : h.wt.map (fun code => h.localToShared[code]?) = col.map some

end HuffColP

/-! ## Numbers and symbols -/

variable {v code : Nat}

section Codes

variable {shared wt col : List Nat} (hsorted : shared.Pairwise (· < ·))
  (hcodes : wt.map (fun code => shared[code]?) = col.map some)

include hsorted in
theorem getElem?_inj_of_sorted {i j : Nat} (hi : shared[i]? = some v) (hj : shared[j]? = some v) : i = j := by
  obtain ⟨hlt, hv⟩ := List.getElem?_eq_some_iff.mp hi
  obtain ⟨hlt', hv'⟩ := List.getElem?_eq_some_iff.mp hj
  have hnodup : shared.Nodup := hsorted.imp Nat.ne_of_lt
  exact (List.Nodup.getElem_inj_iff hnodup).mp (hv.trans hv'.symm)

include hsorted in
theorem codes_eq_iff {d w : Nat} (hw : shared[d]? = some w) (hv : shared[code]? = some v) :
    d = code ↔ w = v := by
  constructor
  · rintro rfl
    exact Option.some.inj (hw.symm.trans hv)
  · rintro rfl
    exact getElem?_inj_of_sorted hsorted hw hv

include hsorted in
theorem countP_le_iff (hv : shared[code]? = some v) (target : Nat) :
    shared.countP (fun e => decide (e < target)) ≤ code ↔ target ≤ v := by
  have hiff := lt_countP_iff (p := fun e => decide (e < target))
    (fun y z hyz hz => decide_eq_true (Nat.lt_trans hyz (of_decide_eq_true hz))) hsorted hv
  rw [← Nat.not_lt, hiff, decide_eq_true_iff, Nat.not_lt]

include hsorted hcodes

theorem count_codes (hv : shared[code]? = some v) : wt.count code = col.count v := by
  induction wt generalizing col with
  | nil => rw [map_eq_nil_iff.mp hcodes.symm]; rfl
  | cons d wt ih =>
    obtain ⟨w, col, rfl, hw, hrest⟩ := map_eq_cons_iff.mp hcodes.symm
    simp only [count_cons, ih hrest.symm, beq_iff_eq, codes_eq_iff hsorted hw.symm hv]

theorem select_codes (hv : shared[code]? = some v) (k : Nat) :
    LastFirst.select code wt k = LastFirst.select v col k := by
  induction wt generalizing col k with
  | nil => rw [map_eq_nil_iff.mp hcodes.symm]; rfl
  | cons d wt ih =>
    obtain ⟨w, col, rfl, hw, hrest⟩ := map_eq_cons_iff.mp hcodes.symm
    unfold LastFirst.select
    simp only [codes_eq_iff hsorted hw.symm hv, ih hrest.symm]

theorem wtRank_codes (hv : shared[code]? = some v) (pos : Nat) : wtRank wt code pos = wtRank col v pos := by
  have hlen : wt.length = col.length := by simpa using congrArg List.length hcodes
  unfold wtRank
  rw [hlen]
  by_cases hpos : pos ≤ col.length
  · rw [if_pos hpos, if_pos hpos]
    have htake : (wt.take pos).map (fun code => shared[code]?) = (col.take pos).map some := by
      rw [map_take, hcodes, map_take]
    exact congrArg some (count_codes hsorted htake hv)
  · rw [if_neg hpos, if_neg hpos]

end Codes

theorem count_rowsOf {col : List Nat} {start stop : Nat} (hle : start ≤ stop)
    (hstop : stop ≤ col.length) (v : Nat) :
    (wtRank col v stop).getD 0 - (wtRank col v start).getD 0 = (rowsOf col start stop).count v := by
  have hsplit : col.take stop = col.take start ++ rowsOf col start stop := by
    rw [rowsOf, ← take_add, Nat.add_sub_cancel' hle]
  rw [wtRank, if_pos hstop, wtRank, if_pos (Nat.le_trans hle hstop)]
  simp only [Option.getD_some, LastFirst.rank, hsplit, count_append]
  omega

theorem select_of_not_mem {col : List Nat} {k : Nat} (hv : v ∉ col) : select v col k = none := by
  induction col generalizing k with
  | nil => rfl
  | cons w col ih =>
    rw [mem_cons, not_or] at hv
    unfold select
    rw [if_neg (Ne.symm hv.1), ih hv.2, Option.map_none]

theorem filterMap_range_getElem? {α β : Type} (g : α → Option β) (l : List α) :
    ((List.range l.length).filterMap fun i => l[i]?.bind g) = l.filterMap g := by
  induction l with
  | nil => rfl
  | cons a l ih =>
    rw [length_cons, range_succ_eq_map, filterMap_cons, filterMap_map, filterMap_cons]
    simp only [getElem?_cons_zero, Option.bind_some, ← ih]
    rfl

namespace HuffColP

variable {h : HuffColP} {col : List Nat}

section Encodes

variable (henc : h.Encodes col)
include henc

theorem sharedToLocal_eq_some {symbol : Nat} :
    h.sharedToLocal symbol = some code ↔ h.localToShared[code]? = some symbol := by
  have hfits := henc.fits
  unfold sharedToLocal
  constructor
  · intro hs
    obtain ⟨i, hi, rfl⟩ := Option.map_eq_some_iff.mp hs
    obtain ⟨hlt, hv, -⟩ := idxOf?_eq_some_iff.mp hi
    rw [u32_of_lt (by omega)]
    exact List.getElem?_eq_some_iff.mpr ⟨hlt, hv⟩
  · intro hs
    obtain ⟨i, hi⟩ := Option.isSome_iff_exists.mp (isSome_idxOf?.mpr (mem_of_getElem? hs))
    obtain ⟨hlt, hv, -⟩ := idxOf?_eq_some_iff.mp hi
    have heq := getElem?_inj_of_sorted henc.sorted (List.getElem?_eq_some_iff.mpr ⟨hlt, hv⟩) hs
    rw [hi, Option.map_some, u32_of_lt (by omega), heq]

theorem exists_code (hv : v ∈ col) : ∃ code : Nat, h.localToShared[code]? = some v := by
  have hmem : some v ∈ h.wt.map fun code => h.localToShared[code]? := henc.codes ▸ mem_map_of_mem hv
  rcases mem_map.mp hmem with ⟨code, _, hcode⟩
  exact ⟨code, hcode⟩

theorem access_eq (pos : Nat) : h.access pos = col[pos]? := by
  have hpos := congrArg (fun l => l[pos]?) henc.codes
  simp only [getElem?_map] at hpos
  unfold access
  rcases hwt : h.wt[pos]? with _ | code
  · rw [hwt] at hpos
    exact (Option.map_eq_none_iff.mp hpos.symm).symm
  · rw [hwt] at hpos
    obtain ⟨v, hv, hcode⟩ := Option.map_eq_some_iff.mp hpos.symm
    exact hcode.symm.trans hv.symm

theorem not_mem_of_sharedToLocal {symbol : Nat} (hs : h.sharedToLocal symbol = none) : symbol ∉ col := by
  intro hmem
  obtain ⟨code, hcode⟩ := exists_code henc hmem
  rw [(sharedToLocal_eq_some henc).mpr hcode] at hs
  exact absurd hs (by simp)

theorem rank_eq (symbol pos : Nat) : h.rank symbol pos = u32 ((wtRank col symbol pos).getD 0) := by
  unfold rank
  rcases hs : h.sharedToLocal symbol with _ | code
  · have hcount : LastFirst.rank col symbol pos = 0 :=
      count_eq_zero.mpr fun hmem => not_mem_of_sharedToLocal henc hs (mem_of_mem_take hmem)
    unfold wtRank
    by_cases hpos : pos ≤ col.length <;> simp [hpos, hcount, u32]
  · show u32 ((wtRank h.wt code pos).getD 0) = _
    rw [wtRank_codes henc.sorted henc.codes ((sharedToLocal_eq_some henc).mp hs)]

theorem select_eq (symbol k : Nat) : h.select symbol k = (LastFirst.select symbol col k).map u32 := by
  unfold select
  rcases hs : h.sharedToLocal symbol with _ | code
  · rw [select_of_not_mem (not_mem_of_sharedToLocal henc hs)]
    rfl
  · rw [← select_codes henc.sorted henc.codes ((sharedToLocal_eq_some henc).mp hs)]
    rfl

theorem occurrences_eq {start stop : Nat} (hv : h.localToShared[code]? = some v) (hlt : start < stop) :
    h.occurrences code start stop = if col.length < stop then 0 else (rowsOf col start stop).count v := by
  unfold occurrences
  rw [wtRank_codes henc.sorted henc.codes hv, wtRank_codes henc.sorted henc.codes hv]
  by_cases hout : col.length < stop
  · rw [if_pos hout, wtRank, if_neg (Nat.not_le.mpr hout), Option.getD_none, Nat.zero_sub]
  · rw [if_neg hout]
    exact count_rowsOf (Nat.le_of_lt hlt) (Nat.le_of_not_lt hout) v

theorem rangeDistinctScan_eq (start stop : Nat) :
    h.rangeDistinctScan start stop = plainRangeDistinct col start stop := by
  unfold rangeDistinctScan plainRangeDistinct
  by_cases hempty : stop ≤ start
  · rw [if_pos hempty, if_pos (.inl hempty)]
  have hlt : start < stop := by omega
  -- the symbols of the table, those that occur with their counts
  have hscan : (List.range h.np).filterMap (fun code => if 0 < h.occurrences code start stop then
        h.localToShared[code]?.map fun v => (v, u32 (h.occurrences code start stop)) else none) =
      h.localToShared.filterMap fun v => if col.length < stop then none
        else if 0 < (rowsOf col start stop).count v then some (v,
          u32 ((rowsOf col start stop).count v)) else none := by
    rw [henc.np, ← filterMap_range_getElem? _ h.localToShared]
    apply filterMap_congr
    intro code hcode
    obtain ⟨v, hv⟩ : ∃ v, h.localToShared[code]? = some v := ⟨_, getElem?_eq_getElem (mem_range.mp hcode)⟩
    rw [hv, occurrences_eq henc hv hlt]
    by_cases hout : col.length < stop <;> simp [hout]
  rw [if_neg hempty, hscan]
  by_cases hout : col.length < stop
  · rw [if_pos (.inr hout)]
    simp [hout]
  · rw [if_neg (by omega)]
    have hsame : Sorted.ofList (rowsOf col start stop) =
        h.localToShared.filter fun v => 0 < (rowsOf col start stop).count v := by
      apply (Sorted.pairwise_ofList _).eq_of_mem_iff (henc.sorted.filter _)
      intro v
      rw [Sorted.mem_ofList, mem_filter, decide_eq_true_iff, count_pos_iff]
      constructor
      · intro hmem
        obtain ⟨code, hcode⟩ := exists_code henc (mem_of_mem_drop (mem_of_mem_take hmem))
        exact ⟨mem_of_getElem? hcode, hmem⟩
      · exact fun hmem => hmem.2
    rw [hsame, ← filterMap_eq_map, filterMap_filter]
    simp [hout]

/-- The scan of the encoded column gives what the plain one gives. -/
theorem rangeNextValueScan_eq (start stop target : Nat) :
    h.rangeNextValueScan start stop target = plainRangeNextValue col start stop target := by
  have hfits := henc.fits
  unfold rangeNextValueScan plainRangeNextValue
  by_cases hempty : stop ≤ start
  · rw [if_pos (.inl hempty), if_pos (.inl hempty)]
  have hlt : start < stop := by omega
  by_cases hnp : h.np = 0
  · -- without symbols the column is empty
    have hcol : col = [] := by
      apply eq_nil_iff_forall_not_mem.mpr
      intro v hv
      obtain ⟨code, hcode⟩ := exists_code henc hv
      have hcodelt := (List.getElem?_eq_some_iff.mp hcode).1
      rw [henc.np] at hnp
      omega
    rw [if_pos (.inr hnp), if_pos (.inr (by rw [hcol, length_nil]; omega))]
  rw [if_neg (by omega), partitionPoint_eq_countP henc.sorted]
  have hcount : h.localToShared.countP (fun e => decide (e < target)) ≤ h.localToShared.length := countP_le_length
  rw [u32_of_lt (by omega)]
  dsimp only
  rcases hfind : (List.range' (h.localToShared.countP fun e => decide (e < target))
      (h.np - h.localToShared.countP fun e => decide (e < target))).find?
        (fun code => 0 < h.occurrences code start stop) with _ | code
  · have hnone : ∀ code v, h.localToShared[code]? = some v → target ≤ v → ¬ 0 < h.occurrences code start stop := by
      intro code v hv hle hpos
      have hcodelt := (List.getElem?_eq_some_iff.mp hv).1
      have hge := (countP_le_iff henc.sorted hv target).mpr hle
      rw [List.find?_eq_none] at hfind
      exact hfind code (mem_range'_1.mpr ⟨hge, by rw [henc.np]; omega⟩) (decide_eq_true hpos)
    simp only [Option.bind_eq_bind, Option.bind_none]
    by_cases hout : col.length < stop
    · rw [if_pos (.inr hout)]
    · rw [if_neg (by omega)]
      refine (min?_eq_none_iff.mpr (filter_eq_nil_iff.mpr ?_)).symm
      intro v hv hle
      obtain ⟨code, hcode⟩ := exists_code henc (mem_of_mem_drop (mem_of_mem_take hv))
      apply hnone code v hcode (of_decide_eq_true hle)
      rw [occurrences_eq henc hcode hlt, if_neg hout]
      exact count_pos_iff.mpr hv
  · obtain ⟨hpos, hmem, hleast⟩ := find?_range'_eq_some.mp hfind
    obtain ⟨hge, hcodelt⟩ := mem_range'_1.mp hmem
    obtain ⟨v, hv⟩ : ∃ v, h.localToShared[code]? = some v :=
      ⟨_, getElem?_eq_getElem (by rw [henc.np] at hcodelt; omega)⟩
    have hocc := of_decide_eq_true hpos
    rw [occurrences_eq henc hv hlt] at hocc
    have hin : ¬ col.length < stop := by
      intro hout
      rw [if_pos hout] at hocc
      omega
    rw [if_neg hin] at hocc
    rw [if_neg (by omega)]
    simp only [Option.bind_eq_bind, Option.bind_some, hv]
    refine (min?_eq_some_iff.mpr ⟨?_, ?_⟩).symm
    · exact mem_filter.mpr ⟨count_pos_iff.mp hocc, decide_eq_true ((countP_le_iff henc.sorted hv target).mp hge)⟩
    · intro w hw
      obtain ⟨hseg, hle⟩ := mem_filter.mp hw
      obtain ⟨d, hd⟩ := exists_code henc (mem_of_mem_drop (mem_of_mem_take hseg))
      -- a smaller symbol would have been found before
      by_contra hgt
      have hdlt : d < code := by
        have hcode := countP_lt (fun _ _ hab hba => Nat.lt_asymm hab hba) henc.sorted hv
        have hiff := countP_le_iff henc.sorted hd v
        rw [hcode] at hiff
        omega
      have hmiss := hleast d ((countP_le_iff henc.sorted hd target).mpr (of_decide_eq_true hle)) hdlt
      rw [occurrences_eq henc hd hlt, if_neg hin, decide_eq_true (count_pos_iff.mpr hseg)] at hmiss
      exact absurd hmiss (by decide)

/-- A column kept over its own symbols answers as the plain one. -/
theorem answers_eq : h.answers = plainColumn col := by
  unfold answers plainColumn
  congr 1
  · exact funext (access_eq henc)
  · exact funext₂ (rank_eq henc)
  · exact funext₂ (select_eq henc)
  · exact funext₂ (rangeDistinctScan_eq henc)
  · exact funext₃ (rangeNextValueScan_eq henc)

end Encodes

theorem encodes_buildFromShared {pBase np : Nat} (hnp : np < 2 ^ 32) (hbase : pBase + np ≤ 2 ^ 32)
    (hcol : ∀ v ∈ col, pBase ≤ v ∧ v < pBase + np) : (buildFromShared col pBase np).Encodes col := by
  have hshared : (List.range np).map (fun i => addU32 pBase i) = List.range' pBase np := by
    rw [range'_eq_map_range]
    apply map_congr_left
    intro i hi
    rw [mem_range] at hi
    exact u32_of_lt (by omega)
  refine ⟨?_, ?_, ?_, ?_⟩ <;> simp only [buildFromShared, hshared, length_range']
  · exact pairwise_lt_range'
  · exact hnp
  · rw [map_map]
    apply map_congr_left
    intro v hv
    obtain ⟨hle, hlt⟩ := hcol v hv
    have hsub : subU32 v pBase = v - pBase := by
      unfold subU32 u32
      omega
    simp only [Function.comp_apply, hsub]
    rw [getElem?_range' (by omega)]
    congr 1
    omega

theorem encodes_buildFromColumn (hfits : (Sorted.ofList col).length < 2 ^ 32) :
    (buildFromColumn col).Encodes col := by
  refine ⟨Sorted.pairwise_ofList col, hfits, u32_of_lt hfits, ?_⟩
  simp only [buildFromColumn, map_map]
  apply map_congr_left
  intro v hv
  have hlt : (Sorted.ofList col).idxOf v < (Sorted.ofList col).length :=
    idxOf_lt_length_iff.mpr (Sorted.mem_ofList.mpr hv)
  simp only [Function.comp_apply, u32_of_lt (Nat.lt_trans hlt hfits)]
  rw [getElem?_eq_getElem hlt, getElem_idxOf]

/-- The column of all `2 ^ 32` symbols wraps the size of its alphabet to zero. -/
theorem buildFromColumn_answers_iff (hcol : ∀ v ∈ col, v < 2 ^ 32) :
    (buildFromColumn col).answers = plainColumn col ↔ (Sorted.ofList col).length < 2 ^ 32 := by
  constructor
  · intro heq
    by_contra hge
    have hle : (Sorted.ofList col).length ≤ (List.range (2 ^ 32)).length := by
      apply List.Subperm.length_le
      apply subperm_of_subset ((Sorted.pairwise_ofList col).imp Nat.ne_of_lt)
      intro v hv
      exact mem_range.mpr (hcol v (Sorted.mem_ofList.mp hv))
    rw [length_range] at hle
    have hlen : (Sorted.ofList col).length = 2 ^ 32 := by omega
    -- the first row has a symbol, but no symbol is looked at
    have hnp : (buildFromColumn col).np = 0 := by
      show u32 (Sorted.ofList col).length = 0
      rw [hlen]
      rfl
    have hnone : (buildFromColumn col).rangeNextValueScan 0 1 0 = none := if_pos (.inr hnp)
    have hscan := congrFun₃ (congrArg PredicateColumn.rangeNextValue heq) 0 1 0
    rcases col with _ | ⟨v, col⟩
    · exact absurd hlen (by decide)
    · have hsome : plainRangeNextValue (v :: col) 0 1 0 = some v := by simp [plainRangeNextValue, rowsOf]
      exact absurd (hnone.symm.trans (hscan.trans hsome)) (by simp)
  · exact fun hfits => answers_eq (encodes_buildFromColumn hfits)

end HuffColP

/-! ## The file of a numbering -/

inductive RemapError where
  | badMagic (got : Bytes)
  | notAscending
  | unexpectedEof
  | panic (p : Panic)
  deriving DecidableEq

/-- `NOVARMP1`. -/
def remapMagic : Bytes := [0x4e, 0x4f, 0x56, 0x41, 0x52, 0x4d, 0x50, 0x31]

def readLe (width : Nat) : Reader RemapError Nat := do
  let bs ← readRun .unexpectedEof width
  pure (leNat bs)

namespace IdRemap

/-- What `write_to_path` leaves in the file. -/
def writeRemap (m : IdRemap) : Bytes :=
  remapMagic ++ (leBytes 4 (u32 m.externals.length) ++ m.externals.flatMap (leBytes 8))

/-- `load_from_path`. -/
def loadRemap : Reader RemapError IdRemap := do
  let magic ← readRun .unexpectedEof 8
  if magic ≠ remapMagic then Reader.fail (.badMagic magic)
  else
    let size ← readLe 4
    let externals ← Reader.many (readLe 8) size
    match externals.getLast? with
    | none => pure ⟨[], []⟩
    | some maxExt =>
      if externals.IsChain (· < ·) then
        match allocate maxExt with
        | .error p => Reader.fail (.panic p)
        | .ok slots => pure ⟨externals.zipIdx.foldl (fun v e => v.set e.1 (u32 e.2)) slots, externals⟩
      else Reader.fail .notAscending

end IdRemap

theorem reads_le {width n : Nat} (h : n < 256 ^ width) : Reader.Reads (readLe width) (leBytes width n) n := by
  have hrun := Reader.reads_bind_pure (g := leNat) (reads_run RemapError.unexpectedEof (leBytes width n))
  rw [length_leBytes, leNat_leBytes, Nat.mod_eq_of_lt h] at hrun
  exact hrun

variable {triples : List Row}

theorem allocate_ok {maxExt : Nat} (h : maxExt < 2 ^ 61 - 1) :
    IdRemap.allocate maxExt = .ok (List.replicate (maxExt + 1) denseMissing) := by
  rw [IdRemap.allocate, Nat.min_eq_left (by omega), if_pos (by omega)]

/-- The vector of the ids can be had just when all of them are below `2 ^ 61 - 1`. -/
theorem tryFromTriples_iff {m : IdRemap} : IdRemap.tryFromTriples triples = .ok m ↔
    m = IdRemap.fromTriples triples ∧ ∀ x ∈ symbolsOf triples, x < 2 ^ 61 - 1 := by
  unfold IdRemap.tryFromTriples IdRemap.fromTriples
  rcases hlast : (symbolsOf triples).getLast? with _ | maxExt
  · rw [List.getLast?_eq_none_iff.mp hlast]
    simp [eq_comm]
  have hmax := mem_of_getLast? hlast
  by_cases hlt : maxExt < 2 ^ 61 - 1
  · have hall : ∀ x ∈ symbolsOf triples, x < 2 ^ 61 - 1 := by
      intro x hx
      exact Nat.lt_of_le_of_lt (le_getLast_of_mem (symbolsOf_sorted triples) hlast hx) hlt
    simp only [allocate_ok hlt, ok_bind]
    constructor
    · intro h
      exact ⟨(Except.ok.inj h).symm, hall⟩
    · rintro ⟨rfl, -⟩
      rfl
  · have hover : IdRemap.allocate maxExt = .error (.expect "capacity overflow") := if_neg (by omega)
    simp only [hover]
    exact iff_of_false nofun fun h => hlt (h.2 _ hmax)

theorem reads_remap (hfits : (symbolsOf triples).length < 2 ^ 32)
    (hids : ∀ x ∈ symbolsOf triples, x < 2 ^ 61 - 1) :
    Reader.Reads IdRemap.loadRemap (IdRemap.fromTriples triples).writeRemap (IdRemap.fromTriples triples) := by
  unfold IdRemap.writeRemap IdRemap.loadRemap
  rw [externals_fromTriples]
  apply Reader.reads_bind (reads_run RemapError.unexpectedEof remapMagic)
  apply Reader.reads_bind (reads_le (n := u32 (symbolsOf triples).length) (Nat.mod_lt _ (by decide)))
  rw [u32_of_lt hfits, ← append_nil ((symbolsOf triples).flatMap (leBytes 8))]
  apply Reader.reads_bind (Reader.reads_many fun x hx => reads_le (Nat.lt_trans (hids x hx) (by decide)))
  unfold IdRemap.fromTriples
  rcases hlast : (symbolsOf triples).getLast? with _ | maxExt
  · exact Reader.reads_pure _
  · simp only [if_pos (symbolsOf_sorted triples).isChain, allocate_ok (hids _ (mem_of_getLast? hlast))]
    exact Reader.reads_pure _

/-- The map numbers the ids that occur, `0` to `k - 1` in their order, and survives its file. -/
structure Renumbers (m : IdRemap) (triples : List Row) (k : Nat) : Prop where
  occurs : ∀ x, (∃ d, m.toDense x = some d) ↔ ∃ t ∈ triples, x = t.1 ∨ x = t.2.1 ∨ x = t.2.2
  back : ∀ x d, m.toDense x = some d ↔ m.toExternal d = some x
  onto : ∀ d, (∃ x, m.toExternal d = some x) ↔ d < k
  mono : ∀ x y d e, m.toDense x = some d → m.toDense y = some e → (x < y ↔ d < e)
  ceil : ∀ target d, m.denseCeil target = some d ↔ IsLeast {c | ∃ x, m.toExternal c = some x ∧ target ≤ x} d
  reload : IdRemap.loadRemap m.writeRemap 0 = .ok (m, m.writeRemap.length)

/-- Within the bounds on the ids no slot is missing. -/
theorem renumbers_of_fits (hfits : (symbolsOf triples).length < 2 ^ 32)
    (hids : ∀ x ∈ symbolsOf triples, x < 2 ^ 61 - 1) :
    Renumbers (IdRemap.fromTriples triples) triples (symbolsOf triples).length where
  occurs x := by
    simp only [toDense_fromTriples hfits, ← mem_symbolsOf]
    exact mem_iff_getElem?.symm
  back x d := by
    rw [toDense_fromTriples hfits, IdRemap.toExternal, externals_fromTriples]
  onto d := by
    rw [IdRemap.toExternal, externals_fromTriples, ← Option.isSome_iff_exists]
    simp
  mono x y d e hx hy := by
    rw [toDense_fromTriples hfits] at hx hy
    rw [← number_eq hx, ← number_eq hy]
    exact (number_lt_iff (mem_of_getElem? hx) y).symm
  ceil target d := by
    -- the ids from the target on are those numbered from its number on
    have hset : ∀ c, (∃ x, (IdRemap.fromTriples triples).toExternal c = some x ∧ target ≤ x) ↔
        c < (symbolsOf triples).length ∧ number triples target ≤ c := by
      intro c
      rw [IdRemap.toExternal, externals_fromTriples]
      constructor
      · rintro ⟨x, hx, hle⟩
        have hle' := (number_le_iff (mem_of_getElem? hx) target).mpr hle
        rw [number_eq hx] at hle'
        exact ⟨(List.getElem?_eq_some_iff.mp hx).1, hle'⟩
      · rintro ⟨hlt, hle⟩
        have hx := getElem?_eq_getElem hlt
        rw [← number_eq hx] at hle
        exact ⟨_, hx, (number_le_iff (mem_of_getElem? hx) target).mp hle⟩
    rw [denseCeil_fromTriples hfits]
    simp only [IsLeast, lowerBounds, Set.mem_ofPred_eq, hset]
    constructor
    · intro hd
      by_cases hend : (symbolsOf triples).length ≤ number triples target
      · rw [if_pos hend] at hd
        exact absurd hd (by simp)
      · rw [if_neg hend, Option.some.injEq] at hd
        exact ⟨⟨by omega, Nat.le_of_eq hd⟩, fun c hc => hd ▸ hc.2⟩
    · rintro ⟨⟨hlt, hle⟩, hleast⟩
      have heq := Nat.le_antisymm hle (hleast ⟨by omega, Nat.le_refl _⟩)
      rw [if_neg (by omega), heq]
  reload := by
    have h := reads_remap hfits hids [] []
    simpa using h

/-- The id with number `2 ^ 32 - 1` would be taken for one without a number. -/
theorem fits_of_occurs (h : ∀ x ∈ symbolsOf triples, ∃ d, (IdRemap.fromTriples triples).toDense x = some d) :
    (symbolsOf triples).length < 2 ^ 32 := by
  by_contra hge
  have hx := getElem?_eq_getElem (l := symbolsOf triples) (i := 2 ^ 32 - 1) (by omega)
  obtain ⟨d, hd⟩ := h _ (mem_of_getElem? hx)
  unfold IdRemap.toDense at hd
  rw [toDenseVec_number (mem_of_getElem? hx), number_eq hx] at hd
  exact absurd hd (by simp [u32, denseMissing])

/-- Both translations are faithful exactly when their alphabets fit in 32 bits and the
vector of the ids can be allocated. -/
theorem alphabets_faithful (col : List Nat) (pBase np : Nat) (triples : List Row) :
    ((∀ v ∈ col, v < 2 ^ 32) →
      ((HuffColP.buildFromColumn col).answers = plainColumn col ↔ (Sorted.ofList col).length < 2 ^ 32)) ∧
    (np < 2 ^ 32 → pBase + np ≤ 2 ^ 32 → (∀ v ∈ col, pBase ≤ v ∧ v < pBase + np) →
      (HuffColP.buildFromShared col pBase np).answers = plainColumn col) ∧
    ((∃ m, IdRemap.tryFromTriples triples = .ok m ∧ Renumbers m triples (symbolsOf triples).length) ↔
      (symbolsOf triples).length < 2 ^ 32 ∧ ∀ x ∈ symbolsOf triples, x < 2 ^ 61 - 1) := by
  refine ⟨HuffColP.buildFromColumn_answers_iff, ?_, ?_⟩
  · intro hnp hbase hcol
    exact HuffColP.answers_eq (HuffColP.encodes_buildFromShared hnp hbase hcol)
  · constructor
    · rintro ⟨m, hbuilt, h⟩
      obtain ⟨rfl, hids⟩ := tryFromTriples_iff.mp hbuilt
      exact ⟨fits_of_occurs fun x hx => (h.occurs x).mpr (mem_symbolsOf.mp hx), hids⟩
    · rintro ⟨hfits, hids⟩
      exact ⟨_, tryFromTriples_iff.mpr ⟨rfl, hids⟩, renumbers_of_fits hfits hids⟩

/-- A column over the symbols `7` and `9`, and a triple of three ids. -/
theorem alphabets_faithful_small :
    (HuffColP.buildFromColumn [9, 7, 9]).answers = plainColumn [9, 7, 9] ∧
    (HuffColP.buildFromShared [9, 7, 9] 7 3).answers = plainColumn [9, 7, 9] ∧
    ∃ m, IdRemap.tryFromTriples [(5, 3, 8)] = .ok m ∧ Renumbers m [(5, 3, 8)] 3 := by
  obtain ⟨hcolumn, hshared, hremap⟩ := alphabets_faithful [9, 7, 9] 7 3 [(5, 3, 8)]
  exact ⟨(hcolumn (by decide)).mpr (by decide), hshared (by decide) (by decide) (by decide),
    hremap.mpr (by decide)⟩

/-- Triples with `2 ^ 32` ids. -/
def manyIds : List Row := (List.range (2 ^ 32)).map fun i => (i, i, i)

/-- The largest of `2 ^ 32` ids is not found, and no vector has a slot for the largest id
of all. -/
theorem manyIds_not_renumbered :
    ¬(∃ m, IdRemap.tryFromTriples manyIds = .ok m ∧ Renumbers m manyIds (symbolsOf manyIds).length) ∧
      ¬∃ m, IdRemap.tryFromTriples [(2 ^ 64 - 1, 0, 0)] = .ok m := by
  refine ⟨?_, fun ⟨m, hm⟩ => ?_⟩
  swap
  · exact absurd ((tryFromTriples_iff.mp hm).2 (2 ^ 64 - 1)
      (mem_symbolsOf.mpr ⟨_, mem_singleton_self _, .inl rfl⟩))
      (by decide)
  rintro ⟨m, hbuilt, h⟩
  have hm := (tryFromTriples_iff.mp hbuilt).1
  rw [hm] at h
  have hfits := fits_of_occurs fun x hx => (h.occurs x).mpr (mem_symbolsOf.mp hx)
  have hle : (List.range (2 ^ 32)).length ≤ (symbolsOf manyIds).length := by
    apply List.Subperm.length_le
    apply subperm_of_subset nodup_range
    intro i hi
    exact mem_symbolsOf.mpr ⟨_, mem_map.mpr ⟨i, hi, rfl⟩, .inl rfl⟩
  rw [length_range] at hle
  omega

end Nova.Ring
