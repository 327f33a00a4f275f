import Nova.Ring.Scan
import Nova.Lib.Cursor

/-!
# Join scans over a graph image

`joinScanStreaming` opens the scan of a pattern in the caller's ids. Short ranges of
the last column are searched symbol by symbol, ranges of up to 1024 rows are read into
a list, longer ones are walked in the mapped file if there is one. The list keeps the
order of the rows and drops equal neighbours only.

* `joinScan_lists_of_sorted` — a scan lists its targets if it does not read unsorted
  rows into a list
* `joinScan_lists_iff` — and only then
-/

namespace Nova.Ring

open Nova.Lib Nova.Lib.LastFirst List Leapfrog Sorted

/-! ## Scans -/

inductive LastColMode where
  | rdi
  | rnv
  deriving Repr, DecidableEq

/-- An open scan, by its kind. -/
inductive ScanIter where
  | empty
  | streaming (kind : DenseScanKind) (current : Option Nat)
  | materialized (vals : List Nat) (pos : Nat)
  /-- `rdi` holds the distinct symbols still in front of the walk. -/
  | mapped (col : Col) (range : RowRange) (rdi : List Nat) (mode : LastColMode) (current : Option Nat)
  /-- The common objects of two ranges of subjects. -/
  | d1Object (r0 r1 : RowRange) (current : Option Nat)
  /-- The common objects of three. -/
  | d2Object (r0 r1 r2 : RowRange) (current : Option Nat)
  deriving Repr, DecidableEq

def lastcolMaterializeMax : Nat := 1024

def rdiForwardGapMax : Nat := 64

/-- Drops a symbol that equals its predecessor. -/
def dropRuns : Option Nat → List Nat → List Nat
  | _, [] => []
  | prev, d :: ds => if prev = some d then dropRuns prev ds else d :: dropRuns (some d) ds

/-- Walks on until the goal is reached. -/
def forwardRdiTo (goal : Nat) : Nat → List Nat → Option Nat × List Nat
  | cur, rdi =>
    if goal ≤ cur then (some cur, rdi)
    else
      match rdi with
      | [] => (none, [])
      | s :: rest => forwardRdiTo goal s rest

namespace BraidedGraphImage

variable (img : BraidedGraphImage)

def externalKey (dense : Nat) : Nat := (img.remap.toExternal dense).getD dense

/-- The number to seek for an id: its own, or that of the next greater id. -/
def denseTarget (target : Nat) : Option Nat :=
  match img.remap.toDense target with
  | some d => some d
  | none => img.remap.denseCeil target

def atEnd : ScanIter → Bool
  | .empty => true
  | .streaming _ current => current.isNone
  | .materialized vals pos => decide (vals.length ≤ pos)
  | .mapped _ _ _ _ current => current.isNone
  | .d1Object _ _ current => current.isNone
  | .d2Object _ _ _ current => current.isNone

def key : ScanIter → Option Nat
  | .empty => some 0
  | .streaming _ current => current.map img.externalKey
  | .materialized vals pos => vals[pos]?.map img.externalKey
  | .mapped _ _ _ _ current => current.map img.externalKey
  | .d1Object _ _ current => current.map img.externalKey
  | .d2Object _ _ _ current => current.map img.externalKey

/-- The scan at its end. -/
def exhausted : ScanIter → ScanIter
  | .empty => .empty
  | .streaming kind _ => .streaming kind none
  | .materialized vals _ => .materialized vals vals.length
  | .mapped col range rdi mode _ => .mapped col range rdi mode none
  | .d1Object r0 r1 _ => .d1Object r0 r1 none
  | .d2Object r0 r1 r2 _ => .d2Object r0 r1 r2 none

/-- Moves a scan to a symbol that is ahead. -/
def seekDense (it : ScanIter) (d : Nat) : Option ScanIter :=
  match it with
  | .empty => some .empty
  | .streaming kind _ => do
    let current ← img.ring.denseSeek kind d
    some (.streaming kind current)
  | .materialized vals _ => some (.materialized vals (CyclicRing.partitionPoint vals fun v => v < d))
  | .mapped col range rdi mode current =>
    match img.ring.rangeNextValue col range d with
    | none => some (.mapped col range rdi mode none)
    | some goal =>
      match mode with
      | .rnv => some (.mapped col range rdi .rnv (some goal))
      | .rdi =>
        if goal - current.getD 0 ≤ rdiForwardGapMax then
          match current with
          | none => some (.mapped col range rdi .rdi none)
          | some cur =>
            let (current', rdi') := forwardRdiTo goal cur rdi
            some (.mapped col range rdi' .rdi current')
        else some (.mapped col range rdi .rnv (some goal))
  | .d1Object r0 r1 _ => some (.d1Object r0 r1 (img.ring.intersectionNextValue2 .O r0 r1 d))
  | .d2Object r0 r1 r2 _ => some (.d2Object r0 r1 r2 (img.ring.intersectionNextValue3 .O r0 r1 r2 d))

def seek (it : ScanIter) (target : Nat) : Option ScanIter :=
  if atEnd it then some it
  else if (img.key it).any fun k => target ≤ k then some it
  else
    match img.denseTarget target with
    | none => some (exhausted it)
    | some d => img.seekDense it d

def advance (it : ScanIter) : Option ScanIter :=
  match it with
  | .empty => some .empty
  | .streaming kind none => some (.streaming kind none)
  | .streaming kind (some cur) => do
    let current ← img.ring.denseAdvance kind cur
    some (.streaming kind current)
  | .materialized vals pos => some (if vals.length ≤ pos then .materialized vals pos else .materialized vals (pos + 1))
  | .mapped col range rdi mode none => some (.mapped col range rdi mode none)
  | .mapped col range rdi .rdi (some _) => some (.mapped col range rdi.tail .rdi rdi.head?)
  | .mapped col range rdi .rnv (some cur) =>
    if cur = 2 ^ 32 - 1 then some (.mapped col range rdi .rnv none)
    else some (.mapped col range rdi .rnv (img.ring.rangeNextValue col range (cur + 1)))
  | .d1Object r0 r1 none => some (.d1Object r0 r1 none)
  | .d1Object r0 r1 (some cur) =>
    some (.d1Object r0 r1 (if cur = 2 ^ 32 - 1 then none else img.ring.intersectionNextValue2 .O r0 r1 (cur + 1)))
  | .d2Object r0 r1 r2 none => some (.d2Object r0 r1 r2 none)
  | .d2Object r0 r1 r2 (some cur) =>
    some (.d2Object r0 r1 r2
      (if cur = 2 ^ 32 - 1 then none else img.ring.intersectionNextValue3 .O r0 r1 r2 (cur + 1)))

/-- The scan as a cursor over ids. -/
def cursor : Cursor ScanIter Nat where
  key := img.key
  atEnd := atEnd
  advance := img.advance
  seek := img.seek

/-! ## Opening a scan -/

def openStreaming (kind : DenseScanKind) : Option ScanIter := do
  let current ← img.ring.denseSeek kind 0
  some (.streaming kind current)

def openMaterialized (col : Col) (range : RowRange) : ScanIter :=
  .materialized (if range.isEmpty then [] else dropRuns none (img.ring.segment col range)) 0

def openMapped (col : Col) (range : RowRange) : Option ScanIter :=
  if !img.mapped || range.isEmpty then none
  else if col = .P ∧ img.cpIsHuff = true then
    some (.mapped col range [] .rnv (img.ring.rangeNextValue col range 0))
  else
    let distinct := Sorted.ofList (img.ring.segment col range)
    some (.mapped col range distinct.tail .rdi distinct.head?)

def mapBound (ext : Option Nat) : Option (Option Nat) :=
  match ext with
  | none => some none
  | some e => (img.remap.toDense e).map some

def openKind (kind : DenseScanKind) : Option ScanIter :=
  match kind with
  | .empty => some .empty
  | .lastCol col range =>
    if range.len ≤ 16 then img.openStreaming kind
    else if range.len ≤ lastcolMaterializeMax then some (img.openMaterialized col range)
    else if img.mapped then
      match img.openMapped col range with
      | some scan => some scan
      | none => img.openStreaming kind
    else img.openStreaming kind
  | .middleRuns _ _ => img.openStreaming kind
  | .singleton _ => img.openStreaming kind

def joinScanStreaming (s p o : Option Nat) (target : Nat) : Option ScanIter :=
  match img.mapBound s, img.mapBound p, img.mapBound o with
  | some sd, some pd, some od => do
    let kind ← img.ring.denseScanKind sd pd od (min target 2)
    img.openKind kind
  | _, _, _ => some .empty

end BraidedGraphImage

/-! ## From numbers to ids -/

variable {triples : List Row} {img : BraidedGraphImage}

variable {l : List Nat}

section Ids

variable (himg : ImageOf img triples)
include himg

theorem externalKey_number {x : Nat} (hx : x ∈ symbolsOf triples) : img.externalKey (number triples x) = x := by
  rw [BraidedGraphImage.externalKey, IdRemap.toExternal, himg.remap, externals_fromTriples, getElem?_number hx,
    Option.getD_some]

theorem externalKey_spec {d : Nat} (hd : d < (symbolsOf triples).length) :
    img.externalKey d ∈ symbolsOf triples ∧ number triples (img.externalKey d) = d := by
  have hget : (symbolsOf triples)[d]? = some (symbolsOf triples)[d] := getElem?_eq_getElem hd
  have hkey : img.externalKey d = (symbolsOf triples)[d] := by
    rw [BraidedGraphImage.externalKey, IdRemap.toExternal, himg.remap, externals_fromTriples, hget,
      Option.getD_some]
  rw [hkey]
  exact ⟨mem_of_getElem? hget, number_eq hget⟩

theorem externalKey_lt_iff {d : Nat} (hd : d < (symbolsOf triples).length) (target : Nat) :
    img.externalKey d < target ↔ d < number triples target := by
  obtain ⟨hmem, hnum⟩ := externalKey_spec himg hd
  rw [← number_lt_iff hmem target, hnum]

theorem seek_map_externalKey (hl : ∀ d ∈ l, d < (symbolsOf triples).length) (target : Nat) :
    Leapfrog.seek (l.map img.externalKey) target = (Leapfrog.seek l (number triples target)).map img.externalKey := by
  unfold Leapfrog.seek
  induction l with
  | nil => rfl
  | cons d ds ih =>
    have hiff := externalKey_lt_iff himg (hl d mem_cons_self) target
    rw [map_cons]
    by_cases hlt : d < number triples target
    · rw [dropWhile_cons_of_pos (by simpa using hiff.mpr hlt), dropWhile_cons_of_pos (by simpa using hlt),
        ih fun d' hd' => hl d' (mem_cons_of_mem _ hd')]
    · have hge : ¬ img.externalKey d < target := fun h => hlt (hiff.mp h)
      rw [dropWhile_cons_of_neg (by simpa using hge), dropWhile_cons_of_neg (by simpa using hlt),
        map_cons]

theorem denseTarget_eq (hsymbols : (symbolsOf triples).length < 2 ^ 32) (target : Nat) :
    img.denseTarget target =
      if (symbolsOf triples).length ≤ number triples target then none else some (number triples target) := by
  unfold BraidedGraphImage.denseTarget
  rw [himg.remap]
  by_cases hmem : target ∈ symbolsOf triples
  · rw [toDense_of_mem hsymbols hmem, if_neg (Nat.not_le_of_lt (number_lt_length hmem))]
  · rw [toDense_of_not_mem hmem]
    exact denseCeil_fromTriples hsymbols target

/-- A scan that moves over numbers as over an ascending list. -/
structure Follows (img : BraidedGraphImage) (Q : ScanIter → List Nat → Prop) : Prop where
  atEnd : ∀ {it l}, Q it l → BraidedGraphImage.atEnd it = l.isEmpty
  key : ∀ {it d l}, Q it (d :: l) → img.key it = some (img.externalKey d)
  advance : ∀ {it l}, Q it l → ∃ it', img.advance it = some it' ∧ Q it' l.tail
  seekDense : ∀ {it c l d}, Q it (c :: l) → c < d →
    ∃ it', img.seekDense it d = some it' ∧ Q it' (Leapfrog.seek (c :: l) d)
  exhausted : ∀ {it l}, Q it l → Q (BraidedGraphImage.exhausted it) []

/-- A scan that follows a list of symbols lists their ids. -/
theorem lists_of_follows (hsymbols : (symbolsOf triples).length < 2 ^ 32) {Q : ScanIter → List Nat → Prop}
    (hQ : Follows img Q) {it : ScanIter} (hit : Q it l)
    (hl : ∀ d ∈ l, d < (symbolsOf triples).length) : img.cursor.Lists it (l.map img.externalKey) := by
  apply Cursor.lists_of_invariant (R := fun it ext => ∃ l, Q it l ∧ ext = l.map img.externalKey ∧
    ∀ d ∈ l, d < (symbolsOf triples).length)
  · rintro it _ ⟨l, hit, rfl, -⟩
    refine ⟨?_, ?_⟩
    · rw [isEmpty_map]
      exact hQ.atEnd hit
    · intro k hk
      rcases l with _ | ⟨d, l⟩
      · exact absurd hk (by simp)
      · have hkd : img.externalKey d = k := by simpa using hk
        rw [← hkd]
        exact hQ.key hit
  · rintro it _ m ⟨l, hit, rfl, hl⟩
    rcases m with _ | target
    · obtain ⟨it', hadv, hit'⟩ := hQ.advance hit
      refine ⟨it', hadv, l.tail, hit', ?_, fun d hd => hl d (mem_of_mem_tail hd)⟩
      exact map_tail.symm
    · have hlater : ∀ d ∈ Leapfrog.seek l (number triples target), d < (symbolsOf triples).length :=
        fun d hd => hl d ((seek_sublist l _).subset hd)
      have hlist := seek_map_externalKey himg hl target
      show ∃ it', img.seek it target = some it' ∧ _
      unfold BraidedGraphImage.seek
      rw [hQ.atEnd hit]
      rcases l with _ | ⟨c, l⟩
      · -- at the end nothing moves
        exact ⟨it, rfl, [], hit, rfl, nofun⟩
      · rw [if_neg (by simp), hQ.key hit]
        have hc := hl c mem_cons_self
        have hiff := externalKey_lt_iff himg hc target
        by_cases hpast : target ≤ img.externalKey c
        · -- the current key is not below the target
          rw [if_pos (by simpa using hpast)]
          refine ⟨it, rfl, c :: l, hit, ?_, hl⟩
          apply seek_eq_self
          intro k hk
          have hkc : img.externalKey c = k := by simpa using hk
          rwa [← hkc]
        · rw [if_neg (by simpa using hpast), denseTarget_eq himg hsymbols]
          by_cases hnone : (symbolsOf triples).length ≤ number triples target
          · -- no id is as great as the target
            rw [if_pos hnone]
            refine ⟨_, rfl, [], hQ.exhausted hit, ?_, nofun⟩
            rw [Cursor.Move.onList, hlist, seek_eq_nil]
            intro d hd
            exact Nat.lt_of_lt_of_le (hl d hd) hnone
          · rw [if_neg hnone]
            obtain ⟨it', hseek, hit'⟩ := hQ.seekDense hit (hiff.mp (Nat.lt_of_not_le hpast))
            exact ⟨it', hseek, _, hit', hlist, hlater⟩
  · exact ⟨l, hit, rfl, hl⟩

end Ids

/-! ## The kinds of scans -/

variable {vals : List Nat}

theorem head_seek_of_leastFrom (hsorted : vals.Pairwise (· < ·)) {a : Nat} {res : Option Nat}
    (h : LeastFrom (· ∈ vals) a res) : res = (Leapfrog.seek vals a).head? := by
  rcases res with _ | k
  · rw [seek_eq_nil h]
    rfl
  · exact (head_seek_eq hsorted h.1 h.2.1 fun x hx hle => h.2.2 x hx hle).symm

theorem seek_succ (hsorted : vals.Pairwise (· < ·)) {a c : Nat}
    (h : Leapfrog.seek vals a = c :: l) : Leapfrog.seek vals (c + 1) = l := by
  have hle : a ≤ c := le_of_head_seek (l := vals) (by rw [h]; rfl)
  have hs : (c :: l).Pairwise (· < ·) := h ▸ hsorted.sublist (seek_sublist vals a)
  rw [← seek_seek vals (Nat.le_succ_of_le hle), h]
  exact seek_cons_eq (Nat.lt_succ_self c) fun x hx => (pairwise_cons.mp hs).1 x hx

theorem seek_of_seek {a c d : Nat} (h : Leapfrog.seek vals a = c :: l) (hcd : c < d) :
    Leapfrog.seek (c :: l) d = Leapfrog.seek vals d := by
  have hle : a ≤ c := le_of_head_seek (l := vals) (by rw [h]; rfl)
  rw [← h, seek_seek vals (by omega)]

theorem drop_partitionPoint (l : List Nat) (p : Nat → Bool) :
    l.drop (CyclicRing.partitionPoint l p) = l.dropWhile p := by
  unfold CyclicRing.partitionPoint
  induction l with
  | nil => rfl
  | cons x xs ih =>
    by_cases hx : p x = true
    · rw [takeWhile_cons_of_pos hx, dropWhile_cons_of_pos hx, length_cons, drop_succ_cons, ih]
    · rw [takeWhile_cons_of_neg hx, dropWhile_cons_of_neg hx]
      rfl

theorem forwardRdiTo_eq (goal cur : Nat) (rdi : List Nat) : forwardRdiTo goal cur rdi =
    ((Leapfrog.seek (cur :: rdi) goal).head?, (Leapfrog.seek (cur :: rdi) goal).tail) := by
  induction rdi generalizing cur with
  | nil =>
    by_cases hle : goal ≤ cur
    · have hge : ¬ cur < goal := Nat.not_lt_of_le hle
      simp [forwardRdiTo, Leapfrog.seek, hle, hge]
    · have hlt : cur < goal := Nat.lt_of_not_le hle
      simp [forwardRdiTo, Leapfrog.seek, hle, hlt]
  | cons s rest ih =>
    rw [forwardRdiTo]
    by_cases hle : goal ≤ cur
    · have hge : ¬ cur < goal := Nat.not_lt_of_le hle
      simp [Leapfrog.seek, hge]
    · have hlt : cur < goal := Nat.lt_of_not_le hle
      rw [if_neg hle, ih]
      simp only [Leapfrog.seek, dropWhile_cons (x := cur), hlt, decide_true, if_true]

section Kinds

variable {vals : List Nat} (hsorted : vals.Pairwise (· < ·))
include hsorted

theorem follows_materialized :
    Follows img fun it l => ∃ pos, it = .materialized vals pos ∧ l = vals.drop pos where
  atEnd := by
    rintro it l ⟨pos, rfl, rfl⟩
    rw [BraidedGraphImage.atEnd, Bool.eq_iff_iff, decide_eq_true_iff, List.isEmpty_iff, drop_eq_nil_iff]
  key := by
    rintro it d l ⟨pos, rfl, hl⟩
    have hd : vals[pos]? = some d := by
      rw [← head?_drop, ← hl]
      rfl
    rw [BraidedGraphImage.key, hd]
    rfl
  advance := by
    rintro it l ⟨pos, rfl, rfl⟩
    by_cases hend : vals.length ≤ pos
    · refine ⟨.materialized vals pos, ?_, pos, rfl, ?_⟩
      · rw [BraidedGraphImage.advance, if_pos hend]
      · rw [drop_eq_nil_of_le hend]
        rfl
    · refine ⟨.materialized vals (pos + 1), ?_, pos + 1, rfl, ?_⟩
      · rw [BraidedGraphImage.advance, if_neg hend]
      · rw [tail_drop]
  seekDense := by
    rintro it c l d ⟨pos, rfl, hl⟩ hcd
    refine ⟨_, rfl, _, rfl, ?_⟩
    -- what stands before the position is smaller than its element
    have hbefore : ∀ x ∈ vals.take pos, decide (x < d) = true := by
      intro x hx
      have hs := hsorted
      rw [← take_append_drop pos vals, ← hl, pairwise_append] at hs
      have hxc := hs.2.2 x hx c mem_cons_self
      exact decide_eq_true (Nat.lt_trans hxc hcd)
    have hdrop : vals.dropWhile (fun v => decide (v < d)) = (vals.drop pos).dropWhile fun v => decide (v < d) := by
      conv_lhs => rw [← take_append_drop pos vals]
      exact dropWhile_append_of_pos hbefore
    rw [hl, Leapfrog.seek, ← hdrop, drop_partitionPoint]
  exhausted := by
    rintro it l ⟨pos, rfl, -⟩
    exact ⟨vals.length, rfl, (drop_length).symm⟩

variable (hbound : ∀ d ∈ vals, d < 2 ^ 32 - 1)
include hbound

theorem follows_streaming {kind : DenseScanKind} (hkind : KindShows img.ring kind (· ∈ vals)) :
    Follows img fun it l => it = .streaming kind l.head? ∧ ∃ a, l = Leapfrog.seek vals a where
  atEnd := by
    rintro it l ⟨rfl, -⟩
    rcases l with _ | ⟨d, l⟩ <;> rfl
  key := by
    rintro it d l ⟨rfl, -⟩
    rfl
  advance := by
    rintro it l ⟨rfl, a, hl⟩
    rcases l with _ | ⟨c, l⟩
    · exact ⟨_, rfl, rfl, a, hl⟩
    · obtain ⟨res, hres, hleast⟩ := hkind (c + 1)
      have hc : c ∈ vals := (seek_sublist vals a).subset (hl ▸ mem_cons_self)
      have hlt := hbound c hc
      have hrest := seek_succ hsorted hl.symm
      refine ⟨.streaming kind res, ?_, ?_, c + 1, hrest.symm⟩
      · rw [head?_cons, BraidedGraphImage.advance, CyclicRing.denseAdvance, if_neg (by omega), hres]
        rfl
      · rw [head_seek_of_leastFrom hsorted hleast, hrest, tail_cons]
  seekDense := by
    rintro it c l d ⟨rfl, a, hl⟩ hcd
    obtain ⟨res, hres, hleast⟩ := hkind d
    have hrest := seek_of_seek hl.symm hcd
    refine ⟨.streaming kind res, ?_, ?_, d, hrest⟩
    · rw [BraidedGraphImage.seekDense, hres]
      rfl
    · rw [head_seek_of_leastFrom hsorted hleast, hrest]
  exhausted := by
    rintro it l ⟨rfl, a, hl⟩
    refine ⟨rfl, 2 ^ 32, ?_⟩
    rw [seek_eq_nil]
    intro d hd
    have hlt := hbound d hd
    omega

/-- Walking the mapped file: in the first mode the walk holds the rest, in the second only the
current symbol counts. -/
theorem follows_mapped {col : Col} {range : RowRange}
    (hrnv : ∀ d, LeastFrom (· ∈ vals) d (img.ring.rangeNextValue col range d)) :
    Follows img fun it l => ∃ rdi mode, it = .mapped col range rdi mode l.head? ∧
      (∃ a, l = Leapfrog.seek vals a) ∧ (mode = .rdi → l ≠ [] → rdi = l.tail) where
  atEnd := by
    rintro it l ⟨rdi, mode, rfl, -⟩
    rcases l with _ | ⟨d, l⟩ <;> rfl
  key := by
    rintro it d l ⟨rdi, mode, rfl, -⟩
    rfl
  advance := by
    rintro it l ⟨rdi, mode, rfl, ⟨a, hl⟩, hrdi⟩
    rcases l with _ | ⟨c, l⟩
    · exact ⟨_, rfl, rdi, mode, rfl, ⟨a, hl⟩, fun _ hne => absurd rfl hne⟩
    · have hrest := seek_succ hsorted hl.symm
      rcases mode with _ | _
      · have hwalk : rdi = l := hrdi rfl (by simp)
        subst hwalk
        refine ⟨_, rfl, rdi.tail, .rdi, rfl, ⟨c + 1, hrest.symm⟩, ?_⟩
        intro _ _
        rfl
      -- in the second mode the next symbol is searched in the range
      · have hc : c ∈ vals := (seek_sublist vals a).subset (hl ▸ mem_cons_self)
        have hlt := hbound c hc
        refine ⟨_, ?_, rdi, .rnv, rfl, ⟨c + 1, hrest.symm⟩, fun h => absurd h (by simp)⟩
        rw [head?_cons, BraidedGraphImage.advance, if_neg (by omega),
          head_seek_of_leastFrom hsorted (hrnv (c + 1)), hrest, tail_cons]
  seekDense := by
    rintro it c l d ⟨rdi, mode, rfl, ⟨a, hl⟩, hrdi⟩ hcd
    have hrest := seek_of_seek hl.symm hcd
    have hnext := head_seek_of_leastFrom hsorted (hrnv d)
    rw [← hrest] at hnext
    unfold BraidedGraphImage.seekDense
    dsimp only
    rcases hgoal : img.ring.rangeNextValue col range d with _ | goal
    · -- nothing is left from the target on
      rw [hgoal] at hnext
      have hnil : Leapfrog.seek (c :: l) d = [] := head?_eq_none_iff.mp hnext.symm
      refine ⟨_, rfl, rdi, mode, by rw [hnil]; rfl, ⟨d, hrest⟩, ?_⟩
      intro _ hne
      exact absurd hnil hne
    · rw [hgoal] at hnext
      rcases mode with _ | _
      · have hwalk : rdi = l := hrdi rfl (by simp)
        subst hwalk
        dsimp only
        split
        · -- a short way ahead the walk goes on
          have hsame : Leapfrog.seek (c :: rdi) goal = Leapfrog.seek (c :: rdi) d := by
            have hle : d ≤ goal := le_of_head_seek hnext.symm
            rw [← seek_seek _ hle]
            apply seek_eq_self
            intro k hk
            rw [← hnext, Option.some.injEq] at hk
            exact Nat.le_of_eq hk
          rw [head?_cons]
          dsimp only
          rw [forwardRdiTo_eq, hsame]
          refine ⟨_, rfl, _, .rdi, rfl, ⟨d, hrest⟩, ?_⟩
          intro _ _
          rfl
        · exact ⟨_, rfl, rdi, .rnv, by rw [← hnext], ⟨d, hrest⟩, fun h => absurd h (by simp)⟩
      · exact ⟨_, rfl, rdi, .rnv, by rw [← hnext], ⟨d, hrest⟩, fun h => absurd h (by simp)⟩
  exhausted := by
    rintro it l ⟨rdi, mode, rfl, -⟩
    refine ⟨rdi, mode, rfl, ⟨2 ^ 32, ?_⟩, fun _ hne => absurd rfl hne⟩
    rw [seek_eq_nil]
    intro d hd
    have hlt := hbound d hd
    omega

end Kinds

/-! ## Rows read into a list -/

variable {prev : Option Nat}

theorem mem_dropRuns {x : Nat} (hx : x ∈ l) : x ∈ dropRuns prev l ∨ prev = some x := by
  induction l generalizing prev with
  | nil => exact absurd hx not_mem_nil
  | cons d ds ih =>
    rw [dropRuns]
    by_cases hd : prev = some d
    · rw [if_pos hd]
      rcases mem_cons.mp hx with rfl | hx
      · exact .inr hd
      · exact ih hx
    · rw [if_neg hd]
      rcases mem_cons.mp hx with rfl | hx
      · exact .inl mem_cons_self
      · rcases @ih (some d) hx with h | h
        · exact .inl (mem_cons_of_mem _ h)
        · exact .inl (Option.some.inj h ▸ mem_cons_self)

theorem dropRuns_sublist (prev : Option Nat) (l : List Nat) : (dropRuns prev l).Sublist l := by
  induction l generalizing prev with
  | nil => exact List.Sublist.refl _
  | cons d ds ih =>
    rw [dropRuns]
    split
    · exact (ih prev).cons d
    · exact (ih (some d)).cons_cons d

theorem pairwise_dropRuns (hsorted : l.Pairwise (· ≤ ·)) (hprev : ∀ d, prev = some d → ∀ x ∈ l, d ≤ x) :
    (dropRuns prev l).Pairwise (· < ·) ∧ ∀ d, prev = some d → ∀ x ∈ dropRuns prev l, d < x := by
  induction l generalizing prev with
  | nil => exact ⟨.nil, nofun⟩
  | cons d ds ih =>
    rcases pairwise_cons.mp hsorted with ⟨hd, hds⟩
    rw [dropRuns]
    by_cases heq : prev = some d
    · rw [if_pos heq]
      exact ih hds fun d' hd' x hx => hprev d' hd' x (mem_cons_of_mem _ hx)
    · rw [if_neg heq]
      obtain ⟨hpair, hlt⟩ := @ih (some d) hds fun d' hd' x hx => Option.some.inj hd' ▸ hd x hx
      refine ⟨pairwise_cons.mpr ⟨hlt d rfl, hpair⟩, ?_⟩
      intro d' hd' x hx
      have hle : d' ≤ d := hprev d' hd' d mem_cons_self
      have hne : d' ≠ d := fun h => heq (h ▸ hd')
      rcases mem_cons.mp hx with rfl | hx
      · omega
      · have hdx := hlt d rfl x hx
        omega

theorem pairwise_of_dropRuns (hpair : (dropRuns prev l).Pairwise (· < ·))
    (hprev : ∀ d, prev = some d → ∀ x ∈ dropRuns prev l, d < x) :
    l.Pairwise (· ≤ ·) ∧ ∀ d, prev = some d → ∀ x ∈ l, d ≤ x := by
  induction l generalizing prev with
  | nil => exact ⟨.nil, nofun⟩
  | cons d ds ih =>
    rw [dropRuns] at hpair hprev
    by_cases heq : prev = some d
    · rw [if_pos heq] at hpair hprev
      obtain ⟨hds, hle⟩ := ih hpair hprev
      refine ⟨pairwise_cons.mpr ⟨hle d heq, hds⟩, ?_⟩
      intro d' hd' x hx
      have hdd : d' = d := Option.some.inj (hd'.symm.trans heq)
      rcases mem_cons.mp hx with rfl | hx
      · exact Nat.le_of_eq hdd
      · exact hle d' hd' x hx
    · rw [if_neg heq] at hpair hprev
      rcases pairwise_cons.mp hpair with ⟨hd, hds⟩
      obtain ⟨hsorted, hle⟩ := ih hds fun d' hd' x hx => Option.some.inj hd' ▸ hd x hx
      refine ⟨pairwise_cons.mpr ⟨hle d rfl, hsorted⟩, ?_⟩
      intro d' hd' x hx
      have hlt := hprev d' hd' d mem_cons_self
      rcases mem_cons.mp hx with rfl | hx
      · exact Nat.le_of_lt hlt
      · exact Nat.le_trans (Nat.le_of_lt hlt) (hle d rfl x hx)

theorem dropRuns_eq_ofList_iff (l : List Nat) : dropRuns none l = Sorted.ofList l ↔ l.Pairwise (· ≤ ·) := by
  constructor
  · intro h
    exact (pairwise_of_dropRuns (h ▸ pairwise_ofList l) fun d hd => absurd hd (by simp)).1
  · intro h
    have hpair := (pairwise_dropRuns h fun d hd => absurd hd (by simp) : (dropRuns none l).Pairwise (· < ·) ∧ _).1
    apply hpair.eq_of_mem_iff (pairwise_ofList l)
    intro x
    rw [mem_ofList]
    constructor
    · exact fun hx => (dropRuns_sublist none l).subset hx
    · intro hx
      exact (mem_dropRuns hx).resolve_right (by simp)

theorem run_materialized (img : BraidedGraphImage) (vals : List Nat) (n : Nat) {pos : Nat}
    (hpos : pos ≤ vals.length) :
    img.cursor.run (.materialized vals pos) (List.replicate n .advance) =
      some (.materialized vals (min (pos + n) vals.length)) := by
  induction n generalizing pos with
  | zero => rw [replicate_zero, Cursor.run, Nat.add_zero, Nat.min_eq_left hpos]
  | succ n ih =>
    show (img.advance (.materialized vals pos)).bind _ = _
    rw [BraidedGraphImage.advance]
    by_cases hend : vals.length ≤ pos
    · rw [if_pos hend, Option.bind_some, ih hpos]
      congr 2
      omega
    · rw [if_neg hend, Option.bind_some, ih (by omega)]
      congr 2
      omega

theorem eq_of_lists_materialized (h : img.cursor.Lists (.materialized vals 0) l) :
    l = vals.map img.externalKey := by
  have hwalk : ∀ n, decide (vals.length ≤ n) = decide (l.length ≤ n) ∧
      ∀ k, l[n]? = some k → vals[n]?.map img.externalKey = some k := by
    intro n
    obtain ⟨s', hs', hend, hkey⟩ := h.walk n
    rw [run_materialized img vals n (Nat.zero_le _), Option.some.injEq] at hs'
    subst hs'
    have hend' : decide (vals.length ≤ min (0 + n) vals.length) = decide (l.length ≤ n) := hend
    have hsame : vals.length ≤ min (0 + n) vals.length ↔ vals.length ≤ n := by omega
    refine ⟨?_, ?_⟩
    · rw [← hend']
      exact decide_eq_decide.mpr hsame.symm
    · intro k hk
      have hlt : n < l.length := (List.getElem?_eq_some_iff.mp hk).1
      have hn : min (0 + n) vals.length = n := by
        have hnot : ¬ vals.length ≤ min (0 + n) vals.length := by
          rw [← decide_eq_false_iff_not, hend', decide_eq_false_iff_not]
          omega
        omega
      have hkn : img.key (.materialized vals (min (0 + n) vals.length)) = some k := hkey k hk
      rwa [hn] at hkn
  have hlen : l.length = vals.length := by
    have h₁ := decide_eq_decide.mp (hwalk l.length).1
    have h₂ := decide_eq_decide.mp (hwalk vals.length).1
    omega
  apply ext_getElem?
  intro n
  rw [getElem?_map]
  rcases hn : l[n]? with _ | k
  · have hge : vals.length ≤ n := by
      rw [← hlen]
      exact List.getElem?_eq_none_iff.mp hn
    rw [getElem?_eq_none hge]
    rfl
  · exact ((hwalk n).2 k hn).symm

/-! ## Opening -/

section Opening

variable {dense : List Row} {univ : Nat} {c : Col} {lead mid : Option Nat} {kind : DenseScanKind}

/-- What the scan reads into a list is sorted. -/
def ReadsSorted (dense : List Row) (c : Col) (lead mid : Option Nat) : Prop :=
  (lead = none → mid = none) → 16 < (column dense c lead mid).length →
    (column dense c lead mid).length ≤ lastcolMaterializeMax → (column dense c lead mid).Pairwise (· ≤ ·)

variable (himg : ImageOf img triples) (hsymbols : (symbolsOf triples).length < 2 ^ 32)
  (hring : img.ring = buildShared dense univ)
  (hdense : ∀ v ∈ column dense c lead mid, v < (symbolsOf triples).length)
  (hpicked : Picked dense univ c lead mid kind)

include himg hsymbols hring hdense hpicked

theorem openStreaming_lists : ∃ it, img.openStreaming kind = some it ∧
    img.cursor.Lists it ((Sorted.ofList (column dense c lead mid)).map img.externalKey) := by
  have hshows : KindShows img.ring kind (· ∈ Sorted.ofList (column dense c lead mid)) := by
    rw [hring]
    exact hpicked.shows.congr fun v => mem_ofList.symm
  have hlt : ∀ d ∈ Sorted.ofList (column dense c lead mid), d < (symbolsOf triples).length :=
    fun d hd => hdense d (mem_ofList.mp hd)
  obtain ⟨res, hres, hleast⟩ := hshows 0
  have hhead := head_seek_of_leastFrom (pairwise_ofList _) hleast
  have hall : Leapfrog.seek (Sorted.ofList (column dense c lead mid)) 0 = Sorted.ofList (column dense c lead mid) :=
    seek_eq_self fun k _ => Nat.zero_le k
  refine ⟨.streaming kind res, by rw [BraidedGraphImage.openStreaming, hres]; rfl, ?_⟩
  apply lists_of_follows himg hsymbols (follows_streaming (pairwise_ofList _) _ hshows) _ hlt
  · intro d hd
    have hd' := hlt d hd
    omega
  · rw [hall] at hhead
    exact ⟨by rw [hhead], 0, hall.symm⟩

theorem openMapped_lists {col : Col} {range : RowRange} (hkind : kind = .lastCol col range)
    (hmapped : img.mapped = true) (hne : range.isEmpty = false) : ∃ it, img.openMapped col range = some it ∧
      img.cursor.Lists it ((Sorted.ofList (column dense c lead mid)).map img.externalKey) := by
  subst hkind
  have hseg := (hpicked.lastCol col range rfl).1
  have hrnv : ∀ d, LeastFrom (· ∈ Sorted.ofList (column dense c lead mid)) d
      (img.ring.rangeNextValue col range d) := by
    intro d
    obtain ⟨res, hres, hleast⟩ := hpicked.shows d
    rw [hring]
    have heq : (buildShared dense univ).rangeNextValue col range d = res := by
      rw [CyclicRing.denseSeek] at hres
      simpa [hne] using hres
    rw [heq]
    have hsame : (· ∈ Sorted.ofList (column dense c lead mid)) = (· ∈ column dense c lead mid) :=
      funext fun v => propext mem_ofList
    rwa [hsame]
  have hlt : ∀ d ∈ Sorted.ofList (column dense c lead mid), d < (symbolsOf triples).length :=
    fun d hd => hdense d (mem_ofList.mp hd)
  have hall : Leapfrog.seek (Sorted.ofList (column dense c lead mid)) 0 = Sorted.ofList (column dense c lead mid) :=
    seek_eq_self fun k _ => Nat.zero_le k
  have hbound : ∀ d ∈ Sorted.ofList (column dense c lead mid), d < 2 ^ 32 - 1 := by
    intro d hd
    have hd' := hlt d hd
    omega
  have hfollows := follows_mapped (pairwise_ofList _) hbound hrnv
  unfold BraidedGraphImage.openMapped
  rw [if_neg (by simp [hmapped, hne])]
  split
  · refine ⟨_, rfl, lists_of_follows himg hsymbols hfollows ?_ hlt⟩
    refine ⟨[], .rnv, ?_, ⟨0, hall.symm⟩, fun h => absurd h (by simp)⟩
    rw [head_seek_of_leastFrom (pairwise_ofList _) (hrnv 0), hall]
  · refine ⟨_, rfl, lists_of_follows himg hsymbols hfollows ?_ hlt⟩
    rw [hring, hseg]
    exact ⟨_, .rdi, rfl, ⟨0, hall.symm⟩, fun _ _ => rfl⟩

/-- One case for each kind of scan; only the last column is read in the order of its rows. -/
theorem openKind_lists_iff : ∃ it, img.openKind kind = some it ∧
    (img.cursor.Lists it ((Sorted.ofList (column dense c lead mid)).map img.externalKey) ↔
      ReadsSorted dense c lead mid) := by
  obtain ⟨it, hit, hlists⟩ := openStreaming_lists himg hsymbols hring hdense hpicked
  -- a scan that is not over the last column is searched symbol by symbol
  have hother : (∀ col range, kind ≠ .lastCol col range) → ReadsSorted dense c lead mid := by
    intro hnot hfront hlen
    obtain ⟨col, range, heq⟩ := hpicked.isLast hfront (by omega)
    exact absurd heq (hnot col range)
  rcases kind with _ | v | ⟨col, range⟩ | ⟨range, m⟩
  · refine ⟨.empty, rfl, ?_⟩
    have hsorted : ReadsSorted dense c lead mid := hother fun _ _ h => absurd h (by simp)
    refine iff_of_true ?_ hsorted
    have hnil : column dense c lead mid = [] := by
      rw [eq_nil_iff_forall_not_mem]
      intro v hv
      obtain ⟨res, hres, hleast⟩ := hpicked.shows 0
      rw [CyclicRing.denseSeek, Option.some.injEq] at hres
      subst hres
      exact absurd (hleast v hv) (Nat.not_lt_zero v)
    rw [hnil]
    exact Cursor.lists_of_invariant (R := fun it l => it = .empty ∧ l = [])
      (by rintro _ _ ⟨rfl, rfl⟩; exact ⟨rfl, fun k hk => absurd hk (by simp)⟩)
      (by
        rintro _ _ m ⟨rfl, rfl⟩
        rcases m with _ | target
        · exact ⟨.empty, rfl, rfl, rfl⟩
        · exact ⟨.empty, rfl, rfl, rfl⟩) ⟨rfl, rfl⟩
  · exact ⟨it, hit, iff_of_true hlists (hother fun _ _ h => absurd h (by simp))⟩
  · obtain ⟨hseg, hlen, hfront⟩ := hpicked.lastCol col range rfl
    unfold BraidedGraphImage.openKind
    dsimp only
    by_cases hsmall : range.len ≤ 16
    · rw [if_pos hsmall]
      exact ⟨it, hit, iff_of_true hlists fun _ h => absurd h (by omega)⟩
    · rw [if_neg hsmall]
      have hne : range.isEmpty = false := by
        unfold RowRange.len at hsmall
        exact decide_eq_false (by omega)
      by_cases hmedium : range.len ≤ lastcolMaterializeMax
      · rw [if_pos hmedium]
        refine ⟨_, rfl, ?_⟩
        have hopen : img.openMaterialized col range = .materialized (dropRuns none (column dense c lead mid)) 0 := by
          rw [BraidedGraphImage.openMaterialized, hring, hseg, if_neg (by simp [hne])]
        have hlt : ∀ d ∈ column dense c lead mid, d < (symbolsOf triples).length := hdense
        rw [hopen]
        constructor
        · -- the walk reads the rows in their order
          intro h _ _ _
          rw [← dropRuns_eq_ofList_iff]
          have heq := eq_of_lists_materialized h
          have hinj : ∀ {l : List Nat}, (∀ d ∈ l, d < (symbolsOf triples).length) →
              (l.map img.externalKey).map (number triples) = l := by
            intro l hl
            rw [map_map]
            conv_rhs => rw [← map_id l]
            apply map_congr_left
            intro d hd
            exact (externalKey_spec himg (hl d hd)).2
          have hback := congrArg (List.map (number triples)) heq
          rw [hinj fun d hd => hlt d (mem_ofList.mp hd),
            hinj fun d hd => hlt d ((dropRuns_sublist none _).subset hd)] at hback
          exact hback.symm
        · intro hsorted
          have hpair := hsorted hfront (by omega) (by omega)
          rw [(dropRuns_eq_ofList_iff _).mpr hpair]
          apply lists_of_follows himg hsymbols (follows_materialized (pairwise_ofList _)) ⟨0, rfl, rfl⟩
          intro d hd
          exact hlt d (mem_ofList.mp hd)
      · rw [if_neg hmedium]
        have hsorted : ReadsSorted dense c lead mid := fun _ _ h => absurd h (by omega)
        by_cases hmapped : img.mapped = true
        · rw [if_pos hmapped]
          obtain ⟨it', hit', hlists'⟩ := openMapped_lists himg hsymbols hring hdense hpicked rfl hmapped hne
          rw [hit']
          exact ⟨it', rfl, iff_of_true hlists' hsorted⟩
        · rw [if_neg hmapped]
          exact ⟨it, hit, iff_of_true hlists hsorted⟩
  · exact ⟨it, hit, iff_of_true hlists (hother fun _ _ h => absurd h (by simp))⟩

end Opening

/-! ## Scans of triples -/

theorem known_rotate {t : Row} (h : Known triples t) : Known triples (rotate t) := ⟨h.2.2, h.1, h.2.1⟩

variable {rows : List Row}

theorem table_map_denseRow (hrows : ∀ t ∈ rows, Known triples t) (c : Col) :
    table (rows.map (denseRow triples)) c = (table rows c).map (denseRow triples) ∧
      ∀ t ∈ table rows c, Known triples t := by
  have hO : sortRows (rows.map (denseRow triples)) = (sortRows rows).map (denseRow triples) ∧
      ∀ t ∈ sortRows rows, Known triples t :=
    ⟨sortRows_map_denseRow hrows, fun t ht => hrows t ((sortRows_perm rows).mem_iff.mp ht)⟩
  -- turning the rows and sorting them again
  have hnext : ∀ {rows rows' : List Row}, rows' = rows.map (denseRow triples) ∧ (∀ t ∈ rows, Known triples t) →
      sortRows (rows'.map rotate) = (sortRows (rows.map rotate)).map (denseRow triples) ∧
        ∀ t ∈ sortRows (rows.map rotate), Known triples t := by
    rintro rows rows' ⟨rfl, hknown⟩
    have hturned : ∀ t ∈ rows.map rotate, Known triples t := by
      intro t ht
      obtain ⟨u, hu, rfl⟩ := mem_map.mp ht
      exact known_rotate (hknown u hu)
    refine ⟨?_, fun t ht => hturned t ((sortRows_perm _).mem_iff.mp ht)⟩
    have hcomm : (rows.map (denseRow triples)).map rotate = (rows.map rotate).map (denseRow triples) := by
      rw [map_map, map_map]
      rfl
    rw [hcomm, sortRows_map_denseRow hturned]
  rcases c with _ | _ | _
  · exact hO
  · exact hnext hO
  · exact hnext (hnext hO)

variable {lead mid : Option Nat}

theorem rowMatches_denseRow {t : Row} (ht : Known triples t)
    (hlead : ∀ v, lead = some v → v ∈ symbolsOf triples) (hmid : ∀ v, mid = some v → v ∈ symbolsOf triples) :
    rowMatches (lead.map (number triples)) (mid.map (number triples)) (denseRow triples t) =
      rowMatches lead mid t := by
  have hone : ∀ {x : Nat} {a : Option Nat}, x ∈ symbolsOf triples → (∀ v, a = some v → v ∈ symbolsOf triples) →
      (a.map (number triples)).all (fun v => number triples x == v) = a.all fun v => x == v := by
    intro x a hx ha
    rcases a with _ | v
    · rfl
    · have hiff : number triples x = number triples v ↔ x = v :=
        ⟨number_inj hx (ha v rfl), fun h => h ▸ rfl⟩
      show (number triples x == number triples v) = (x == v)
      rw [Bool.eq_iff_iff, beq_iff_eq, beq_iff_eq, hiff]
  unfold rowMatches
  rw [show (denseRow triples t).1 = number triples t.1 from rfl,
    show (denseRow triples t).2.1 = number triples t.2.1 from rfl, hone ht.1 hlead, hone ht.2.1 hmid]

theorem column_map_number (hrows : ∀ t ∈ rows, Known triples t) (c : Col)
    (hlead : ∀ v, lead = some v → v ∈ symbolsOf triples) (hmid : ∀ v, mid = some v → v ∈ symbolsOf triples) :
    column (rows.map (denseRow triples)) c (lead.map (number triples)) (mid.map (number triples)) =
        (column rows c lead mid).map (number triples) ∧
      ∀ v ∈ column rows c lead mid, v ∈ symbolsOf triples := by
  obtain ⟨htable, hknown⟩ := table_map_denseRow hrows c
  constructor
  · unfold column
    rw [htable, filter_map, map_map, map_map]
    have hfilter : (table rows c).filter (rowMatches (lead.map (number triples)) (mid.map (number triples)) ∘
        denseRow triples) = (table rows c).filter (rowMatches lead mid) := by
      apply filter_congr
      intro t ht
      exact rowMatches_denseRow (hknown t ht) hlead hmid
    rw [hfilter]
    rfl
  · intro v hv
    obtain ⟨t, ht, -, rfl⟩ := mem_column.mp hv
    exact (hknown t ht).2.2

theorem pairwise_map_number_iff (hl : ∀ v ∈ l, v ∈ symbolsOf triples) :
    (l.map (number triples)).Pairwise (· ≤ ·) ↔ l.Pairwise (· ≤ ·) := by
  rw [pairwise_map]
  constructor
  · intro h
    exact List.Pairwise.imp_of_mem (fun ha hb hle => (number_le_iff (hl _ hb) _).mp hle) h
  · intro h
    exact List.Pairwise.imp_of_mem (fun ha hb hle => (number_le_iff (hl _ hb) _).mpr hle) h

theorem column_eq_nil_of_unknown (hrows : ∀ t ∈ rows, Known triples t) (c : Col)
    (h : (∃ v, lead = some v ∧ v ∉ symbolsOf triples) ∨
      ∃ v, mid = some v ∧ v ∉ symbolsOf triples) : column rows c lead mid = [] := by
  obtain ⟨-, hknown⟩ := table_map_denseRow hrows c
  rw [eq_nil_iff_forall_not_mem]
  intro w hw
  obtain ⟨t, ht, hm, -⟩ := mem_column.mp hw
  simp only [rowMatches, Bool.and_eq_true] at hm
  rcases h with ⟨v, rfl, hv⟩ | ⟨v, rfl, hv⟩
  · have heq : t.1 = v := by simpa using hm.1
    exact hv (heq ▸ (hknown t ht).1)
  · have heq : t.2.1 = v := by simpa using hm.2
    exact hv (heq ▸ (hknown t ht).2.1)

variable {s p o : Option Nat}

theorem oracleJoinScan_eq {target : Nat} (hown : ownOf s p o target = none) :
    oracleJoinScan triples s p o target = Sorted.ofList (scanOrder (distinctRows triples) s p o target) := by
  apply (pairwise_ofList _).eq_of_mem_iff (pairwise_ofList _)
  intro v
  have hfield : ∀ t, field t (min target 2) = field t target := by
    intro t
    rcases target with _ | _ | target
    · rfl
    · rfl
    · rw [show min (target + 1 + 1) 2 = 2 by omega]
      rfl
  rw [mem_ofList, mem_ofList, mem_scanOrder hown]
  simp only [mem_map, mem_filter, mem_distinctRows, and_assoc, hfield]

theorem known_of_lead_mid {target : Nat} {P : Nat → Prop} (hown : ownOf s p o target = none)
    (hlead : ∀ v, leadOf s p o target = some v → P v) (hmid : ∀ v, midOf s p o target = some v → P v) :
    (∀ v, s = some v → P v) ∧ (∀ v, p = some v → P v) ∧ ∀ v, o = some v → P v := by
  have hfree : ∀ {a : Option Nat}, a = none → ∀ v, a = some v → P v := by
    rintro a rfl v hv
    exact absurd hv (by simp)
  rcases target with _ | _ | target
  · exact ⟨hfree hown, hlead, hmid⟩
  · exact ⟨hmid, hfree hown, hlead⟩
  · exact ⟨hlead, hmid, hfree hown⟩

theorem mapBound_known (hsymbols : (symbolsOf triples).length < 2 ^ 32) (himg : ImageOf img triples)
    {a : Option Nat} (ha : ∀ v, a = some v → v ∈ symbolsOf triples) :
    img.mapBound a = some (a.map (number triples)) := by
  rcases a with _ | v
  · rfl
  · rw [BraidedGraphImage.mapBound, himg.remap]
    show ((IdRemap.fromTriples triples).toDense v).map some = _
    rw [toDense_of_mem hsymbols (ha v rfl)]
    rfl

theorem mapBound_unknown (himg : ImageOf img triples) {v : Nat} (hv : v ∉ symbolsOf triples) :
    img.mapBound (some v) = none := by
  rw [BraidedGraphImage.mapBound, himg.remap]
  show ((IdRemap.fromTriples triples).toDense v).map some = _
  rw [toDense_of_not_mem hv]
  rfl

theorem lists_empty (img : BraidedGraphImage) : img.cursor.Lists .empty [] := by
  apply Cursor.lists_of_invariant (R := fun it l => it = .empty ∧ l = [])
  · rintro _ _ ⟨rfl, rfl⟩
    exact ⟨rfl, fun k hk => absurd hk (by simp)⟩
  · rintro _ _ m ⟨rfl, rfl⟩
    rcases m with _ | target
    · exact ⟨.empty, rfl, rfl, rfl⟩
    · exact ⟨.empty, rfl, rfl, rfl⟩
  · exact ⟨rfl, rfl⟩

/-- With all constants numbered a scan of the dense rows, otherwise an empty one. -/
theorem exists_joinScan (hfits : FitsU32 triples) (himg : ImageOf img triples) {target : Nat}
    (hown : ownOf s p o target = none) : ∃ it, img.joinScanStreaming s p o target = some it ∧
      (img.cursor.Lists it (oracleJoinScan triples s p o target) ↔
        ReadsSorted (distinctRows triples) (targetCol target) (leadOf s p o target) (midOf s p o target)) := by
  have hrows : ∀ t ∈ distinctRows triples, Known triples t := fun t ht => symbols_of_mem (mem_distinctRows.mp ht)
  rw [oracleJoinScan_eq hown, scanOrder]
  unfold BraidedGraphImage.joinScanStreaming
  by_cases hknown : (∀ v, leadOf s p o target = some v → v ∈ symbolsOf triples) ∧
      ∀ v, midOf s p o target = some v → v ∈ symbolsOf triples
  · -- all constants have numbers
    obtain ⟨hlead, hmid⟩ := hknown
    obtain ⟨hs, hp, ho⟩ := known_of_lead_mid hown hlead hmid
    rw [mapBound_known hfits.symbols himg hs, mapBound_known hfits.symbols himg hp,
      mapBound_known hfits.symbols himg ho]
    obtain ⟨univ, hring, huniv, hlt⟩ := himg.ring
    have hlen : (BraidedGraphImage.denseOf triples).length < 2 ^ 32 := by
      rw [length_denseOf hfits]
      exact hfits.rows
    have hbuilt : Built (BraidedGraphImage.denseOf triples) univ :=
      ⟨denseOf_nodup triples, shared_denseOf hfits huniv, hlen, hlt⟩
    have hown' : ownOf (s.map (number triples)) (p.map (number triples)) (o.map (number triples)) (min target 2) =
        none := by
      rcases target with _ | _ | target
      · exact Option.map_eq_none_iff.mpr hown
      · exact Option.map_eq_none_iff.mpr hown
      · rw [show min (target + 1 + 1) 2 = 2 by omega]
        exact Option.map_eq_none_iff.mpr hown
    obtain ⟨kind, hkind, hpicked⟩ := hbuilt.picked_denseScanKind (show min target 2 < 3 by omega) hown'
    have hplaces : targetCol (min target 2) = targetCol target ∧
        leadOf (s.map (number triples)) (p.map (number triples)) (o.map (number triples)) (min target 2) =
          (leadOf s p o target).map (number triples) ∧
        midOf (s.map (number triples)) (p.map (number triples)) (o.map (number triples)) (min target 2) =
          (midOf s p o target).map (number triples) := by
      rcases target with _ | _ | target
      · exact ⟨rfl, rfl, rfl⟩
      · exact ⟨rfl, rfl, rfl⟩
      · rw [show min (target + 1 + 1) 2 = 2 by omega]
        exact ⟨rfl, rfl, rfl⟩
    rw [hplaces.1, hplaces.2.1, hplaces.2.2] at hpicked
    obtain ⟨hcolumn, hmem⟩ := column_map_number hrows (targetCol target) hlead hmid
    rw [← denseOf_eq hfits.symbols] at hcolumn
    have hdense : ∀ v ∈ column (BraidedGraphImage.denseOf triples) (targetCol target)
        ((leadOf s p o target).map (number triples)) ((midOf s p o target).map (number triples)),
        v < (symbolsOf triples).length := by
      intro v hv
      rw [hcolumn] at hv
      obtain ⟨x, hx, rfl⟩ := mem_map.mp hv
      exact number_lt_length (hmem x hx)
    obtain ⟨it, hit, hiff⟩ := openKind_lists_iff himg hfits.symbols hring hdense hpicked
    refine ⟨it, ?_, ?_⟩
    · rw [hring]
      simp only [hkind, Option.bind_eq_bind, Option.bind_some, hit]
    · -- the same list and the same condition, in ids
      have hlist : (Sorted.ofList ((column (distinctRows triples) (targetCol target) (leadOf s p o target)
          (midOf s p o target)).map (number triples))).map img.externalKey =
          Sorted.ofList (column (distinctRows triples) (targetCol target) (leadOf s p o target)
            (midOf s p o target)) := by
        apply List.Pairwise.eq_of_mem_iff _ (pairwise_ofList _)
        · intro v
          simp only [mem_map, mem_ofList]
          constructor
          · rintro ⟨_, ⟨x, hx, rfl⟩, rfl⟩
            rw [externalKey_number himg (hmem x hx)]
            exact hx
          · intro hv
            exact ⟨number triples v, ⟨v, hv, rfl⟩, externalKey_number himg (hmem v hv)⟩
        · apply pairwise_map.mpr
          apply List.Pairwise.imp_of_mem _ (pairwise_ofList _)
          intro a b ha hb hlt
          obtain ⟨x, hx, rfl⟩ := mem_map.mp (mem_ofList.mp ha)
          obtain ⟨y, hy, rfl⟩ := mem_map.mp (mem_ofList.mp hb)
          rw [externalKey_number himg (hmem x hx), externalKey_number himg (hmem y hy)]
          exact (number_lt_iff (hmem x hx) _).mp hlt
      rw [hcolumn, hlist] at hiff
      rw [hiff]
      unfold ReadsSorted
      rw [hcolumn, length_map, pairwise_map_number_iff hmem, Option.map_eq_none_iff, Option.map_eq_none_iff]
  · -- a constant without a number: nothing matches
    have hunknown : (∃ v, leadOf s p o target = some v ∧ v ∉ symbolsOf triples) ∨
        ∃ v, midOf s p o target = some v ∧ v ∉ symbolsOf triples := by
      by_contra hnot
      push Not at hnot
      exact hknown ⟨fun v hv => hnot.1 v hv, fun v hv => hnot.2 v hv⟩
    have hnil := column_eq_nil_of_unknown hrows (targetCol target) hunknown
    refine ⟨.empty, ?_, ?_⟩
    · have hnone : img.mapBound s = none ∨ img.mapBound p = none ∨ img.mapBound o = none := by
        rcases target with _ | _ | target
        · rcases hunknown with ⟨v, hv, hx⟩ | ⟨v, hv, hx⟩
          · exact .inr (.inl ((congrArg img.mapBound hv).trans (mapBound_unknown himg hx)))
          · exact .inr (.inr ((congrArg img.mapBound hv).trans (mapBound_unknown himg hx)))
        · rcases hunknown with ⟨v, hv, hx⟩ | ⟨v, hv, hx⟩
          · exact .inr (.inr ((congrArg img.mapBound hv).trans (mapBound_unknown himg hx)))
          · exact .inl ((congrArg img.mapBound hv).trans (mapBound_unknown himg hx))
        · rcases hunknown with ⟨v, hv, hx⟩ | ⟨v, hv, hx⟩
          · exact .inl ((congrArg img.mapBound hv).trans (mapBound_unknown himg hx))
          · exact .inr (.inl ((congrArg img.mapBound hv).trans (mapBound_unknown himg hx)))
      split
      · rename_i h₁ h₂ h₃
        rw [h₁, h₂, h₃] at hnone
        exact absurd hnone (by simp)
      · rfl
    · rw [hnil]
      refine iff_of_true (lists_empty img) ?_
      intro _ hlen
      rw [hnil] at hlen
      exact absurd hlen (by decide)

/-! ## The scan of a pattern -/

/-- An image built from the triples, on the heap or mapped. -/
def BuiltFrom (triples : List Row) (img : BraidedGraphImage) : Prop :=
  img = .fromExternalTriples triples ∨
    ∃ huff, img = (BraidedGraphImage.fromExternalTriples triples).materializeMapped huff

theorem BuiltFrom.imageOf (hfits : FitsU32 triples) (h : BuiltFrom triples img) : ImageOf img triples := by
  rcases h with rfl | ⟨huff, rfl⟩
  · exact imageOf_fromExternalTriples hfits.symbols
  · exact (imageOf_fromExternalTriples hfits.symbols).materializeMapped huff

/-- The scan of a pattern lists exactly the target's ids, and seeks among them, if and only if the
rows it reads into a list are sorted by the target. -/
theorem joinScan_lists_iff (triples : List Row) (img : BraidedGraphImage) (hfits : FitsU32 triples)
    (himg : BuiltFrom triples img) (s p o : Option Nat) (target : Nat) (hown : ownOf s p o target = none) :
    (∃ it, img.joinScanStreaming s p o target = some it ∧
        img.cursor.Lists it (oracleJoinScan triples s p o target)) ↔
      ReadsSorted (distinctRows triples) (targetCol target) (leadOf s p o target) (midOf s p o target) := by
  obtain ⟨it, hit, hiff⟩ := exists_joinScan hfits (himg.imageOf hfits) hown
  constructor
  · rintro ⟨it', hit', hlists⟩
    rw [hit, Option.some.injEq] at hit'
    subst hit'
    exact hiff.mp hlists
  · intro h
    exact ⟨it, hit, hiff.mpr h⟩

/-- Two objects of a subject, from a mapped image. -/
theorem joinScan_lists_two : ∃ it,
    ((BraidedGraphImage.fromExternalTriples [(5, 9, 7), (5, 8, 6)]).materializeMapped true).joinScanStreaming
        (some 5) none none 2 = some it ∧
      ((BraidedGraphImage.fromExternalTriples [(5, 9, 7), (5, 8, 6)]).materializeMapped true).cursor.Lists it
        (oracleJoinScan [(5, 9, 7), (5, 8, 6)] (some 5) none none 2) :=
  (joinScan_lists_iff [(5, 9, 7), (5, 8, 6)] _ ⟨by decide, by decide⟩ (.inr ⟨true, rfl⟩) (some 5) none none 2
    rfl).mpr fun _ hlen => absurd hlen (by decide)

/-- A subject with seventeen predicates, the objects in the opposite order. -/
def crossedTriples : List Row := (List.range 17).map fun i => (0, i + 1, 40 - i)

/-- Its objects are listed in the order of the predicates. -/
theorem crossedTriples_not_listed :
    ¬ ∃ it, (BraidedGraphImage.fromExternalTriples crossedTriples).joinScanStreaming (some 0) none none 2 = some it ∧
      (BraidedGraphImage.fromExternalTriples crossedTriples).cursor.Lists it
        (oracleJoinScan crossedTriples (some 0) none none 2) := by
  have hfits : FitsU32 crossedTriples := ⟨by decide +kernel, by decide +kernel⟩
  have hfree : ownOf (some 0) none none 2 = none := rfl
  obtain ⟨it, hit, hiff⟩ := exists_joinScan hfits (imageOf_fromExternalTriples hfits.symbols) hfree
  rintro ⟨it', hit', hlists⟩
  rw [hit, Option.some.injEq] at hit'
  subst hit'
  have hsorted := hiff.mp hlists (by simp [leadOf]) (by decide +kernel) (by decide +kernel)
  exact absurd hsorted (by decide +kernel)

end Nova.Ring
