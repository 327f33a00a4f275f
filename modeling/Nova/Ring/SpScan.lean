import Nova.Ring.JoinScan
import Nova.Lib.Loop

/-!
# The objects of a subject under a predicate

`PreparedSpObjectScan` lists the objects of one subject after another, under a fixed
predicate. The rows of a subject are looked up in a table over all subjects
(`PredicateAdjacency`) or searched. One object is kept as it is, up to 32 rows are read
into a list, more are walked in the mapped file; the cursor of such a walk is parked and
used again for the next long range.

What a scan lists after a reset does not depend on what it listed before, nor on how far
it had come: `Of.resetFromRange_twin`,
`Of.resetToSubject_twin`.

A read outside an array is `none`.
-/

namespace Nova.Ring

open Nova.Lib

/-! ## The rows of every subject -/

inductive PredAdjacencyMode where
  | off
  | eager
  | native
  deriving Repr, DecidableEq

namespace CyclicRing

variable (r : CyclicRing)

/-- The loop over `range_next_value`: the symbols of a range from `cur` on, each once. -/
def valuesFrom (c : Col) (range : RowRange) : Nat → Nat → List Nat
  | 0, _ => []
  | rounds + 1, cur =>
    match r.rangeNextValue c range cur with
    | none => []
    | some v => v :: if v = 2 ^ 32 - 1 then [] else valuesFrom c range rounds (v + 1)

/-- A range has no more symbols than rows. -/
def distinctValues (c : Col) (range : RowRange) : List Nat := r.valuesFrom c range (r.segment c range).length 0

/-- The symbols of a range, row by row. -/
def accessRange (c : Col) (range : RowRange) : Option (List Nat) :=
  (List.range' range.start range.len).mapM fun pos => r.access c pos

end CyclicRing

/-- The rows of each subject under one predicate: `starts` and `ends`. -/
structure PredicateAdjacency where
  starts : List Nat
  stops : List Nat
  deriving Repr, DecidableEq

namespace PredicateAdjacency

def rangeForSubject (adj : PredicateAdjacency) (s : Nat) : Option RowRange := do
  let start ← adj.starts[s]?
  let stop ← adj.stops[s]?
  some ⟨start, stop⟩

/-- No subject has a row. -/
def zeros (n : Nat) : PredicateAdjacency := ⟨List.replicate n 0, List.replicate n 0⟩

def set (adj : PredicateAdjacency) (s : Nat) (range : RowRange) : PredicateAdjacency :=
  ⟨adj.starts.set s range.start, adj.stops.set s range.stop⟩

variable (r : CyclicRing)

/-- A search for each subject of the predicate. -/
def buildEager (pred univ : Nat) : Option PredicateAdjacency := do
  let rp ← r.rangeP pred
  (r.distinctValues .S rp).foldlM (fun adj s => do
    let range ← r.rangeSp s pred
    some (if s < max univ 1 then adj.set s range else adj)) (zeros (max univ 1))

/-- A search in the rows of each subject. -/
def buildNative (pred univ : Nat) : Option PredicateAdjacency :=
  (List.range (min ((r.colA .S).length - 1) (max univ 1))).foldlM (fun adj s => do
    let startS ← (r.colA .S)[s]?
    let stopS ← (r.colA .S)[s + 1]?
    if stopS ≤ startS then some adj
    else do
      let start ← lowerBoundMiddle r.middlePSpo startS stopS pred
      let stop ← if pred = 2 ^ 32 - 1 then some stopS else lowerBoundMiddle r.middlePSpo start stopS (pred + 1)
      some (adj.set s ⟨start, stop⟩)) (zeros (max univ 1))

/-- No table in the mode `off`. -/
def build (pred univ : Nat) : PredAdjacencyMode → Option (Option PredicateAdjacency)
  | .off => some none
  | .eager => (buildEager r pred univ).map some
  | .native => (buildNative r pred univ).map some

end PredicateAdjacency

/-! ## The scan -/

def spSmallRangeAccess : Nat := 32

/-- Where the scan stands; `mapped` is a walk over the last column in the mapped file. -/
inductive SpObjectBody where
  | empty
  | singletonDense (d : Nat)
  | materializedDense (vals : List Nat) (pos : Nat)
  | mapped (scan : ScanIter)
  deriving Repr, DecidableEq

/-- `PreparedSpObjectScanImpl`. -/
structure PreparedSpObjectScan where
  img : BraidedGraphImage
  predDense : Nat
  /-- Without a table the rows are searched. -/
  adj : Option PredicateAdjacency
  body : SpObjectBody
  mappedHold : Option ScanIter
  lastRangeLen : Nat
  deriving Repr, DecidableEq

namespace BraidedGraphImage

variable (img : BraidedGraphImage)

/-- `reset_to_range` of a mapped walk. -/
def resetToRange (scan : ScanIter) (range : RowRange) : Bool × ScanIter :=
  match scan with
  | .mapped col _ rdi mode current =>
    if range.isEmpty then (false, .mapped col range rdi mode none)
    else if col = .P ∧ img.mapped = true ∧ img.cpIsHuff = true then
      let first := img.ring.rangeNextValue col range 0
      (first.isSome, .mapped col range rdi .rnv first)
    else if img.mapped then
      let distinct := Sorted.ofList (img.ring.segment col range)
      (true, .mapped col range distinct.tail .rdi distinct.head?)
    else (false, .mapped col range rdi .rdi current)
  | other => (false, other)

/-- `build_shared_adj`: no table for a predicate without a number. -/
def buildSharedAdj (predicate : Nat) (mode : PredAdjacencyMode) : Option (Option PredicateAdjacency) :=
  match img.remap.toDense predicate with
  | none => some none
  | some pred => PredicateAdjacency.build img.ring pred img.remap.universeSize mode

/-- The symbols of a range with equal neighbours collapsed. -/
def materializeDense (range : RowRange) : Option (List Nat) :=
  (img.ring.accessRange .O range).map (dropRuns none)

end BraidedGraphImage

namespace PreparedSpObjectScan

/-- Only over a mapped image. -/
def prepareWithSharedAdj (img : BraidedGraphImage) (predicate : Nat) (adj : Option PredicateAdjacency) :
    Option PreparedSpObjectScan :=
  if img.mapped then
    (img.remap.toDense predicate).map fun pred => ⟨img, pred, adj, .empty, none, 0⟩
  else none

def prepare (img : BraidedGraphImage) (predicate : Nat) : Option PreparedSpObjectScan :=
  prepareWithSharedAdj img predicate none

variable (h : PreparedSpObjectScan)

/-- The number of the current object, where it is at hand. -/
def keyDense : Option Nat :=
  match h.body with
  | .singletonDense d => some d
  | .materializedDense vals pos => vals[pos]?
  | _ => none

/-- The live walk becomes the parked one. -/
def parkMappedBody : PreparedSpObjectScan :=
  match h.body with
  | .mapped scan => { h with body := .empty, mappedHold := some scan }
  | _ => { h with body := .empty }

/-- Opens the rows of a range; a parked walk is used again if the caller prefers so. -/
def bindRange (range : RowRange) (preferCheapRebind : Bool) : Option (Bool × PreparedSpObjectScan) :=
  if range.isEmpty then some (false, { h with body := .empty, lastRangeLen := range.len })
  else if range.len ≤ spSmallRangeAccess then
    if range.len = 1 then do
      let d ← h.img.ring.access .O range.start
      some (true, { h with body := .singletonDense d, lastRangeLen := range.len })
    else do
      let vals ← h.img.materializeDense range
      if vals.isEmpty then some (false, { h with body := .empty, lastRangeLen := range.len })
      else some (true, { h with body := .materializedDense vals 0, lastRangeLen := range.len })
  else
    let hold :=
      match preferCheapRebind, h.mappedHold with
      | true, some cur =>
        let (ok, cur) := h.img.resetToRange cur range
        if ok then some cur else none
      | _, _ => h.img.openMapped .O range
    match hold with
    | none => some (false, { h with body := .empty, mappedHold := none, lastRangeLen := range.len })
    | some scan => some (true, { h with body := .mapped scan, mappedHold := none, lastRangeLen := range.len })

def resetFromRange (range : RowRange) (cacheHit : Bool) : Option (Bool × PreparedSpObjectScan) :=
  h.parkMappedBody.bindRange range cacheHit

/-- A walk is live or parked. -/
def holdsMapped : Bool :=
  h.mappedHold.isSome ||
    match h.body with
    | .mapped _ => true
    | _ => false

def resetToSubject (subject : Nat) : Option (Bool × PreparedSpObjectScan) :=
  let closed := { h.parkMappedBody with body := .empty, lastRangeLen := 0 }
  match h.img.remap.toDense subject with
  | none => some (false, closed)
  | some s =>
    match h.adj with
    | some adj =>
      match adj.rangeForSubject s with
      | none => some (false, closed)
      | some range => h.parkMappedBody.bindRange range h.holdsMapped
    | none => do
      let range ← h.img.ring.rangeSp s h.predDense
      h.parkMappedBody.bindRange range h.holdsMapped

def atEnd : Bool :=
  match h.body with
  | .empty => true
  | .singletonDense _ => false
  | .materializedDense vals pos => decide (vals.length ≤ pos)
  | .mapped scan => BraidedGraphImage.atEnd scan

def key : Option Nat :=
  match h.body with
  | .empty => none
  | .singletonDense d => some (h.img.externalKey d)
  | .materializedDense vals pos => vals[pos]?.map h.img.externalKey
  | .mapped scan => h.img.key scan

def advance : Option PreparedSpObjectScan :=
  match h.body with
  | .empty => some h
  | .singletonDense _ => some { h with body := .empty }
  | .materializedDense vals pos => some { h with body := .materializedDense vals (pos + 1) }
  | .mapped scan => (h.img.advance scan).map fun scan => { h with body := .mapped scan }

/-! ## What a reset forgets -/

/-- A walk over the objects, wherever it stands. -/
def WalksObjects (scan : ScanIter) : Prop :=
  ∃ range rdi mode current, scan = .mapped .O range rdi mode current

/-- A scan prepared like `base`, in any state. -/
structure Of (base h : PreparedSpObjectScan) : Prop where
  img : h.img = base.img
  predDense : h.predDense = base.predDense
  adj : h.adj = base.adj
  hold : ∀ scan, h.mappedHold = some scan → WalksObjects scan
  body : ∀ scan, h.body = .mapped scan → WalksObjects scan

/-- Two such scans that list the same. -/
structure Twin (base h k : PreparedSpObjectScan) : Prop where
  left : Of base h
  right : Of base k
  body : h.body = k.body

/-- Two resets that fail together, or open the same objects, or none. -/
def SameReset (base : PreparedSpObjectScan) (x y : Option (Bool × PreparedSpObjectScan)) : Prop :=
  (x = none ∧ y = none) ∨ ∃ ok h k, x = some (ok, h) ∧ y = some (ok, k) ∧ Of base h ∧ Of base k ∧
    (ok = true → h.body = k.body)

variable {h} {base k : PreparedSpObjectScan}

variable {img : BraidedGraphImage}

theorem prepared_from {predicate : Nat} {adj : Option PredicateAdjacency}
    (hprep : prepareWithSharedAdj img predicate adj = some base) : base.img = img ∧ base.adj = adj := by
  rw [prepareWithSharedAdj] at hprep
  by_cases hmapped : img.mapped = true
  · rw [if_pos hmapped] at hprep
    obtain ⟨pred, -, rfl⟩ := Option.map_eq_some_iff.mp hprep
    exact ⟨rfl, rfl⟩
  · rw [if_neg hmapped] at hprep
    exact absurd hprep (by simp)

theorem of_prepared {predicate : Nat} {adj : Option PredicateAdjacency}
    (hprep : prepareWithSharedAdj img predicate adj = some base) : Of base base := by
  rw [prepareWithSharedAdj] at hprep
  by_cases hmapped : img.mapped = true
  · rw [if_pos hmapped] at hprep
    obtain ⟨pred, -, rfl⟩ := Option.map_eq_some_iff.mp hprep
    refine ⟨rfl, rfl, rfl, ?_, ?_⟩
    · intro scan hscan
      exact absurd hscan (by simp)
    · intro scan hscan
      exact absurd hscan (by simp)
  · rw [if_neg hmapped] at hprep
    exact absurd hprep (by simp)

theorem Of.park (hof : Of base h) : Of base h.parkMappedBody := by
  have hbody := hof.body
  rcases h with ⟨img, pred, adj, body, hold, len⟩
  rcases body with _ | d | ⟨vals, pos⟩ | scan
  · exact ⟨hof.img, hof.predDense, hof.adj, hof.hold, fun _ he => by cases he⟩
  · exact ⟨hof.img, hof.predDense, hof.adj, hof.hold, fun _ he => by cases he⟩
  · exact ⟨hof.img, hof.predDense, hof.adj, hof.hold, fun _ he => by cases he⟩
  · -- the live walk is parked
    refine ⟨hof.img, hof.predDense, hof.adj, ?_, fun _ he => by cases he⟩
    rintro parked hparked
    obtain rfl : scan = parked := Option.some.inj hparked
    exact hbody scan rfl

theorem Of.closed (hof : Of base h) (len : Nat) : Of base { h with body := .empty, lastRangeLen := len } :=
  ⟨hof.img, hof.predDense, hof.adj, hof.hold, fun _ he => by cases he⟩

variable {range : RowRange} {scan : ScanIter}

theorem resetToRange_eq (hscan : WalksObjects scan)
    (hne : range.isEmpty = false) : (let (ok, cur) := img.resetToRange scan range
     if ok then some cur else none) = img.openMapped .O range := by
  obtain ⟨_, rdi, mode, current, rfl⟩ := hscan
  simp only [BraidedGraphImage.resetToRange, BraidedGraphImage.openMapped, hne]
  by_cases hmapped : img.mapped = true
  · simp [hmapped]
  · simp [hmapped]

theorem Of.hold_eq (hof : Of base h) (hne : range.isEmpty = false) (prefer : Bool) :
    (match prefer, h.mappedHold with
      | true, some cur =>
        let (ok, cur) := h.img.resetToRange cur range
        if ok then some cur else none
      | _, _ => h.img.openMapped .O range) = base.img.openMapped .O range := by
  rw [hof.img]
  rcases prefer with _ | _
  · rfl
  rcases hhold : h.mappedHold with _ | cur
  · rfl
  · exact resetToRange_eq (hof.hold cur hhold) hne

theorem walksObjects_open
    (hopen : img.openMapped .O range = some scan) : WalksObjects scan := by
  rw [BraidedGraphImage.openMapped] at hopen
  by_cases hnone : (!img.mapped || range.isEmpty) = true
  · rw [if_pos hnone] at hopen
    exact absurd hopen (by simp)
  · rw [if_neg hnone, if_neg (by simp)] at hopen
    exact ⟨_, _, _, _, (Option.some.inj hopen).symm⟩

theorem Of.with_body (hof : Of base h) {body : SpObjectBody}
    (hbody : ∀ scan, body = .mapped scan → WalksObjects scan)
    (len : Nat) : Of base { h with body := body, lastRangeLen := len } :=
  ⟨hof.img, hof.predDense, hof.adj, hof.hold, hbody⟩

/-- Two handles over one image are reset alike, whatever they prefer. -/
theorem Of.bindRange_twin (hh : Of base h) (hk : Of base k) (range : RowRange) (prefer prefer' : Bool) :
    SameReset base (h.bindRange range prefer) (k.bindRange range prefer') := by
  have hsame : ∀ {body : SpObjectBody}, (∀ scan, body = .mapped scan → WalksObjects scan) → ∀ ok : Bool,
      SameReset base (some (ok, { h with body := body, lastRangeLen := range.len }))
        (some (ok, { k with body := body, lastRangeLen := range.len })) := by
    intro body hbody ok
    exact .inr ⟨ok, _, _, rfl, rfl, hh.with_body hbody _, hk.with_body hbody _, fun _ => rfl⟩
  have hread : ∀ {α : Type} (f : BraidedGraphImage → Option α), f h.img = f base.img ∧ f k.img = f base.img :=
    fun f => ⟨congrArg f hh.img, congrArg f hk.img⟩
  unfold bindRange
  by_cases hempty : range.isEmpty = true
  · rw [if_pos hempty, if_pos hempty]
    exact hsame (fun _ he => by cases he) false
  rw [if_neg hempty, if_neg hempty]
  by_cases hsmall : range.len ≤ spSmallRangeAccess
  · rw [if_pos hsmall, if_pos hsmall]
    by_cases hone : range.len = 1
    · -- one object
      rw [if_pos hone, if_pos hone, (hread fun img => img.ring.access .O range.start).1,
        (hread fun img => img.ring.access .O range.start).2]
      rcases base.img.ring.access .O range.start with _ | d
      · exact .inl ⟨rfl, rfl⟩
      · exact hsame (fun _ he => by cases he) true
    · rw [if_neg hone, if_neg hone, (hread fun img => img.materializeDense range).1,
        (hread fun img => img.materializeDense range).2]
      rcases base.img.materializeDense range with _ | vals
      · exact .inl ⟨rfl, rfl⟩
      · show SameReset base (if vals.isEmpty = true then _ else _) (if vals.isEmpty = true then _ else _)
        by_cases hvals : vals.isEmpty = true
        · rw [if_pos hvals, if_pos hvals]
          exact hsame (fun _ he => by cases he) false
        · rw [if_neg hvals, if_neg hvals]
          exact hsame (fun _ he => by cases he) true
  · -- a long range is walked, in a new or in a parked cursor
    have hne : range.isEmpty = false := by simpa using hempty
    have hlong : ∀ {body : SpObjectBody}, (∀ scan, body = .mapped scan → WalksObjects scan) → ∀ ok : Bool,
        SameReset base (some (ok, { h with body := body, mappedHold := none, lastRangeLen := range.len }))
          (some (ok, { k with body := body, mappedHold := none, lastRangeLen := range.len })) := by
      intro body hbody ok
      exact .inr ⟨ok, _, _, rfl, rfl, ⟨hh.img, hh.predDense, hh.adj, fun _ he => (by cases he), hbody⟩,
        ⟨hk.img, hk.predDense, hk.adj, fun _ he => (by cases he), hbody⟩, fun _ => rfl⟩
    rw [if_neg hsmall, if_neg hsmall, hh.hold_eq hne, hk.hold_eq hne]
    rcases hopen : base.img.openMapped .O range with _ | scan
    · exact hlong (fun _ he => by cases he) false
    · apply hlong
      intro live hlive
      obtain rfl : scan = live := SpObjectBody.mapped.inj hlive
      exact walksObjects_open hopen

theorem Of.resetFromRange_twin (hh : Of base h) (hk : Of base k) (range : RowRange) (hit hit' : Bool) :
    SameReset base (h.resetFromRange range hit) (k.resetFromRange range hit') :=
  hh.park.bindRange_twin hk.park range hit hit'

theorem Of.resetToSubject_twin (hh : Of base h) (hk : Of base k) (subject : Nat) :
    SameReset base (h.resetToSubject subject) (k.resetToSubject subject) := by
  have hclosed : SameReset base (some (false, { h.parkMappedBody with body := .empty, lastRangeLen := 0 }))
      (some (false, { k.parkMappedBody with body := .empty, lastRangeLen := 0 })) :=
    .inr ⟨_, _, _, rfl, rfl, hh.park.closed 0, hk.park.closed 0, fun _ => rfl⟩
  unfold resetToSubject
  rw [hh.img, hk.img, hh.adj, hk.adj, hh.predDense, hk.predDense]
  rcases base.img.remap.toDense subject with _ | s
  · exact hclosed
  rcases base.adj with _ | adj
  · -- the rows are searched
    dsimp only
    rcases base.img.ring.rangeSp s base.predDense with _ | range
    · exact .inl ⟨rfl, rfl⟩
    · exact hh.park.bindRange_twin hk.park range _ _
  · dsimp only
    rcases adj.rangeForSubject s with _ | range
    · exact hclosed
    · exact hh.park.bindRange_twin hk.park range _ _

/-! ## The loop over the objects -/

theorem Twin.atEnd_eq (ht : Twin base h k) : h.atEnd = k.atEnd := by
  rw [atEnd, atEnd, ht.body]

theorem Twin.key_eq (ht : Twin base h k) : h.key = k.key := by
  rw [key, key, ht.body, ht.left.img, ht.right.img]

theorem Twin.keyDense_eq (ht : Twin base h k) : h.keyDense = k.keyDense := by
  rw [keyDense, keyDense, ht.body]

theorem walksObjects_advance {scan' : ScanIter} (hscan : WalksObjects scan)
    (hadv : img.advance scan = some scan') : WalksObjects scan' := by
  obtain ⟨range, rdi, mode, current, rfl⟩ := hscan
  rcases current with _ | cur
  · exact ⟨_, _, _, _, (Option.some.inj hadv).symm⟩
  rcases mode with _ | _
  · exact ⟨_, _, _, _, (Option.some.inj hadv).symm⟩
  · rw [BraidedGraphImage.advance] at hadv
    by_cases hmax : cur = 2 ^ 32 - 1
    · rw [if_pos hmax] at hadv
      exact ⟨_, _, _, _, (Option.some.inj hadv).symm⟩
    · rw [if_neg hmax] at hadv
      exact ⟨_, _, _, _, (Option.some.inj hadv).symm⟩

theorem Of.advance {h' : PreparedSpObjectScan} (hof : Of base h) (hadv : h.advance = some h') : Of base h' := by
  unfold PreparedSpObjectScan.advance at hadv
  rcases hbody : h.body with _ | d | ⟨vals, pos⟩ | scan <;> rw [hbody] at hadv
  · obtain rfl : h = h' := Option.some.inj hadv
    exact hof
  · obtain rfl := Option.some.inj hadv
    exact ⟨hof.img, hof.predDense, hof.adj, hof.hold, fun _ he => by cases he⟩
  · obtain rfl := Option.some.inj hadv
    exact ⟨hof.img, hof.predDense, hof.adj, hof.hold, fun _ he => by cases he⟩
  · obtain ⟨scan', hscan', rfl⟩ := Option.map_eq_some_iff.mp hadv
    refine ⟨hof.img, hof.predDense, hof.adj, hof.hold, ?_⟩
    rintro live hlive
    obtain rfl : scan' = live := SpObjectBody.mapped.inj hlive
    exact walksObjects_advance (hof.body scan hbody) hscan'

theorem Twin.advance (ht : Twin base h k) : (h.advance = none ∧ k.advance = none) ∨
    ∃ h' k', h.advance = some h' ∧ k.advance = some k' ∧ Twin base h' k' := by
  have hbodies : h.advance.map (·.body) = k.advance.map (·.body) := by
    unfold PreparedSpObjectScan.advance
    rw [← ht.body, ht.left.img, ht.right.img]
    rcases hbody : h.body with _ | d | ⟨vals, pos⟩ | scan
    · exact congrArg some ht.body
    · rfl
    · rfl
    · dsimp only
      rcases base.img.advance scan with _ | scan' <;> rfl
  rcases hleft : h.advance with _ | h' <;> rcases hright : k.advance with _ | k' <;> rw [hleft, hright] at hbodies
  · exact .inl ⟨rfl, rfl⟩
  · exact absurd hbodies (by simp)
  · exact absurd hbodies (by simp)
  · exact .inr ⟨h', k', rfl, rfl, ht.left.advance hleft, ht.right.advance hright, Option.some.inj hbodies⟩

end PreparedSpObjectScan

end Nova.Ring
