import Nova.Ring.SpScan
import Nova.Ring.Match

/-!
# Prepared operators

The six specialized join bodies of the ring engine: two-hop, wedge, expansion, 3-chain,
star and directed triangle. Each is prepared once for an image and executed any number of
times; between executions it keeps its scans, wherever the last execution left them. A row
is handed to a callback, and an execution is left as soon as the callback returns an error.

An execution of an operator in any state gives the rows of a freshly prepared one, with one
exception: the expansion takes its list of subjects out of the operator and puts it back
at the end only (`PreparedPhysicalOp.execute_fresh`).

Rounds of the loops are bounded by `rounds`. The count that an execution returns is the
number of its rows; the counters and timings are left out.
-/

namespace Nova.Ring

open Nova.Lib

/-! ## Executions -/

/-- Why an execution is left. -/
inductive Exit where
  /-- The callback returned an error. -/
  | err
  /-- A read outside an array: the source panics. -/
  | outOfBounds
  /-- The loops need more rounds. -/
  | spent
  deriving Repr, DecidableEq

/-- The rows handed out, oldest first. -/
abbrev Emitted := List (List Nat)

/-- The callback: given the rows before, whether it takes the next one. -/
abbrev Emit := Emitted → List Nat → Bool

def emitRow (emit : Emit) (row : List Nat) (out : Emitted) : Leave Exit Emitted :=
  (if emit out row then none else some .err, out ++ [row])

/-- The settings that are read from the environment. -/
structure PathConfig where
  adjMode : PredAdjacencyMode
  wedgeLeftOnce : Nat
  d1TinyMerge : Nat
  planCache : Bool
  deriving Repr, DecidableEq

def stepOf {γ : Type} : Option γ → Except Exit γ
  | none => .error .outOfBounds
  | some c => .ok c

/-- The loop over the objects of a scan. -/
def objectWalk : Walk PreparedSpObjectScan Exit where
  atEnd := PreparedSpObjectScan.atEnd
  advance := fun h => stepOf h.advance
  spent := .spent

/-- The loop over the keys of a join scan. -/
def keyWalk (img : BraidedGraphImage) : Walk ScanIter Exit where
  atEnd := BraidedGraphImage.atEnd
  advance := fun it => stepOf (img.advance it)
  spent := .spent

/-- The loop over the objects a reset opens, if it opens any. -/
def forObjects {σ : Type} (rounds : Nat) (body : PreparedSpObjectScan → σ → Leave Exit σ)
    (hop : PreparedSpObjectScan) (reset : Option (Bool × PreparedSpObjectScan)) (s : σ) :
    Leave Exit (PreparedSpObjectScan × σ) :=
  match reset with
  | none => (some .outOfBounds, hop, s)
  | some (false, hop) => (none, hop, s)
  | some (true, hop) => objectWalk.loop body rounds hop s

/-- `while !scan.at_end()` over the subjects of a predicate. -/
def forSubjects {σ : Type} (img : BraidedGraphImage) (rounds : Nat) (predicate : Nat)
    (body : Nat → σ → Leave Exit σ)
    (s : σ) : Leave Exit σ :=
  match img.joinScanStreaming none (some predicate) none 0 with
  | none => (some .outOfBounds, s)
  | some it =>
    let (exit, _, s) := (keyWalk img).loop (fun it s =>
      match img.key it with
      | none => (some .outOfBounds, s)
      | some a => body a s) rounds it s
    (exit, s)

/-! ## Ranges under a table or a cache -/

/-- The ranges an execution has searched so far, by subject. -/
abbrev RangeCache := List (Option RowRange)

def rangeCache (img : BraidedGraphImage) (adj : Option PredicateAdjacency) : RangeCache :=
  match adj with
  | some _ => []
  | none => List.replicate (max img.remap.universeSize 1) none

/-- Opens the objects of a subject: by the table, by the cache, or by a search. -/
def resetDense (img : BraidedGraphImage) (adj : Option PredicateAdjacency) (pred subject s : Nat)
    (hop : PreparedSpObjectScan) (cache : RangeCache) : Option (Bool × PreparedSpObjectScan) × RangeCache :=
  match adj with
  | some adj =>
    match adj.rangeForSubject s with
    | some range => (hop.resetFromRange range true, cache)
    | none => (some (false, hop), cache)
  | none =>
    match cache[s]? with
    | some (some cached) => (hop.resetFromRange cached true, cache)
    | some none =>
      match img.ring.rangeSp s pred with
      | none => (none, cache)
      | some range => (hop.resetFromRange range false, cache.set s (some range))
    | none => (hop.resetToSubject subject, cache)

/-- `reset_hop`: the same for a subject given by its id. -/
def resetHop (img : BraidedGraphImage) (adj : Option PredicateAdjacency) (pred subject : Nat)
    (hop : PreparedSpObjectScan) (cache : RangeCache) : Option (Bool × PreparedSpObjectScan) × RangeCache :=
  match img.remap.toDense subject with
  | none => (some (false, hop), cache)
  | some s => resetDense img adj pred subject s hop cache

/-- One level of a nested walk: a scan, the cache of its ranges, and the rows. -/
structure Level where
  hop : PreparedSpObjectScan
  cache : RangeCache

/-- Opens a level and walks it. -/
def forLevel {σ : Type} (rounds : Nat)
    (reset : PreparedSpObjectScan → RangeCache → Option (Bool × PreparedSpObjectScan) × RangeCache)
    (body : PreparedSpObjectScan → σ → Leave Exit σ) (l : Level) (s : σ) : Leave Exit (Level × σ) :=
  let (opened, cache) := reset l.hop l.cache
  let (exit, hop, s) := forObjects rounds body l.hop opened s
  (exit, ⟨hop, cache⟩, s)

/-! ## Two-hop -/

structure PreparedTwoHop where
  img : BraidedGraphImage
  p1 : Nat
  hop1 : PreparedSpObjectScan
  hop2 : PreparedSpObjectScan
  p2Dense : Nat
  p2Adj : Option PredicateAdjacency
  deriving Repr, DecidableEq

namespace PreparedTwoHop

/-- `none` is a read outside an array, `some none` a shape that cannot be prepared. -/
def prepare (mode : PredAdjacencyMode) (img : BraidedGraphImage) (p1 p2 : Nat) : Option (Option PreparedTwoHop) :=
  match img.remap.toDense p1 with
  | none => some none
  | some p1Dense => do
    let p1Adj ← PredicateAdjacency.build img.ring p1Dense img.remap.universeSize mode
    match PreparedSpObjectScan.prepareWithSharedAdj img p1 p1Adj, PreparedSpObjectScan.prepare img p2 with
    | some hop1, some hop2 => do
      let p2Adj ← PredicateAdjacency.build img.ring hop2.predDense img.remap.universeSize mode
      some (some ⟨img, p1, hop1, hop2, hop2.predDense, p2Adj⟩)
    | _, _ => some none

variable (op : PreparedTwoHop) (rounds : Nat) (emit : Emit)

/-- The current middle node and its number, if it has one. -/
def middle (hop1 : PreparedSpObjectScan) : Option (Nat × Option Nat) :=
  match hop1.keyDense with
  | some d => some (hop1.img.externalKey d, some d)
  | none => hop1.key.map fun b => (b, op.img.remap.toDense b)

def emitThird (a b : Nat) (hop2 : PreparedSpObjectScan) (out : Emitted) : Leave Exit Emitted :=
  match hop2.key with
  | none => (some .outOfBounds, out)
  | some c => emitRow emit [a, b, c] out

def walkSecond (a : Nat) (hop1 : PreparedSpObjectScan) (s : Level × Emitted) : Leave Exit (Level × Emitted) :=
  match op.middle hop1 with
  | none => (some .outOfBounds, s)
  | some (_, none) => (none, s)
  | some (b, some bDense) =>
    forLevel rounds (resetDense op.img op.p2Adj op.p2Dense b bDense) (emitThird emit a b) s.1 s.2

def walkFirst (a : Nat) (s : PreparedSpObjectScan × Level × Emitted) :
    Leave Exit (PreparedSpObjectScan × Level × Emitted) :=
  forObjects rounds (op.walkSecond rounds emit a) s.1 (s.1.resetToSubject a) s.2

def execute : Leave Exit (PreparedTwoHop × Emitted) :=
  let (exit, hop1, second, out) := forSubjects op.img rounds op.p1 (op.walkFirst rounds emit)
    (op.hop1, ⟨op.hop2, rangeCache op.img op.p2Adj⟩, [])
  (exit, { op with hop1 := hop1, hop2 := second.hop }, out)

end PreparedTwoHop

/-! ## Chains and stars -/

/-- The body of a 3-chain and of a star: three scans. -/
structure PreparedThreeHop where
  img : BraidedGraphImage
  p1 : Nat
  hop1 : PreparedSpObjectScan
  hop2 : PreparedSpObjectScan
  hop3 : PreparedSpObjectScan
  p2Dense : Nat
  p3Dense : Nat
  p2Adj : Option PredicateAdjacency
  p3Adj : Option PredicateAdjacency
  deriving Repr, DecidableEq

namespace PreparedThreeHop

/-- `prepare` of the chain and of the star. -/
def prepare (mode : PredAdjacencyMode) (img : BraidedGraphImage) (p1 p2 p3 : Nat) : Option
    (Option PreparedThreeHop) :=
  match PreparedSpObjectScan.prepare img p1, PreparedSpObjectScan.prepare img p2,
    PreparedSpObjectScan.prepare img p3 with
  | some hop1, some hop2, some hop3 => do
    let p2Adj ← PredicateAdjacency.build img.ring hop2.predDense img.remap.universeSize mode
    let p3Adj ← PredicateAdjacency.build img.ring hop3.predDense img.remap.universeSize mode
    some (some ⟨img, p1, hop1, hop2, hop3, hop2.predDense, hop3.predDense, p2Adj, p3Adj⟩)
  | _, _, _ => some none

variable (op : PreparedThreeHop) (rounds : Nat) (emit : Emit)

/-- The scans of an execution and its rows. -/
abbrev State := PreparedSpObjectScan × Level × Level × Emitted

/-- The operator and the rows after the walk over its subjects. -/
def finish (walk : Nat → State → Leave Exit State) : Leave Exit (PreparedThreeHop × Emitted) :=
  let (exit, hop1, second, third, out) := forSubjects op.img rounds op.p1 walk
    (op.hop1, ⟨op.hop2, rangeCache op.img op.p2Adj⟩, ⟨op.hop3, rangeCache op.img op.p3Adj⟩, [])
  (exit, { op with hop1 := hop1, hop2 := second.hop, hop3 := third.hop }, out)

/-! The chain: `a p1 b`, `b p2 c`, `c p3 d`. -/

def emitFourth (a b c : Nat) (hop3 : PreparedSpObjectScan) (out : Emitted) : Leave Exit Emitted :=
  match hop3.key with
  | none => (some .outOfBounds, out)
  | some d => emitRow emit [a, b, c, d] out

def chainThird (a b : Nat) (hop2 : PreparedSpObjectScan) (s : Level × Emitted) : Leave Exit (Level × Emitted) :=
  match hop2.key with
  | none => (some .outOfBounds, s)
  | some c =>
    forLevel rounds (resetHop op.img op.p3Adj op.p3Dense c) (emitFourth emit a b c) s.1 s.2

def chainSecond (a : Nat) (hop1 : PreparedSpObjectScan) (s : Level × Level × Emitted) :
    Leave Exit (Level × Level × Emitted) :=
  match hop1.key with
  | none => (some .outOfBounds, s)
  | some b =>
    forLevel rounds (resetHop op.img op.p2Adj op.p2Dense b) (op.chainThird rounds emit a b) s.1 s.2

def chainFirst (a : Nat) (s : State) : Leave Exit State :=
  forObjects rounds (op.chainSecond rounds emit a) s.1 (s.1.resetToSubject a) s.2

def executeChain : Leave Exit (PreparedThreeHop × Emitted) := op.finish rounds (op.chainFirst rounds emit)

/-! The star: `s p1 o1`, `s p2 o2`, `s p3 o3`. -/

def collectKey (hop : PreparedSpObjectScan) (os : List Nat) : Leave Exit (List Nat) :=
  match hop.key with
  | none => (some .outOfBounds, os)
  | some o => (none, os ++ [o])

/-- All combinations of the objects. -/
def emitStar (s : Nat) (o1s o2s o3s : List Nat) (out : Emitted) : Leave Exit Emitted :=
  each (fun o1 => each (fun o2 => each (fun o3 => emitRow emit [s, o1, o2, o3]) o3s) o2s) o1s out

/-- Goes on with the objects of an arm; a subject without objects in an arm is passed over. -/
def withArm {σ : Type} (arm : Leave Exit (σ × List Nat)) (put : σ → State)
    (next : σ → List Nat → Leave Exit State) :
    Leave Exit State :=
  match arm with
  | (some e, s, _) => (some e, put s)
  | (none, s, []) => (none, put s)
  | (none, s, os) => next s os

def starFirst (a : Nat) (s : State) : Leave Exit State :=
  withArm (forObjects rounds collectKey s.1 (s.1.resetToSubject a) []) (fun hop1 => (hop1, s.2)) fun hop1 o1s =>
  withArm (forLevel rounds (resetHop op.img op.p2Adj op.p2Dense a) collectKey s.2.1 [])
    (fun second => (hop1, second, s.2.2)) fun second o2s =>
  withArm (forLevel rounds (resetHop op.img op.p3Adj op.p3Dense a) collectKey s.2.2.1 [])
    (fun third => (hop1, second, third, s.2.2.2)) fun third o3s =>
  let (exit, out) := emitStar emit a o1s o2s o3s s.2.2.2
  (exit, hop1, second, third, out)

def executeStar : Leave Exit (PreparedThreeHop × Emitted) := op.finish rounds (op.starFirst rounds emit)

end PreparedThreeHop

/-! ## Directed triangles -/

structure PreparedDirectedTriangle where
  img : BraidedGraphImage
  p1 : Nat
  p3 : Nat
  hop1 : PreparedSpObjectScan
  hop2 : PreparedSpObjectScan
  p2Dense : Nat
  p2Adj : Option PredicateAdjacency
  deriving Repr, DecidableEq

namespace PreparedDirectedTriangle

def prepare (mode : PredAdjacencyMode) (img : BraidedGraphImage) (p1 p2 p3 : Nat) :
    Option (Option PreparedDirectedTriangle) :=
  match PreparedSpObjectScan.prepare img p1, PreparedSpObjectScan.prepare img p2, img.remap.toDense p3 with
  | some hop1, some hop2, some _ => do
    let p2Adj ← PredicateAdjacency.build img.ring hop2.predDense img.remap.universeSize mode
    some (some ⟨img, p1, p3, hop1, hop2, hop2.predDense, p2Adj⟩)
  | _, _, _ => some none

variable (op : PreparedDirectedTriangle) (rounds : Nat) (emit : Emit)

/-- The closing edge is looked up for three different corners only. -/
def closeTriangle (a b : Nat) (hop2 : PreparedSpObjectScan) (out : Emitted) : Leave Exit Emitted :=
  match hop2.key with
  | none => (some .outOfBounds, out)
  | some c =>
    if c ≠ a ∧ c ≠ b then
      match op.img.containsExternal c op.p3 a with
      | none => (some .outOfBounds, out)
      | some false => (none, out)
      | some true => emitRow emit [a, b, c] out
    else (none, out)

def walkSecond (a : Nat) (hop1 : PreparedSpObjectScan) (s : Level × Emitted) : Leave Exit (Level × Emitted) :=
  match hop1.key with
  | none => (some .outOfBounds, s)
  | some b =>
    if b = a then (none, s)
    else forLevel rounds (resetHop op.img op.p2Adj op.p2Dense b) (op.closeTriangle emit a b) s.1 s.2

def walkFirst (a : Nat) (s : PreparedSpObjectScan × Level × Emitted) :
    Leave Exit (PreparedSpObjectScan × Level × Emitted) :=
  forObjects rounds (op.walkSecond rounds emit a) s.1 (s.1.resetToSubject a) s.2

def execute : Leave Exit (PreparedDirectedTriangle × Emitted) :=
  let (exit, hop1, second, out) := forSubjects op.img rounds op.p1 (op.walkFirst rounds emit)
    (op.hop1, ⟨op.hop2, rangeCache op.img op.p2Adj⟩, [])
  (exit, { op with hop1 := hop1, hop2 := second.hop }, out)

end PreparedDirectedTriangle

/-! ## Wedges -/

/-- `PreparedPredD1`: the objects that two subjects share under a predicate. -/
structure PreparedPredD1 where
  img : BraidedGraphImage
  predDense : Nat
  adj : Option PredicateAdjacency
  deriving Repr, DecidableEq

/-- A walk over shared objects. -/
inductive SpD1Scan where
  | tiny (vals : List Nat) (pos : Nat)
  | braided (r0 r1 : RowRange) (current : Option Nat)
  deriving Repr, DecidableEq

/-- The common members of two ascending lists, as ids. -/
def mergeDenseSorted (img : BraidedGraphImage) : List Nat → List Nat → List Nat
  | [], _ => []
  | _ :: _, [] => []
  | a :: as, b :: bs =>
    if a < b then mergeDenseSorted img as (b :: bs)
    else if b < a then mergeDenseSorted img (a :: as) bs
    else img.externalKey a :: mergeDenseSorted img as bs
termination_by as bs => as.length + bs.length

namespace SpD1Scan

variable (img : BraidedGraphImage)

/-- `BraidedSpD1ObjectScan::open`; the outer `none` is a read outside an array. -/
def openScan (tiny : Nat) (r0 r1 : RowRange) : Option (Option SpD1Scan) :=
  if !img.mapped || r0.isEmpty || r1.isEmpty then some none
  else if 0 < tiny ∧ max r0.len r1.len ≤ tiny then do
    let left ← img.materializeDense r0
    let right ← img.materializeDense r1
    some (some (.tiny (mergeDenseSorted img left right) 0))
  else some (some (.braided r0 r1 (img.ring.intersectionNextValue2 .O r0 r1 0)))

def atEnd : SpD1Scan → Bool
  | .tiny vals pos => decide (vals.length ≤ pos)
  | .braided _ _ current => current.isNone

def key : SpD1Scan → Option Nat
  | .tiny vals pos => vals[pos]?
  | .braided _ _ current => current.map img.externalKey

def advance : SpD1Scan → SpD1Scan
  | .tiny vals pos => .tiny vals (min (pos + 1) vals.length)
  | .braided r0 r1 none => .braided r0 r1 none
  | .braided r0 r1 (some cur) =>
    .braided r0 r1 (if cur = 2 ^ 32 - 1 then none else img.ring.intersectionNextValue2 .O r0 r1 (cur + 1))

def walk : Walk SpD1Scan Exit where
  atEnd := atEnd
  advance := fun it => .ok (advance img it)
  spent := .spent

end SpD1Scan

namespace PreparedPredD1

def prepareWithAdj (img : BraidedGraphImage) (predicate : Nat) (adj : Option PredicateAdjacency) :
    Option PreparedPredD1 :=
  if img.mapped then (img.remap.toDense predicate).map fun pred => ⟨img, pred, adj⟩ else none

variable (d1 : PreparedPredD1)

/-- The rows of a subject, none outside the table. -/
def spRange (s : Nat) : Option RowRange :=
  match d1.adj with
  | some adj => some ((adj.rangeForSubject s).getD .empty)
  | none => d1.img.ring.rangeSp s d1.predDense

/-- `PreparedLeftD1`: the left subject's rows, and their objects if they are few. -/
structure Left where
  range : RowRange
  tiny : Option (List Nat)

def bindLeft (tiny a : Nat) : Option (Option Left) :=
  match d1.img.remap.toDense a with
  | none => some none
  | some aDense => do
    let range ← d1.spRange aDense
    if range.isEmpty then some none
    else if 0 < tiny ∧ range.len ≤ tiny then do
      let vals ← d1.img.materializeDense range
      some (some ⟨range, some vals⟩)
    else some (some ⟨range, none⟩)

def intersectRight (tiny : Nat) (left : Left) (b : Nat) : Option (Option SpD1Scan) :=
  match d1.img.remap.toDense b with
  | none => some none
  | some bDense => do
    let r1 ← d1.spRange bDense
    if left.range.isEmpty || r1.isEmpty then some none
    else
      match left.tiny with
      | some vals =>
        if 0 < tiny ∧ r1.len ≤ tiny then do
          let right ← d1.img.materializeDense r1
          some (some (.tiny (mergeDenseSorted d1.img vals right) 0))
        else SpD1Scan.openScan d1.img tiny left.range r1
      | none => SpD1Scan.openScan d1.img tiny left.range r1

end PreparedPredD1

structure PreparedWedge where
  img : BraidedGraphImage
  predicate : Nat
  hop : PreparedSpObjectScan
  d1 : PreparedPredD1
  deriving Repr, DecidableEq

namespace PreparedWedge

def prepare (mode : PredAdjacencyMode) (img : BraidedGraphImage) (predicate : Nat) : Option
    (Option PreparedWedge) :=
  if img.mapped then do
    let adj ← img.buildSharedAdj predicate mode
    match PreparedSpObjectScan.prepareWithSharedAdj img predicate adj,
      PreparedPredD1.prepareWithAdj img predicate adj with
    | some hop, some d1 => some (some ⟨img, predicate, hop, d1⟩)
    | _, _ => some none
  else some none

variable (op : PreparedWedge) (tiny rounds : Nat) (emit : Emit)

def emitThird (a b : Nat) (it : SpD1Scan) (out : Emitted) : Leave Exit Emitted :=
  match it.key op.img with
  | none => (some .outOfBounds, out)
  | some c => if c ≠ a ∧ c ≠ b then emitRow emit [a, b, c] out else (none, out)

def walkSecond (a : Nat) (left : PreparedPredD1.Left) (hop : PreparedSpObjectScan) (out : Emitted) :
    Leave Exit Emitted :=
  match hop.key with
  | none => (some .outOfBounds, out)
  | some b =>
    if b = a then (none, out)
    else
      match op.d1.intersectRight tiny left b with
      | none => (some .outOfBounds, out)
      | some none => (none, out)
      | some (some it) =>
        let (exit, _, out) := (SpD1Scan.walk op.img).loop (op.emitThird emit a b) rounds it out
        (exit, out)

def walkFirst (a : Nat) (s : PreparedSpObjectScan × Emitted) : Leave Exit (PreparedSpObjectScan × Emitted) :=
  match op.d1.bindLeft tiny a with
  | none => (some .outOfBounds, s)
  | some none => (none, s)
  | some (some left) => forObjects rounds (op.walkSecond tiny rounds emit a left) s.1 (s.1.resetToSubject a) s.2

/-- `tiny` is the larger one of the two thresholds. -/
def execute : Leave Exit (PreparedWedge × Emitted) :=
  let (exit, hop, out) := forSubjects op.img rounds op.predicate (op.walkFirst tiny rounds emit) (op.hop, [])
  (exit, { op with hop := hop }, out)

end PreparedWedge

/-! ## Expansions -/

structure PreparedSpExpansion where
  img : BraidedGraphImage
  outerSubjectsDense : List Nat
  expandAdj : Option PredicateAdjacency
  expandPredDense : Nat
  deriving Repr, DecidableEq

namespace PreparedSpExpansion

def prepare (mode : PredAdjacencyMode) (img : BraidedGraphImage) (pFilter oFilter pExpand : Nat)
    (expandAdj : Option PredicateAdjacency) : Option (Option PreparedSpExpansion) :=
  if img.mapped then
    match img.remap.toDense pFilter, img.remap.toDense oFilter, img.remap.toDense pExpand with
    | some pf, some of, some pe => do
      let po ← img.ring.rangePo pf of
      let outer := if po.isEmpty then [] else img.ring.distinctValues .S po
      match expandAdj with
      | some adj => some (some ⟨img, outer, some adj, pe⟩)
      | none => do
        let adj ← PredicateAdjacency.build img.ring pe img.remap.universeSize mode
        some (some ⟨img, outer, adj, pe⟩)
    | _, _, _ => some none
  else some none

variable (op : PreparedSpExpansion) (emit : Emit)

def expandRange (s : Nat) : Option RowRange :=
  match op.expandAdj with
  | some adj => some ((adj.rangeForSubject s).getD .empty)
  | none => op.img.ring.rangeSp s op.expandPredDense

/-- The objects of a subject's rows: one is read, up to 32 rows are read one by one with
equal neighbours collapsed, more are searched symbol by symbol. -/
def expandObjects (s : Nat) : Option (List Nat) := do
  let range ← op.expandRange s
  if range.isEmpty then some []
  else if range.len = 1 then do
    let o ← op.img.ring.access .O range.start
    some [o]
  else if range.len ≤ spSmallRangeAccess then op.img.materializeDense range
  else some (op.img.ring.distinctValues .O range)

def emitExpandObjects (s : Nat) (out : Emitted) : Leave Exit Emitted :=
  match op.expandObjects s with
  | none => (some .outOfBounds, out)
  | some os => each (fun o => emitRow emit [op.img.externalKey s, op.img.externalKey o]) os out

/-- `std::mem::take` empties the list of subjects; it is restored after the loop. -/
def execute : Leave Exit (PreparedSpExpansion × Emitted) :=
  let outer := op.outerSubjectsDense
  let taken := { op with outerSubjectsDense := [] }
  match each (taken.emitExpandObjects emit) outer [] with
  | (some e, out) => (some e, taken, out)
  | (none, out) => (none, { taken with outerSubjectsDense := outer }, out)

end PreparedSpExpansion

/-! ## Operators -/

/-- The shape of an operator, with its ids. -/
inductive PhysicalOpKind where
  | twoHop (p1 p2 : Nat)
  | wedge (pred : Nat)
  | spExpansion (pFilter oFilter pExpand : Nat)
  | kChain (p1 p2 p3 : Nat)
  | star (p1 p2 p3 : Nat)
  | directedTriangle (p1 p2 p3 : Nat)
  deriving Repr, DecidableEq

inductive PreparedPhysicalOp where
  | twoHop (op : PreparedTwoHop)
  | wedge (op : PreparedWedge)
  | spExpansion (op : PreparedSpExpansion)
  | kChain (op : PreparedThreeHop)
  | star (op : PreparedThreeHop)
  | directedTriangle (op : PreparedDirectedTriangle)
  deriving Repr, DecidableEq

namespace PreparedPhysicalOp

/-- Prepares the operator of a kind; `adj` is the shared table of an expansion. -/
def prepare (cfg : PathConfig) (img : BraidedGraphImage) (adj : Option PredicateAdjacency) :
    PhysicalOpKind → Option (Option PreparedPhysicalOp)
  | .twoHop p1 p2 => (PreparedTwoHop.prepare cfg.adjMode img p1 p2).map (·.map .twoHop)
  | .wedge pred => (PreparedWedge.prepare cfg.adjMode img pred).map (·.map .wedge)
  | .spExpansion pf o pe => (PreparedSpExpansion.prepare cfg.adjMode img pf o pe adj).map (·.map .spExpansion)
  | .kChain p1 p2 p3 => (PreparedThreeHop.prepare cfg.adjMode img p1 p2 p3).map (·.map .kChain)
  | .star p1 p2 p3 => (PreparedThreeHop.prepare cfg.adjMode img p1 p2 p3).map (·.map .star)
  | .directedTriangle p1 p2 p3 =>
    (PreparedDirectedTriangle.prepare cfg.adjMode img p1 p2 p3).map (·.map .directedTriangle)

/-- An outcome with the operator put back under its constructor. -/
def wrap {Op : Type} (f : Op → PreparedPhysicalOp) (x : Leave Exit (Op × Emitted)) :
    Leave Exit (PreparedPhysicalOp × Emitted) := (x.1, f x.2.1, x.2.2)

def execute (cfg : PathConfig) (rounds : Nat) (emit : Emit) :
    PreparedPhysicalOp → Leave Exit (PreparedPhysicalOp × Emitted)
  | .twoHop op => wrap .twoHop (op.execute rounds emit)
  | .wedge op => wrap .wedge (op.execute (max cfg.wedgeLeftOnce cfg.d1TinyMerge) rounds emit)
  | .spExpansion op => wrap .spExpansion (op.execute emit)
  | .kChain op => wrap .kChain (op.executeChain rounds emit)
  | .star op => wrap .star (op.executeStar rounds emit)
  | .directedTriangle op => wrap .directedTriangle (op.execute rounds emit)

end PreparedPhysicalOp

/-! ## Two loops that hand out the same rows -/

section Loops

variable {base base₂ h k : PreparedSpObjectScan} {σ τ : Type} {S : σ → τ → Prop}

open PreparedSpObjectScan (Of Twin SameReset)

theorem objectWalk_keeps (base : PreparedSpObjectScan) : objectWalk.Keeps (Twin base) where
  atEnd := fun ht => ht.atEnd_eq
  advance := by
    intro c d ht
    rcases ht.advance with ⟨hc, hd⟩ | ⟨c', d', hc, hd, ht'⟩
    · exact .inl ⟨.outOfBounds, congrArg stepOf hc, congrArg stepOf hd⟩
    · exact .inr ⟨c', d', congrArg stepOf hc, congrArg stepOf hd, ht'⟩

/-- The scans of two executions, both prepared like `base`. -/
def BothOf (base h k : PreparedSpObjectScan) : Prop := Of base h ∧ Of base k

variable {body : PreparedSpObjectScan → σ → Leave Exit σ}

theorem forObjects_sim (hof : BothOf base h k) {x y : Option (Bool × PreparedSpObjectScan)}
    (hsame : SameReset base x y)
    {body' : PreparedSpObjectScan → τ → Leave Exit τ}
    (hbody : ∀ c d s t, Twin base c d → S s t → Leave.Rel S (body c s) (body' d t)) (rounds : Nat) {s : σ} {t : τ}
    (hs : S s t) : Leave.Rel (fun a b => BothOf base a.1 b.1 ∧ S a.2 b.2) (forObjects rounds body h x s)
      (forObjects rounds body' k y t) := by
  rcases hsame with ⟨rfl, rfl⟩ | ⟨ok, c, d, rfl, rfl, hc, hd, hbodies⟩
  · exact ⟨rfl, hof, hs⟩
  rcases ok with _ | _
  · exact ⟨rfl, ⟨hc, hd⟩, hs⟩
  · obtain ⟨hexit, htwin, hend⟩ := Walk.loop_sim (objectWalk_keeps base)
      (fun c d s t ht _ hs => hbody c d s t ht hs) rounds (Twin.mk hc hd (hbodies rfl)) hs
    exact ⟨hexit, ⟨htwin.left, htwin.right⟩, hend⟩

theorem forSubjects_sim (img : BraidedGraphImage) (rounds predicate : Nat) {f : Nat → σ → Leave Exit σ}
    {g : Nat → τ → Leave Exit τ} (hbody : ∀ a s t, S s t → Leave.Rel S (f a s) (g a t)) {s : σ} {t : τ}
    (hs : S s t) :
    Leave.Rel S (forSubjects img rounds predicate f s) (forSubjects img rounds predicate g t) := by
  unfold forSubjects
  rcases img.joinScanStreaming none (some predicate) none 0 with _ | it
  · exact ⟨rfl, hs⟩
  obtain ⟨hexit, -, hend⟩ := Walk.loop_sim (w := keyWalk img) (S := S) (Walk.keeps_eq _)
    (f := fun it s => match img.key it with | none => (some .outOfBounds, s) | some a => f a s)
    (g := fun it s => match img.key it with | none => (some .outOfBounds, s) | some a => g a s)
    (by
      rintro c d s t rfl - hs
      rcases img.key c with _ | a
      · exact ⟨rfl, hs⟩
      · exact hbody a s t hs) rounds (rfl : it = it) hs
  exact ⟨hexit, hend⟩

/-- Resets that the two executions make alike. -/
def SameResets (base : PreparedSpObjectScan)
    (reset : PreparedSpObjectScan → RangeCache → Option (Bool × PreparedSpObjectScan) × RangeCache) : Prop :=
  ∀ h k cache, BothOf base h k → SameReset base (reset h cache).1 (reset k cache).1 ∧
    (reset h cache).2 = (reset k cache).2

theorem sameResets_dense (base : PreparedSpObjectScan) (img : BraidedGraphImage) (adj : Option PredicateAdjacency)
    (pred subject s : Nat) : SameResets base (resetDense img adj pred subject s) := by
  rintro h k cache ⟨hh, hk⟩
  unfold resetDense
  rcases adj with _ | adj
  · dsimp only
    rcases cache[s]? with _ | _ | cached
    · exact ⟨hh.resetToSubject_twin hk subject, rfl⟩
    · -- searched now, and kept
      rcases img.ring.rangeSp s pred with _ | range
      · exact ⟨.inl ⟨rfl, rfl⟩, rfl⟩
      · dsimp only
        exact ⟨hh.resetFromRange_twin hk range _ _, rfl⟩
    · exact ⟨hh.resetFromRange_twin hk cached _ _, rfl⟩
  · dsimp only
    rcases adj.rangeForSubject s with _ | range
    · exact ⟨.inr ⟨false, h, k, rfl, rfl, hh, hk, fun he => by cases he⟩, rfl⟩
    · exact ⟨hh.resetFromRange_twin hk range _ _, rfl⟩

theorem sameResets_hop (base : PreparedSpObjectScan) (img : BraidedGraphImage) (adj : Option PredicateAdjacency)
    (pred subject : Nat) : SameResets base (resetHop img adj pred subject) := by
  intro h k cache hof
  unfold resetHop
  rcases img.remap.toDense subject with _ | s
  · exact ⟨.inr ⟨false, h, k, rfl, rfl, hof.1, hof.2, fun he => by cases he⟩, rfl⟩
  · exact sameResets_dense base img adj pred subject s h k cache hof

/-- The levels of two executions. -/
def BothLevels (base : PreparedSpObjectScan) (l m : Level) : Prop := BothOf base l.hop m.hop ∧ l.cache = m.cache

theorem forLevel_sim {reset : PreparedSpObjectScan → RangeCache →
    Option (Bool × PreparedSpObjectScan) × RangeCache}
    (hreset : SameResets base reset) {body' : PreparedSpObjectScan → τ → Leave Exit τ}
    (hbody : ∀ c d s t, Twin base c d → S s t → Leave.Rel S (body c s) (body' d t)) (rounds : Nat) {l m : Level}
    (hl : BothLevels base l m) {s : σ} {t : τ} (hs : S s t) :
    Leave.Rel (fun a b => BothLevels base a.1 b.1 ∧ S a.2 b.2) (forLevel rounds reset body l s)
      (forLevel rounds reset body' m t) := by
  obtain ⟨hop, cache⟩ := l
  obtain ⟨hop', cache'⟩ := m
  obtain ⟨hof, hcache⟩ := hl
  obtain rfl : cache = cache' := hcache
  obtain ⟨hsame, hcaches⟩ := hreset hop hop' cache hof
  obtain ⟨hexit, hend, hrest⟩ := forObjects_sim hof hsame hbody rounds hs
  exact ⟨hexit, ⟨hend, hcaches⟩, hrest⟩

theorem rel_of_eq
    (hbody : ∀ c d s, Twin base c d → body c s = body d s) (c d : PreparedSpObjectScan) (s t : σ)
      (ht : Twin base c d)
    (hs : s = t) : Leave.Rel (fun s t => s = t) (body c s) (body d t) := by
  subst hs
  rw [hbody c d s ht]
  exact ⟨rfl, rfl⟩

end Loops

/-! ## Executions of a used operator -/

variable {h k hop : PreparedSpObjectScan} {img : BraidedGraphImage} {mode : PredAdjacencyMode}

namespace PreparedTwoHop

variable {base : PreparedTwoHop} {rounds : Nat} {emit : Emit}

open PreparedSpObjectScan (Of Twin)

/-- An operator prepared like `base`, in any state. -/
def Of (base op : PreparedTwoHop) : Prop :=
  ∃ hop1 hop2, op = { base with hop1 := hop1, hop2 := hop2 } ∧ base.hop1.Of hop1 ∧ base.hop2.Of hop2

theorem middle_twin (ht : Twin base.hop1 h k) : base.middle h = base.middle k := by
  rw [middle, middle, ht.keyDense_eq, ht.key_eq, ht.left.img, ht.right.img]

theorem emitThird_twin (ht : Twin hop h k) (a b : Nat) (out : Emitted) :
    emitThird emit a b h out = emitThird emit a b k out := by
  rw [emitThird, emitThird, ht.key_eq]

/-- The second levels of two executions, and the rows. -/
def SameSecond (base : PreparedTwoHop) (s t : Level × Emitted) : Prop := BothLevels base.hop2 s.1 t.1 ∧ s.2 = t.2

theorem walkSecond_sim (a : Nat) (h k : PreparedSpObjectScan) (s t : Level × Emitted) (ht : Twin base.hop1 h k)
    (hs : SameSecond base s t) :
    Leave.Rel (SameSecond base) (base.walkSecond rounds emit a h s) (base.walkSecond rounds emit a k t) := by
  unfold walkSecond
  rw [middle_twin ht]
  rcases base.middle k with _ | ⟨b, _ | bDense⟩
  · exact ⟨rfl, hs⟩
  · exact ⟨rfl, hs⟩
  · exact forLevel_sim (sameResets_dense _ _ _ _ _ _)
      (rel_of_eq fun _ _ out ht => emitThird_twin ht a b out) rounds
      hs.1 hs.2

theorem execute_of {op op' : PreparedTwoHop} (hop : Of base op) (hop' : Of base op') :
    Leave.Rel (fun x y => (Of base x.1 ∧ Of base y.1) ∧ x.2 = y.2) (op.execute rounds emit)
      (op'.execute rounds emit) := by
  obtain ⟨h1, h2, rfl, hh1, hh2⟩ := hop
  obtain ⟨k1, k2, rfl, hk1, hk2⟩ := hop'
  have hwalk := forSubjects_sim base.img rounds base.p1
    (S := fun s t => BothOf base.hop1 s.1 t.1 ∧ SameSecond base s.2 t.2)
    (f := base.walkFirst rounds emit) (g := base.walkFirst rounds emit)
    (fun a s t hs => forObjects_sim hs.1 (hs.1.1.resetToSubject_twin hs.1.2 a) (walkSecond_sim a) rounds hs.2)
    (s := (h1, ⟨h2, rangeCache base.img base.p2Adj⟩, [])) (t := (k1, ⟨k2, rangeCache base.img base.p2Adj⟩, []))
    ⟨⟨hh1, hk1⟩, ⟨⟨hh2, hk2⟩, rfl⟩, rfl⟩
  obtain ⟨hexit, hfirst, hsecond, hout⟩ := hwalk
  exact ⟨hexit, ⟨⟨_, _, rfl, hfirst.1, hsecond.1.1⟩, ⟨_, _, rfl, hfirst.2, hsecond.1.2⟩⟩, hout⟩

theorem of_prepare {p1 p2 : Nat} {op : PreparedTwoHop}
    (h : prepare mode img p1 p2 = some (some op)) : Of op op := by
  unfold prepare at h
  rcases hdense : img.remap.toDense p1 with _ | p1Dense <;> rw [hdense] at h
  · exact absurd h (by simp)
  obtain ⟨p1Adj, -, h⟩ := Option.bind_eq_some_iff.mp h
  rcases hfirst : PreparedSpObjectScan.prepareWithSharedAdj img p1 p1Adj with _ | hop1 <;> rw [hfirst] at h
  · exact absurd h (by simp)
  rcases hsecond : PreparedSpObjectScan.prepare img p2 with _ | hop2 <;> rw [hsecond] at h
  · exact absurd h (by simp)
  obtain ⟨p2Adj, -, h⟩ := Option.bind_eq_some_iff.mp h
  obtain rfl : _ = op := Option.some.inj (Option.some.inj h)
  exact ⟨hop1, hop2, rfl, PreparedSpObjectScan.of_prepared hfirst, PreparedSpObjectScan.of_prepared hsecond⟩

end PreparedTwoHop

namespace PreparedThreeHop

variable {base : PreparedThreeHop} {rounds : Nat} {emit : Emit}

open PreparedSpObjectScan (Of Twin)

/-- An operator prepared like `base`, in any state. -/
def Of (base op : PreparedThreeHop) : Prop :=
  ∃ hop1 hop2 hop3, op = { base with hop1 := hop1, hop2 := hop2, hop3 := hop3 } ∧ base.hop1.Of hop1 ∧
    base.hop2.Of hop2 ∧ base.hop3.Of hop3

/-- The third levels of two executions, and the rows. -/
def SameThird (base : PreparedThreeHop) (s t : Level × Emitted) : Prop := BothLevels base.hop3 s.1 t.1 ∧ s.2 = t.2

def SameSecond (base : PreparedThreeHop) (s t : Level × Level × Emitted) : Prop :=
  BothLevels base.hop2 s.1 t.1 ∧ SameThird base s.2 t.2

def SameState (base : PreparedThreeHop) (s t : State) : Prop := BothOf base.hop1 s.1 t.1 ∧ SameSecond base s.2 t.2

variable {op : PreparedThreeHop}

variable {op' : PreparedThreeHop}

theorem finish_of (rounds : Nat) (hop : Of base op) (hop' : Of base op') {f : Nat → State → Leave Exit State}
    (hwalk : ∀ a s t, SameState base s t → Leave.Rel (SameState base) (f a s) (f a t)) :
    Leave.Rel (fun x y => (Of base x.1 ∧ Of base y.1) ∧ x.2 = y.2) (op.finish rounds f) (op'.finish rounds f) := by
  obtain ⟨h1, h2, h3, rfl, hh1, hh2, hh3⟩ := hop
  obtain ⟨k1, k2, k3, rfl, hk1, hk2, hk3⟩ := hop'
  obtain ⟨hexit, hfirst, hsecond, hthird, hout⟩ := forSubjects_sim base.img rounds base.p1 hwalk
    (s := (h1, ⟨h2, rangeCache base.img base.p2Adj⟩, ⟨h3, rangeCache base.img base.p3Adj⟩, []))
    (t := (k1, ⟨k2, rangeCache base.img base.p2Adj⟩, ⟨k3, rangeCache base.img base.p3Adj⟩, []))
    ⟨⟨hh1, hk1⟩, ⟨⟨hh2, hk2⟩, rfl⟩, ⟨⟨hh3, hk3⟩, rfl⟩, rfl⟩
  exact ⟨hexit, ⟨⟨_, _, _, rfl, hfirst.1, hsecond.1.1, hthird.1.1⟩,
    ⟨_, _, _, rfl, hfirst.2, hsecond.1.2, hthird.1.2⟩⟩,
    hout⟩

theorem emitFourth_twin (ht : Twin hop h k) (a b c : Nat) (out : Emitted) :
    emitFourth emit a b c h out = emitFourth emit a b c k out := by
  rw [emitFourth, emitFourth, ht.key_eq]

theorem chainThird_sim (a b : Nat) (h k : PreparedSpObjectScan) (s t : Level × Emitted) (ht : Twin base.hop2 h k)
    (hs : SameThird base s t) :
    Leave.Rel (SameThird base) (base.chainThird rounds emit a b h s) (base.chainThird rounds emit a b k t) := by
  unfold chainThird
  rw [ht.key_eq]
  rcases k.key with _ | c
  · exact ⟨rfl, hs⟩
  · exact forLevel_sim (sameResets_hop _ _ _ _ _) (rel_of_eq fun _ _ out ht => emitFourth_twin ht a b c out) rounds
      hs.1 hs.2

theorem chainSecond_sim (a : Nat) (h k : PreparedSpObjectScan) (s t : Level × Level × Emitted)
    (ht : Twin base.hop1 h k) (hs : SameSecond base s t) :
    Leave.Rel (SameSecond base) (base.chainSecond rounds emit a h s) (base.chainSecond rounds emit a k t) := by
  unfold chainSecond
  rw [ht.key_eq]
  rcases k.key with _ | b
  · exact ⟨rfl, hs⟩
  · exact forLevel_sim (sameResets_hop _ _ _ _ _) (chainThird_sim a b) rounds hs.1 hs.2

theorem executeChain_of (hop : Of base op) (hop' : Of base op') :
    Leave.Rel (fun x y => (Of base x.1 ∧ Of base y.1) ∧ x.2 = y.2) (op.executeChain rounds emit)
      (op'.executeChain rounds emit) := by
  have hfinish := finish_of rounds hop hop' (f := base.chainFirst rounds emit) fun a s t hs =>
    forObjects_sim hs.1 (hs.1.1.resetToSubject_twin hs.1.2 a) (chainSecond_sim a) rounds hs.2
  obtain ⟨h1, h2, h3, rfl, -⟩ := hop
  obtain ⟨k1, k2, k3, rfl, -⟩ := hop'
  exact hfinish

theorem collectKey_twin (ht : Twin hop h k) (os : List Nat) : collectKey h os = collectKey k os := by
  rw [collectKey, collectKey, ht.key_eq]

theorem withArm_sim {σ : Type} {T : σ → σ → Prop} {x y : Leave Exit (σ × List Nat)}
    (harm : Leave.Rel (fun s t => T s.1 t.1 ∧ s.2 = t.2) x y) {put put' : σ → State}
    (hput : ∀ s t, T s t → SameState base (put s) (put' t)) {next next' : σ → List Nat → Leave Exit State}
    (hnext : ∀ s t os, T s t → Leave.Rel (SameState base) (next s os) (next' t os)) :
    Leave.Rel (SameState base) (withArm x put next) (withArm y put' next') := by
  obtain ⟨exit, s, os⟩ := x
  obtain ⟨exit', t, os'⟩ := y
  obtain ⟨hexit, hs, hos⟩ := harm
  obtain rfl : exit = exit' := hexit
  obtain rfl : os = os' := hos
  rcases exit with _ | e
  · rcases os with _ | ⟨o, os⟩
    · exact ⟨rfl, hput s t hs⟩
    · exact hnext s t (o :: os) hs
  · exact ⟨rfl, hput s t hs⟩

theorem starFirst_sim (a : Nat) (s t : State) (hs : SameState base s t) :
    Leave.Rel (SameState base) (base.starFirst rounds emit a s) (base.starFirst rounds emit a t) := by
  obtain ⟨hop1, second, third, out⟩ := s
  obtain ⟨hop1', second', third', out'⟩ := t
  obtain ⟨hfirst, hsecond, hthird, hout⟩ := hs
  obtain rfl : out = out' := hout
  -- the first arm
  apply withArm_sim (T := BothOf base.hop1)
  · exact forObjects_sim (S := fun s t => s = t) hfirst (hfirst.1.resetToSubject_twin hfirst.2 a)
      (rel_of_eq fun _ _ os ht => collectKey_twin ht os) rounds rfl
  · exact fun _ _ hfirst => ⟨hfirst, hsecond, hthird, rfl⟩
  intro hop1 hop1' o1s hfirst
  -- the second
  apply withArm_sim (T := BothLevels base.hop2)
  · exact forLevel_sim (S := fun s t => s = t) (sameResets_hop base.hop2 base.img base.p2Adj base.p2Dense a)
      (rel_of_eq fun _ _ os ht => collectKey_twin ht os) rounds hsecond rfl
  · exact fun _ _ hsecond => ⟨hfirst, hsecond, hthird, rfl⟩
  intro second second' o2s hsecond
  -- the third
  apply withArm_sim (T := BothLevels base.hop3)
  · exact forLevel_sim (S := fun s t => s = t) (sameResets_hop base.hop3 base.img base.p3Adj base.p3Dense a)
      (rel_of_eq fun _ _ os ht => collectKey_twin ht os) rounds hthird rfl
  · exact fun _ _ hthird => ⟨hfirst, hsecond, hthird, rfl⟩
  intro third third' o3s hthird
  exact ⟨rfl, hfirst, hsecond, hthird, rfl⟩

theorem executeStar_of (hop : Of base op) (hop' : Of base op') :
    Leave.Rel (fun x y => (Of base x.1 ∧ Of base y.1) ∧ x.2 = y.2) (op.executeStar rounds emit)
      (op'.executeStar rounds emit) := by
  have hfinish := finish_of rounds hop hop' (f := base.starFirst rounds emit) starFirst_sim
  obtain ⟨h1, h2, h3, rfl, -⟩ := hop
  obtain ⟨k1, k2, k3, rfl, -⟩ := hop'
  exact hfinish

theorem of_prepare {p1 p2 p3 : Nat} (h : prepare mode img p1 p2 p3 = some (some op)) : Of op op := by
  unfold prepare at h
  rcases hfirst : PreparedSpObjectScan.prepare img p1 with _ | hop1 <;> rw [hfirst] at h
  · exact absurd h (by simp)
  rcases hsecond : PreparedSpObjectScan.prepare img p2 with _ | hop2 <;> rw [hsecond] at h
  · exact absurd h (by simp)
  rcases hthird : PreparedSpObjectScan.prepare img p3 with _ | hop3 <;> rw [hthird] at h
  · exact absurd h (by simp)
  obtain ⟨p2Adj, -, h⟩ := Option.bind_eq_some_iff.mp h
  obtain ⟨p3Adj, -, h⟩ := Option.bind_eq_some_iff.mp h
  obtain rfl : _ = op := Option.some.inj (Option.some.inj h)
  exact ⟨hop1, hop2, hop3, rfl, PreparedSpObjectScan.of_prepared hfirst, PreparedSpObjectScan.of_prepared hsecond,
    PreparedSpObjectScan.of_prepared hthird⟩

end PreparedThreeHop

namespace PreparedDirectedTriangle

variable {base : PreparedDirectedTriangle} {rounds : Nat} {emit : Emit}

open PreparedSpObjectScan (Of Twin)

/-- An operator prepared like `base`, in any state. -/
def Of (base op : PreparedDirectedTriangle) : Prop :=
  ∃ hop1 hop2, op = { base with hop1 := hop1, hop2 := hop2 } ∧ base.hop1.Of hop1 ∧ base.hop2.Of hop2

def SameSecond (base : PreparedDirectedTriangle) (s t : Level × Emitted) : Prop :=
  BothLevels base.hop2 s.1 t.1 ∧ s.2 = t.2

theorem closeTriangle_twin (ht : Twin hop h k) (a b : Nat) (out : Emitted) :
    base.closeTriangle emit a b h out = base.closeTriangle emit a b k out := by
  rw [closeTriangle, closeTriangle, ht.key_eq]

theorem walkSecond_sim (a : Nat) (h k : PreparedSpObjectScan) (s t : Level × Emitted) (ht : Twin base.hop1 h k)
    (hs : SameSecond base s t) :
    Leave.Rel (SameSecond base) (base.walkSecond rounds emit a h s) (base.walkSecond rounds emit a k t) := by
  unfold walkSecond
  rw [ht.key_eq]
  rcases k.key with _ | b
  · exact ⟨rfl, hs⟩
  dsimp only
  by_cases hba : b = a
  · rw [if_pos hba, if_pos hba]
    exact ⟨rfl, hs⟩
  · rw [if_neg hba, if_neg hba]
    exact forLevel_sim (sameResets_hop _ _ _ _ _)
      (rel_of_eq fun _ _ out ht => closeTriangle_twin ht a b out) rounds
      hs.1 hs.2

theorem execute_of {op op' : PreparedDirectedTriangle} (hop : Of base op) (hop' : Of base op') :
    Leave.Rel (fun x y => (Of base x.1 ∧ Of base y.1) ∧ x.2 = y.2) (op.execute rounds emit)
      (op'.execute rounds emit) := by
  obtain ⟨h1, h2, rfl, hh1, hh2⟩ := hop
  obtain ⟨k1, k2, rfl, hk1, hk2⟩ := hop'
  obtain ⟨hexit, hfirst, hsecond, hout⟩ := forSubjects_sim base.img rounds base.p1
    (S := fun s t => BothOf base.hop1 s.1 t.1 ∧ SameSecond base s.2 t.2)
    (f := base.walkFirst rounds emit) (g := base.walkFirst rounds emit)
    (fun a s t hs => forObjects_sim hs.1 (hs.1.1.resetToSubject_twin hs.1.2 a) (walkSecond_sim a) rounds hs.2)
    (s := (h1, ⟨h2, rangeCache base.img base.p2Adj⟩, [])) (t := (k1, ⟨k2, rangeCache base.img base.p2Adj⟩, []))
    ⟨⟨hh1, hk1⟩, ⟨⟨hh2, hk2⟩, rfl⟩, rfl⟩
  exact ⟨hexit, ⟨⟨_, _, rfl, hfirst.1, hsecond.1.1⟩, ⟨_, _, rfl, hfirst.2, hsecond.1.2⟩⟩, hout⟩

theorem of_prepare {p1 p2 p3 : Nat}
    {op : PreparedDirectedTriangle} (h : prepare mode img p1 p2 p3 = some (some op)) : Of op op := by
  unfold prepare at h
  rcases hfirst : PreparedSpObjectScan.prepare img p1 with _ | hop1 <;> rw [hfirst] at h
  · exact absurd h (by simp)
  rcases hsecond : PreparedSpObjectScan.prepare img p2 with _ | hop2 <;> rw [hsecond] at h
  · exact absurd h (by simp)
  rcases hthird : img.remap.toDense p3 with _ | p3Dense <;> rw [hthird] at h
  · exact absurd h (by simp)
  obtain ⟨p2Adj, -, h⟩ := Option.bind_eq_some_iff.mp h
  obtain rfl : _ = op := Option.some.inj (Option.some.inj h)
  exact ⟨hop1, hop2, rfl, PreparedSpObjectScan.of_prepared hfirst, PreparedSpObjectScan.of_prepared hsecond⟩

end PreparedDirectedTriangle

namespace PreparedWedge

variable {base : PreparedWedge} {tiny rounds : Nat} {emit : Emit}

open PreparedSpObjectScan (Of Twin)

/-- An operator prepared like `base`, in any state. -/
def Of (base op : PreparedWedge) : Prop := ∃ hop, op = { base with hop := hop } ∧ base.hop.Of hop

theorem walkSecond_twin (ht : Twin hop h k) (a : Nat) (left : PreparedPredD1.Left) (out : Emitted) :
    base.walkSecond tiny rounds emit a left h out = base.walkSecond tiny rounds emit a left k out := by
  rw [walkSecond, walkSecond, ht.key_eq]

theorem walkFirst_sim (a : Nat) (s t : PreparedSpObjectScan × Emitted)
    (hs : BothOf base.hop s.1 t.1 ∧ s.2 = t.2) :
    Leave.Rel (fun s t => BothOf base.hop s.1 t.1 ∧ s.2 = t.2) (base.walkFirst tiny rounds emit a s)
      (base.walkFirst tiny rounds emit a t) := by
  unfold walkFirst
  rcases base.d1.bindLeft tiny a with _ | _ | left
  · exact ⟨rfl, hs⟩
  · exact ⟨rfl, hs⟩
  · exact forObjects_sim hs.1 (hs.1.1.resetToSubject_twin hs.1.2 a)
      (rel_of_eq fun _ _ out ht => walkSecond_twin ht a left out) rounds hs.2

theorem execute_of {op op' : PreparedWedge} (hop : Of base op) (hop' : Of base op') :
    Leave.Rel (fun x y => (Of base x.1 ∧ Of base y.1) ∧ x.2 = y.2) (op.execute tiny rounds emit)
      (op'.execute tiny rounds emit) := by
  obtain ⟨h, rfl, hh⟩ := hop
  obtain ⟨k, rfl, hk⟩ := hop'
  obtain ⟨hexit, hboth, hout⟩ := forSubjects_sim base.img rounds base.predicate
    (f := base.walkFirst tiny rounds emit) (g := base.walkFirst tiny rounds emit) walkFirst_sim
    (s := (h, [])) (t := (k, [])) ⟨⟨hh, hk⟩, rfl⟩
  exact ⟨hexit, ⟨⟨_, rfl, hboth.1⟩, ⟨_, rfl, hboth.2⟩⟩, hout⟩

theorem of_prepare {predicate : Nat} {op : PreparedWedge}
    (h : prepare mode img predicate = some (some op)) : Of op op := by
  unfold prepare at h
  by_cases hmapped : img.mapped = true
  · rw [if_pos hmapped] at h
    obtain ⟨adj, -, h⟩ := Option.bind_eq_some_iff.mp h
    rcases hfirst : PreparedSpObjectScan.prepareWithSharedAdj img predicate adj with _ | hop <;> rw [hfirst] at h
    · exact absurd h (by simp)
    rcases hd1 : PreparedPredD1.prepareWithAdj img predicate adj with _ | d1 <;> rw [hd1] at h
    · exact absurd h (by simp)
    obtain rfl : _ = op := Option.some.inj (Option.some.inj h)
    exact ⟨hop, rfl, PreparedSpObjectScan.of_prepared hfirst⟩
  · rw [if_neg hmapped] at h
    exact absurd h (by simp)

end PreparedWedge

namespace PreparedSpExpansion

variable {op : PreparedSpExpansion} {emit : Emit}

theorem execute_done (h : (op.execute emit).1 = none) : (op.execute emit).2.1 = op := by
  unfold execute at h ⊢
  dsimp only at h ⊢
  generalize each _ op.outerSubjectsDense [] = x at h ⊢
  obtain ⟨exit, out⟩ := x
  rcases exit with _ | e
  · rfl
  · exact absurd h (by simp)

theorem execute_left {e : Exit} (h : (op.execute emit).1 = some e) :
    (op.execute emit).2.1 = { op with outerSubjectsDense := [] } := by
  unfold execute at h ⊢
  dsimp only at h ⊢
  generalize each _ op.outerSubjectsDense [] = x at h ⊢
  obtain ⟨exit, out⟩ := x
  rcases exit with _ | e'
  · exact absurd h (by simp)
  · rfl

end PreparedSpExpansion

namespace PreparedPhysicalOp

variable {cfg : PathConfig} {rounds : Nat} {emit : Emit}

/-- An operator prepared like `base`, in any state its executions leave; an expansion has
its subjects. -/
def Of : PreparedPhysicalOp → PreparedPhysicalOp → Prop
  | .twoHop base, .twoHop op => PreparedTwoHop.Of base op
  | .wedge base, .wedge op => PreparedWedge.Of base op
  | .spExpansion base, .spExpansion op => op = base
  | .kChain base, .kChain op => PreparedThreeHop.Of base op
  | .star base, .star op => PreparedThreeHop.Of base op
  | .directedTriangle base, .directedTriangle op => PreparedDirectedTriangle.Of base op
  | _, _ => False

def isExpansion : PreparedPhysicalOp → Bool
  | .spExpansion _ => true
  | _ => false

variable {op : PreparedPhysicalOp}

theorem isExpansion_iff : op.isExpansion = true ↔ ∃ x, op = .spExpansion x := by
  rcases op with _ | _ | _ | _ | _ | _ <;> simp [isExpansion]

theorem rel_wrap {Op : Type} {P : Op → Prop} {Q : PreparedPhysicalOp → Prop} {f : Op → PreparedPhysicalOp}
    (hPQ : ∀ op, P op → Q (f op)) {x y : Leave Exit (Op × Emitted)}
    (h : Leave.Rel (fun x y => (P x.1 ∧ P y.1) ∧ x.2 = y.2) x y) :
    (wrap f x).1 = (wrap f y).1 ∧ (wrap f x).2.2 = (wrap f y).2.2 ∧ Q (wrap f x).2.1 :=
  ⟨h.1, h.2.2, hPQ _ h.2.1.1⟩

/-- An operator in any state gives the rows of the prepared one, and stays so unless it is
an expansion that is left. -/
theorem execute_fresh {base : PreparedPhysicalOp} (hbase : Of base base) (hop : Of base op) :
    (op.execute cfg rounds emit).1 = (base.execute cfg rounds emit).1 ∧
      (op.execute cfg rounds emit).2.2 = (base.execute cfg rounds emit).2.2 ∧
      ((op.isExpansion = true → (op.execute cfg rounds emit).1 = none) →
        Of base (op.execute cfg rounds emit).2.1) := by
  have hkeep : ∀ {P Q R : Prop}, P ∧ Q ∧ R → ∀ {C : Prop}, P ∧ Q ∧ (C → R) :=
    fun h => ⟨h.1, h.2.1, fun _ => h.2.2⟩
  rcases base with base | base | base | base | base | base <;> rcases op with op | op | op | op | op | op <;>
    try exact False.elim hop
  · exact hkeep (rel_wrap (Q := Of (.twoHop base)) (fun _ h => h) (PreparedTwoHop.execute_of hop hbase))
  · exact hkeep (rel_wrap (Q := Of (.wedge base)) (fun _ h => h) (PreparedWedge.execute_of hop hbase))
  · obtain rfl : op = base := hop
    refine ⟨rfl, rfl, ?_⟩
    intro hdone
    exact PreparedSpExpansion.execute_done (hdone rfl)
  · exact hkeep (rel_wrap (Q := Of (.kChain base)) (fun _ h => h) (PreparedThreeHop.executeChain_of hop hbase))
  · exact hkeep (rel_wrap (Q := Of (.star base)) (fun _ h => h) (PreparedThreeHop.executeStar_of hop hbase))
  · exact hkeep (rel_wrap (Q := Of (.directedTriangle base)) (fun _ h => h)
      (PreparedDirectedTriangle.execute_of hop hbase))

/-! ## Freshly prepared operators -/

/-- What `prepare` gives, put under a constructor. -/
theorem exists_of_map {Op : Type} {x : Option (Option Op)} {f : Op → PreparedPhysicalOp}
    (h : x.map (·.map f) = some (some op)) : ∃ o, x = some (some o) ∧ f o = op := by
  rcases x with _ | _ | o
  · exact absurd h (by simp)
  · exact absurd h (by simp)
  · exact ⟨o, rfl, by simpa using h⟩

theorem of_prepare {adj : Option PredicateAdjacency} {kind : PhysicalOpKind}
    (h : prepare cfg img adj kind = some (some op)) : Of op op := by
  rcases kind with ⟨p1, p2⟩ | pred | ⟨pf, o, pe⟩ | ⟨p1, p2, p3⟩ | ⟨p1, p2, p3⟩ | ⟨p1, p2, p3⟩ <;>
    obtain ⟨body, hbody, rfl⟩ := exists_of_map h
  · exact PreparedTwoHop.of_prepare hbody
  · exact PreparedWedge.of_prepare hbody
  · exact rfl
  · exact PreparedThreeHop.of_prepare hbody
  · exact PreparedThreeHop.of_prepare hbody
  · exact PreparedDirectedTriangle.of_prepare hbody

end PreparedPhysicalOp

end Nova.Ring
