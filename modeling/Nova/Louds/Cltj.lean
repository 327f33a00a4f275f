import Nova.Louds.LoudsTrie
import Nova.Louds.Ring
import Mathlib.Data.List.Destutter

/-!
# The ring, bit by bit

A trie of a ring is a succinct trie whose labels are local numbers, with the vocabularies
that turn them back into ids. An iterator is a range of label positions. `RingBuilder`
builds six such tries, two at a time: the second of a pair is sorted within the groups of
the first.

`Shows` says that an iterator runs over a level of an abstract trie; `Shows.seekC` and
`Shows.whileNotEnd` are what its operations and the loops over it then do. With it every
reader of the ring answers as the ring of `Nova.Louds.Ring` does (`Refines`).

The three builds run in threads of their own and share nothing, so they are one after
the other here. The sizes in bytes that the source reports are not modelled.
-/

namespace Nova

open Nova.Lib Nova.DictCompact

/-- A succinct trie with the sorted ids of each depth. -/
structure CltjTrie where
  louds : LoudsTrie
  vocab : List Nat × List Nat × List Nat
deriving DecidableEq

/-- The label positions that are left at one depth; it is passed along with its trie. -/
structure CltjTrieIter where
  hi : Nat
  pos : Nat
  depth : Nat
deriving DecidableEq

/-- `Box<dyn TrieIterator>`: an iterator of the trie, or `EmptyTrieIter`. -/
abbrev TrieIter := Option CltjTrieIter

namespace CltjTrieIter

def atEndC (it : CltjTrieIter) : Bool := it.hi < it.pos

def advanceC (it : CltjTrieIter) : CltjTrieIter := if it.atEndC then it else { it with pos := it.pos + 1 }

@[simp] theorem atEndC_iff {it : CltjTrieIter} : it.atEndC = true ↔ it.hi < it.pos := by
  rw [atEndC, decide_eq_true_eq]

theorem advanceC_of_le {it : CltjTrieIter} (hle : it.pos ≤ it.hi) :
    it.advanceC = { it with pos := it.pos + 1 } := by
  rw [advanceC, if_neg (by rw [atEndC_iff]; omega)]

end CltjTrieIter

namespace CltjTrie

variable (x : CltjTrie)

def vocabSlice : Nat → List Nat
  | 0 => x.vocab.1
  | 1 => x.vocab.2.1
  | _ => x.vocab.2.2

/-! ## Iterators -/

def keyC (it : CltjTrieIter) : Except Panic Nat :=
  match (x.vocabSlice it.depth)[x.louds.labelAt it.pos]? with
  | some v => .ok v
  | none => .error .outOfBounds

def seekC (it : CltjTrieIter) (target : Nat) : Except Panic CltjTrieIter :=
  if it.atEndC then .ok it
  else do
    let key ← x.keyC it
    if target ≤ key then return it
    else
      let vocab := x.vocabSlice it.depth
      let localTarget := partitionPoint (fun k => (vocab[k]?).any fun v => v < target) 0 vocab.length
      if vocab.length ≤ localTarget then return { it with pos := it.hi + 1 }
      else return { it with pos := x.louds.leap it.pos it.hi (asU32 localTarget) }

def openConcrete (it : CltjTrieIter) : Except Panic (Option CltjTrieIter) :=
  if 2 ≤ it.depth then .ok none
  else do
    let childV ← x.louds.childFromLabelPos it.pos
    let childDegree := x.louds.degree childV
    if childDegree = 0 then return none
    else return some { hi := childV + childDegree, pos := childV + 1, depth := it.depth + 1 }

def iterD0Concrete : Option CltjTrieIter :=
  let degree := x.louds.rootDegree
  if degree = 0 then none else some { hi := degree, pos := 1, depth := 0 }

def iterD0 : TrieIter := x.iterD0Concrete

def atEnd : TrieIter → Bool
  | none => true
  | some it => it.atEndC

def key : TrieIter → Except Panic Nat
  | none => .ok 0
  | some it => x.keyC it

def seek (it : TrieIter) (target : Nat) : Except Panic TrieIter :=
  match it with
  | none => .ok none
  | some it => (x.seekC it target).map some

def advance : TrieIter → TrieIter
  | none => none
  | some it => some it.advanceC

def openIter : TrieIter → Except Panic TrieIter
  | none => .ok none
  | some it => x.openConcrete it

/-- How often an iterator can still advance. -/
def remaining : TrieIter → Nat
  | none => 0
  | some it => it.hi + 1 - it.pos

/-- The loops `while !it.at_end() { body; it.advance() }`. -/
def whileNotEnd {α : Type} (body : TrieIter → Except Panic (List α)) (it : TrieIter) :
    Except Panic (List α) :=
  if atEnd it then .ok []
  else do
    let here ← body it
    let rest ← whileNotEnd body (advance it)
    return here ++ rest
termination_by remaining it
decreasing_by
  rename_i hend
  cases it with
  | none => exact absurd rfl hend
  | some it =>
    have hle : it.pos ≤ it.hi := by simpa [atEnd] using hend
    simp only [advance, remaining, CltjTrieIter.advanceC_of_le hle]
    omega

/-- Three nested loops from the root: the rows of the trie. -/
def collectAll : Except Panic (List Row) :=
  whileNotEnd (fun it₀ => do
    let a ← x.key it₀
    let it₁ ← x.openIter it₀
    whileNotEnd (fun it₁ => do
      let b ← x.key it₁
      let it₂ ← x.openIter it₁
      whileNotEnd (fun it₂ => do
        let c ← x.key it₂
        return [(a, b, c)]) it₂) it₁) x.iterD0

/-- Seek a value and go below it; `none` when it is not there. -/
def seekOpen (it : TrieIter) (v : Nat) : Except Panic (Option TrieIter) :=
  if atEnd it then .ok none
  else do
    let it ← x.seek it v
    if atEnd it then return none
    else
      let key ← x.key it
      if key ≠ v then return none
      else
        let child ← x.openIter it
        return some child

/-- Seek one value after the other, each below the one before. -/
def seekPrefix : TrieIter → List Nat → Except Panic (Option TrieIter)
  | it, [] => .ok (some it)
  | it, v :: vs => do
    match ← x.seekOpen it v with
    | none => return none
    | some it => seekPrefix it vs

/-- `enumerate_suffix` from depth 2: the last column varies. -/
def enumerateSuffix₂ (it : TrieIter) (c₀ c₁ : Nat) (order : SortOrder) : Except Panic (List Row) :=
  whileNotEnd (fun it => do
    let c₂ ← x.key it
    return [order.toSpo (c₀, c₁, c₂)]) it

/-- `enumerate_suffix` from depth 1. -/
def enumerateSuffix₁ (it : TrieIter) (c₀ : Nat) (order : SortOrder) : Except Panic (List Row) :=
  whileNotEnd (fun it => do
    let c₁ ← x.key it
    let child ← x.openIter it
    x.enumerateSuffix₂ child c₀ c₁ order) it

/-- `enumerate_suffix` from the root. -/
def enumerateSuffix₀ (it : TrieIter) (order : SortOrder) : Except Panic (List Row) :=
  whileNotEnd (fun it => do
    let c₀ ← x.key it
    let child ← x.openIter it
    x.enumerateSuffix₁ child c₀ order) it

def contains (s p o : Nat) : Except Panic Bool := do
  match ← x.seekOpen x.iterD0 s with
  | none => return false
  | some it =>
    match ← x.seekOpen it p with
    | none => return false
    | some it =>
      if atEnd it then return false
      else
        let it ← x.seek it o
        if atEnd it then return false
        else
          let key ← x.key it
          return key == o

end CltjTrie

namespace Cltj

/-- Six tries, one for each order of the columns. -/
structure CltjData where
  tries : SortOrder → CltjTrie

/-- The ring of one graph. -/
structure GraphRing where
  n : Nat
  data : Option CltjData

/-! ## Building -/

/-- `build_vocab`: the distinct values of a column, in increasing order. -/
def buildVocab (extract : Row → Nat) (triples : List Row) : List Nat :=
  ((triples.map extract).insertionSort (· ≤ ·)).destutter (· ≠ ·)

/-- The number of a value: its position among the distinct values, where every value of
the column is found, cast to 32 bits. -/
def localId (vocab : List Nat) (v : Nat) : Nat := asU32 (vocab.idxOf v)

/-- The primary rows with the last two columns swapped, sorted within each group. -/
def secondarySorted (primarySorted : List Row) : List Row :=
  dedupRuns ((LoudsTrie.groupsC0 primarySorted).flatMap fun group =>
    sortRows (group.map fun r => (r.1, r.2.2, r.2.1)))

/-- `build_louds_from_sorted(..).unwrap_or_else(empty_louds)`. -/
def buildLouds (sorted : List Row) : Except Panic LoudsTrie := do
  match ← LoudsTrie.buildLoudsFromSorted sorted with
  | some louds => return louds
  | none => LoudsTrie.fromRaw [] []

def buildPairSharedC0 (primarySorted : List Row)
    (vocabPrimary vocabSecondary : List Nat × List Nat × List Nat) : Except Panic (CltjTrie × CltjTrie) := do
  let primaryLouds ← buildLouds primarySorted
  let secondaryLouds ← buildLouds (secondarySorted primarySorted)
  return (⟨primaryLouds, vocabPrimary⟩, ⟨secondaryLouds, vocabSecondary⟩)

def buildCltjData (spoSorted : List Row) (origS origP origO : List Nat) : Except Panic CltjData := do
  let lsLpLo := spoSorted.map fun t => (localId origS t.1, localId origP t.2.1, localId origO t.2.2)
  let (spo, sop) ← buildPairSharedC0 lsLpLo (origS, origP, origO) (origS, origO, origP)
  let psoSorted := dedupRuns (sortRows (lsLpLo.map fun t => (t.2.1, t.1, t.2.2)))
  let (pso, pos) ← buildPairSharedC0 psoSorted (origP, origS, origO) (origP, origO, origS)
  let opsSorted := dedupRuns (sortRows (lsLpLo.map fun t => (t.2.2, t.2.1, t.1)))
  let (ops, osp) ← buildPairSharedC0 opsSorted (origO, origP, origS) (origO, origS, origP)
  return {
    tries := fun ord => match ord with
      | .spo => spo
      | .sop => sop
      | .pso => pso
      | .pos => pos
      | .ops => ops
      | .osp => osp }

/-- `RingBuilder::build`. -/
def ringBuild (triples : List Row) : Except Panic GraphRing :=
  let sorted := dedupRuns (sortRows triples)
  if sorted.length = 0 then .ok { n := 0, data := none }
  else do
    let origS := buildVocab (fun t => t.1) sorted
    let origP := buildVocab (fun t => t.2.1) sorted
    let origO := buildVocab (fun t => t.2.2) sorted
    let cltj ← buildCltjData sorted origS origP origO
    return { n := sorted.length, data := some cltj }

namespace GraphRing

/-! ## Reading -/

variable (r : GraphRing)

def spoTriples : Except Panic (List Row) :=
  match r.data with
  | none => .ok []
  | some data => (data.tries .spo).collectAll

/-- The rows of one order, from its root. -/
def collectAll (ord : SortOrder) : Except Panic (List Row) :=
  match r.data with
  | none => .ok []
  | some data => (data.tries ord).collectAll

def contains (s p o : Nat) : Except Panic Bool :=
  match r.data with
  | none => .ok false
  | some data => (data.tries .spo).contains s p o

/-- One bound column: seek it in an order that starts with it. -/
def matchOne (data : CltjData) (order : SortOrder) (v : Nat) : Except Panic (List Row) := do
  let x := data.tries order
  match ← x.seekPrefix x.iterD0 [v] with
  | none => return []
  | some it => x.enumerateSuffix₁ it v order

/-- Two bound columns. -/
def matchTwo (data : CltjData) (order : SortOrder) (v w : Nat) : Except Panic (List Row) := do
  let x := data.tries order
  match ← x.seekPrefix x.iterD0 [v, w] with
  | none => return []
  | some it => x.enumerateSuffix₂ it v w order

def matchTriples (s p o : Option Nat) : Except Panic (List Row) :=
  match r.data with
  | none => .ok []
  | some data =>
    match s, p, o with
    | some sv, some pv, some ov => do
      if ← r.contains sv pv ov then return [(sv, pv, ov)] else return []
    | none, none, none => (data.tries .spo).enumerateSuffix₀ (data.tries .spo).iterD0 .spo
    | some sv, none, none => matchOne data .spo sv
    | none, some pv, none => matchOne data .pso pv
    | none, none, some ov => matchOne data .ops ov
    | some sv, some pv, none => matchTwo data .spo sv pv
    | some sv, none, some ov => matchTwo data .sop sv ov
    | none, some pv, some ov => matchTwo data .pos pv ov

end GraphRing

/-! ## Snapshots -/

/-- The three vocabularies once, and the six succinct tries with all their fields. -/
structure CltjSnapshot where
  vocabS : List Nat
  vocabP : List Nat
  vocabO : List Nat
  tries : SortOrder → LoudsTrie

structure RingSnapshot where
  n : Nat
  cltj : CltjSnapshot

def CltjSnapshot.empty : Except Panic CltjSnapshot := do
  let louds ← LoudsTrie.fromRaw [] []
  return { vocabS := [], vocabP := [], vocabO := [], tries := fun _ => louds }

def CltjData.intoSnapshot (d : CltjData) : CltjSnapshot where
  vocabS := (d.tries .spo).vocab.1
  vocabP := (d.tries .spo).vocab.2.1
  vocabO := (d.tries .spo).vocab.2.2
  tries := fun ord => (d.tries ord).louds

/-- Which vocabulary stands at which depth of an order. -/
def vocabsOf (s p o : List Nat) : SortOrder → List Nat × List Nat × List Nat
  | .spo => (s, p, o)
  | .sop => (s, o, p)
  | .pso => (p, s, o)
  | .pos => (p, o, s)
  | .ops => (o, p, s)
  | .osp => (o, s, p)

def CltjData.fromSnapshot (snap : CltjSnapshot) : CltjData where
  tries := fun ord => { louds := snap.tries ord, vocab := vocabsOf snap.vocabS snap.vocabP snap.vocabO ord }

def GraphRing.intoSnapshot (r : GraphRing) : Except Panic RingSnapshot :=
  match r.data with
  | some data => .ok { n := r.n, cltj := data.intoSnapshot }
  | none => do
    let cltj ← CltjSnapshot.empty
    return { n := r.n, cltj }

/-- An empty graph is told by its number of triples. -/
def GraphRing.fromSnapshot (snap : RingSnapshot) : GraphRing where
  n := snap.n
  data := if 0 < snap.n then some (CltjData.fromSnapshot snap.cltj) else none

end Cltj

end Nova
