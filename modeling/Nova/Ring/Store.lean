import Nova.Louds.Runs
import Nova.Ring.Match

/-!
# The ring store

The quad store over a dictionary, a cyclic ring image for each graph and a delta of
pending writes, held in memory. Writes go to the delta; `compactLocked` reads every
image back, merges the delta into the triples and builds new images. `bulkLoad` is a
run of inserts with a compaction at the end.

The calls are those of `Nova.Louds.Store` over another index, one critical section
each. A read outside an array of a ring is a panic. Whether an image gets a mapped
file depends on the environment (`Residency`). What is published outside the critical
section is the subject of `Nova.Ring.Snapshots`, and the log and the data directory are
added in `Nova.Ring.Persist`; the full-text index is left out.
-/

namespace Nova

open Nova.Lib Nova.Ring

/-- `RingStoreInner` of a store without a data directory. -/
structure RingStore (D : Type) where
  dict : D
  graphs : GraphMap BraidedGraphImage
  delta : Delta
  namedGraphIds : List GraphId
  compactionCount : Nat

/-- The graphs whose image gets a mapped file at the n-th compaction, and whether its
predicate column is the compressed one. -/
abbrev Residency := Nat → GraphId → Option Bool

namespace RingStore

open LoudsStore (lookupQuad encode rowKey mergeEntry rowOf)

variable {D : Type} (A : DictApi D)

def new (dict : D) : RingStore D where
  dict := dict
  graphs := ∅
  delta := .new
  namedGraphIds := []
  compactionCount := 0

abbrev Outcome (D α : Type) := Except Fault α × RingStore D

/-- `f()?`: a fault ends the caller as well. -/
def andThen {α β : Type} (x : Outcome D α) (k : α → RingStore D → Outcome D β) : Outcome D β :=
  match x with
  | (.ok a, s) => k a s
  | (.error f, s) => (.error f, s)

/-! ## Dictionary calls -/

def intern (s : RingStore D) (t : Term) : Outcome D TermId :=
  match A.intern s.dict t with
  | .error p => (.error (.panic p), s)
  | .ok (.error e, d) => (.error (.err e), { s with dict := d })
  | .ok (.ok id, d) => (.ok id, { s with dict := d })

def internGraph (s : RingStore D) (g : GraphName) : Outcome D GraphId :=
  match A.internGraph s.dict g with
  | (.error e, d) => (.error (.err e), { s with dict := d })
  | (.ok id, d) => (.ok id, { s with dict := d })

/-- Graph, subject, predicate and object, in this order. -/
def internQuad (s : RingStore D) (q : Quad) : Outcome D (GraphId × TermId × TermId × TermId) :=
  andThen (internGraph A s q.graphName) fun gId s =>
  andThen (intern A s q.subject.toTerm) fun sId s =>
  andThen (intern A s (.namedNode q.predicate)) fun pId s =>
  andThen (intern A s q.object) fun oId s =>
  (.ok (gId, sId, pId, oId), s)

/-! ## Writes to the delta -/

/-- `image_contains`, `false` for a graph without an image. -/
def imageContains (s : RingStore D) (gId : GraphId) (sId pId oId : TermId) : Option Bool :=
  match s.graphs[gId]? with
  | none => some false
  | some img => img.containsExternal sId.asU64 pId.asU64 oId.asU64

def applyInsert (s : RingStore D) (q : Quad) : Outcome D Bool :=
  andThen (internQuad A s q) fun (gId, sId, pId, oId) s =>
    let key := packQuad gId sId pId oId
    match s.delta.get key with
    | some true => (.ok false, s)
    | some false => (.ok true, { s with delta := s.delta.insertKey key })
    | none =>
      match s.imageContains gId sId pId oId with
      | none => (.error (.panic .outOfBounds), s)
      | some true => (.ok false, s)
      | some false =>
        let s := { s with delta := s.delta.insertKey key }
        match q.graphName with
        | .namedNode _ => (.ok true, { s with namedGraphIds := s.namedGraphIds.insert gId })
        | _ => (.ok true, s)

def applyRemove (s : RingStore D) (q : Quad) : Outcome D Bool :=
  match lookupQuad A s.dict q with
  | .error p => (.error (.panic p), s)
  | .ok none => (.ok false, s)
  | .ok (some (gId, sId, pId, oId)) =>
    let key := packQuad gId sId pId oId
    match s.delta.get key with
    | some true => (.ok true, { s with delta := s.delta.tombstoneKey key })
    | some false => (.ok false, s)
    | none =>
      match s.imageContains gId sId pId oId with
      | none => (.error (.panic .outOfBounds), s)
      | some true => (.ok true, { s with delta := s.delta.tombstoneKey key })
      | some false => (.ok false, s)

/-! ## Compaction -/

/-- The triples of the images, graph by graph. -/
def perGraph (s : RingStore D) : Option (GraphMap (List Row)) :=
  s.graphs.toList.foldlM (fun m e => e.2.enumerateSpoExternal.map fun triples => m.insert e.1 triples) ∅

/-- The triples of the new images. -/
def merged (s : RingStore D) : Option (GraphMap (List Row)) :=
  s.perGraph.map fun m => s.delta.iter.foldl mergeEntry m

def buildImage (file : Option Bool) (triples : List Row) : BraidedGraphImage :=
  match file with
  | none => .fromExternalTriples triples
  | some huff => (BraidedGraphImage.fromExternalTriples triples).materializeMapped huff

/-- A graph without triples gets no image. -/
def buildGraphs (files : GraphId → Option Bool) (m : GraphMap (List Row)) : GraphMap BraidedGraphImage :=
  m.filterMap fun gId triples => if triples.isEmpty then none else some (buildImage (files gId) triples)

/-- `dict.compact()?`. -/
def compactDict (s : RingStore D) : Outcome D Unit :=
  match A.compact s.dict with
  | .error p => (.error (.panic p), s)
  | .ok (.error e, d) => (.error (.err e), { s with dict := d })
  | .ok (.ok (), d) => (.ok (), { s with dict := d })

/-- `build_decode_snapshot`: the terms of the raw ids. -/
def buildDecodeSnapshot : D → List Nat → Except Panic (List (Option Term) × D)
  | d, [] => .ok ([], d)
  | d, raw :: rest =>
    match TermId.new raw with
    | .error _ => do
      let (table, d) ← buildDecodeSnapshot d rest
      return (none :: table, d)
    | .ok id => do
      let (t, d) ← A.getTermArc d id
      let (table, d) ← buildDecodeSnapshot d rest
      return (t :: table, d)

/-- Merge, compact the dictionary, build the images; returns the decode snapshot.
`len` is the number of ids of the dictionary. -/
def compactLocked (len : D → Nat) (files : Residency) (s : RingStore D) : Outcome D (List (Option Term)) :=
  match s.merged with
  | none => (.error (.panic .outOfBounds), s)
  | some m =>
    andThen (compactDict A s) fun _ s =>
      let s := { s with
        graphs := buildGraphs (files s.compactionCount) m
        delta := s.delta.clear
        compactionCount := s.compactionCount + 1 }
      match buildDecodeSnapshot A s.dict (List.range (len s.dict)) with
      | .error p => (.error (.panic p), s)
      | .ok (table, d) => (.ok table, { s with dict := d })

/-! ## Calls -/

/-- `maybe_auto_compact` does nothing without a data directory. -/
def insert (s : RingStore D) (q : Quad) : Outcome D Bool := applyInsert A s q

def remove (s : RingStore D) (q : Quad) : Outcome D Bool := applyRemove A s q

/-- The loop of `extend_boxed` and `bulk_load`. -/
def insertAll : RingStore D → Nat → List Quad → Outcome D Nat
  | s, count, [] => (.ok count, s)
  | s, count, q :: rest =>
    andThen (applyInsert A s q) fun inserted s =>
      insertAll s (if inserted then count + 1 else count) rest

def extendBoxed (s : RingStore D) (quads : List Quad) : Outcome D Nat :=
  if quads.isEmpty then (.ok 0, s) else insertAll A s 0 quads

/-- The loop of `apply_batch`. -/
def applyAll : RingStore D → Nat → Nat → List QuadOp → Outcome D (Nat × Nat)
  | s, inserted, removed, [] => (.ok (inserted, removed), s)
  | s, inserted, removed, .insert q :: rest =>
    andThen (applyInsert A s q) fun changed s =>
      applyAll s (if changed then inserted + 1 else inserted) removed rest
  | s, inserted, removed, .remove q :: rest =>
    andThen (applyRemove A s q) fun changed s =>
      applyAll s inserted (if changed then removed + 1 else removed) rest

def applyBatch (s : RingStore D) (ops : List QuadOp) : Outcome D (Nat × Nat) :=
  if ops.isEmpty then (.ok (0, 0), s) else applyAll A s 0 0 ops

section Compacting

variable (len : D → Nat) (files : Residency)

def compact (s : RingStore D) : Outcome D Unit :=
  andThen (compactLocked A len files s) fun _ s => (.ok (), s)

/-- `bulk_load_with_progress`, without the progress callback: returns the number of
quads consumed. -/
def bulkLoad (s : RingStore D) (quads : List Quad) : Outcome D Nat :=
  andThen (insertAll A s 0 quads) fun newInserts s =>
    if 0 < newInserts ∨ s.delta.isEmpty = false then
      andThen (compactLocked A len files s) fun _ s => (.ok quads.length, s)
    else (.ok quads.length, s)

open LoudsStore (Reply Call Event)

/-- A call of the write interface. -/
def step (s : RingStore D) : Event → Outcome D Reply
  | .call (.insert q) => andThen (insert A s q) fun b s => (.ok (.changed b), s)
  | .call (.remove q) => andThen (remove A s q) fun b s => (.ok (.changed b), s)
  | .call (.extendBoxed quads) => andThen (extendBoxed A s quads) fun c s => (.ok (.count c), s)
  | .call (.applyBatch ops) => andThen (applyBatch A s ops) fun c s => (.ok (.counts c.1 c.2), s)
  | .call .compact => andThen (compact A len files s) fun _ s => (.ok .done, s)
  | .bulkLoad quads => andThen (bulkLoad A len files s quads) fun c s => (.ok (.count c), s)

end Compacting

/-! ## Reads -/

def contains (s : RingStore D) (q : Quad) : Except Panic Bool :=
  match lookupQuad A s.dict q with
  | .error p => .error p
  | .ok none => .ok false
  | .ok (some (gId, sId, pId, oId)) =>
    match s.delta.get (packQuad gId sId pId oId) with
    | some true => .ok true
    | some false => .ok false
    | none =>
      match s.imageContains gId sId pId oId with
      | none => .error .outOfBounds
      | some b => .ok b

/-- `len` and `triple_count`. -/
def len (s : RingStore D) : Nat :=
  let ringTotal := (s.graphs.toList.map fun e => e.2.ring.n).sum
  -- `saturating_sub`
  (ringTotal - s.delta.tombstoneCount) + s.delta.insertCount

/-- The image's matches that the delta has not decided; a number that is no id is
passed over. -/
def scanImage (gId : GraphId) : LoudsStore.Scan D → List Row → Except Panic (LoudsStore.Scan D)
  | sc, [] => .ok sc
  | sc, (rs, rp, ro) :: rest =>
    if rowKey gId (rs, rp, ro) ∈ sc.seen then scanImage gId sc rest
    else
      match TermId.new rs, TermId.new rp, TermId.new ro with
      | .ok sId, .ok pId, .ok oId => do
        let sc ← sc.push A gId sId pId oId
        scanImage gId sc rest
      | _, _, _ => scanImage gId sc rest

/-- One graph: the delta in the range of the pattern, then the image. -/
def scanGraph (s : RingStore D) (sId pId oId : Option TermId) (sc : LoudsStore.Scan D) (gId : GraphId) :
    Except Panic (LoudsStore.Scan D) := do
  let (lo, hi) := Delta.graphRange gId sId pId oId
  let sc ← LoudsStore.scanDelta A gId sId pId oId sc (s.delta.rangeInclusive lo hi)
  match s.graphs[gId]? with
  | none => return sc
  | some img =>
    match img.matchTriplesExternal (sId.map TermId.asU64) (pId.map TermId.asU64) (oId.map TermId.asU64) with
    | none => .error .outOfBounds
    | some rows => scanImage A gId sc rows

/-- Every graph that may hold a quad. -/
def knownGraphIds (s : RingStore D) : List GraphId :=
  (s.graphs.keys ++ graphDefault :: s.namedGraphIds ++
    s.delta.iter.map fun e => (unpackQuad e.1).1).dedup

def quadsForPattern (s : RingStore D) (subject : Option Term) (predicate : Option NamedNode)
    (object : Option Term) (graphName : Option GraphName) :
    Except Panic (List StoredQuad × RingStore D) := do
  match ← encode A s.dict subject with
  | none => return ([], s)
  | some sId =>
    match ← encode A s.dict (predicate.map .namedNode) with
    | none => return ([], s)
    | some pId =>
      match ← encode A s.dict object with
      | none => return ([], s)
      | some oId =>
        let searchGraphs := match graphName with
          | none => some s.knownGraphIds
          | some g => (A.getGraphId s.dict g).map fun id => [id]
        match searchGraphs with
        | none => return ([], s)
        | some gIds =>
          let sc ← gIds.foldlM (scanGraph A s sId pId oId) ⟨s.dict, [], []⟩
          return (sc.results, { s with dict := sc.dict })

end RingStore

end Nova
