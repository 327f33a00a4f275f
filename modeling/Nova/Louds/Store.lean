import Nova.Core.Names
import Nova.Louds.Delta
import Nova.Louds.Ring

/-!
# The LOUDS store

The quad store over a dictionary, one ring for each graph and a delta of pending
writes. Writes go to the delta; `compactLocked` folds the delta into new rings;
`bulkLoad` adds quads to the rings directly and leaves the delta alone. Readers
take the delta first and the rings for what it does not mention.

Every call here is one critical section of the source's mutex. A call returns a
value or a fault together with the store it leaves: a fault is an error or a
panic, and both leave behind what was done before it. The dictionary is a
parameter, given by the calls in `DictApi`. The write-ahead log and the data
directory are added in `Nova.Louds.Persist` and the full-text index in
`Nova.Louds.Fulltext`; the counters of the metrics are left out.
-/

namespace Nova

open Nova.Lib

/-- `HashMap<GraphId, _>`. -/
abbrev GraphMap (α : Type) := Std.TreeMap GraphId α compare

/-- `LoudsStoreInner`. -/
structure LoudsStore (D : Type) where
  dict : D
  graphs : GraphMap GraphRing
  delta : Delta
  /-- Named graphs that were registered explicitly or by a write. -/
  namedGraphIds : List GraphId
  /-- `auto_compact_threshold` of a store with a data directory; an in-memory
  store never compacts on its own. -/
  autoCompactThreshold : Option Nat

/-- A stored quad as the readers return it. -/
structure StoredQuad where
  subject : Term
  predicate : Term
  object : Term
  graphName : GraphName
deriving DecidableEq, Repr

/-- One element of a batch. -/
inductive QuadOp where
  | insert (q : Quad)
  | remove (q : Quad)
deriving DecidableEq, Repr

namespace LoudsStore

variable {D : Type} (A : DictApi D)

def new (dict : D) : LoudsStore D where
  dict := dict
  graphs := ∅
  delta := .new
  namedGraphIds := []
  autoCompactThreshold := none

abbrev Outcome (D α : Type) := Except Fault α × LoudsStore D

/-- `f()?`: a fault ends the caller as well. -/
def andThen {α β : Type} (x : Outcome D α) (k : α → LoudsStore D → Outcome D β) : Outcome D β :=
  match x with
  | (.ok a, s) => k a s
  | (.error f, s) => (.error f, s)

/-! ## Dictionary calls -/

def intern (s : LoudsStore D) (t : Term) : Outcome D TermId :=
  match A.intern s.dict t with
  | .error p => (.error (.panic p), s)
  | .ok (.error e, d) => (.error (.err e), { s with dict := d })
  | .ok (.ok id, d) => (.ok id, { s with dict := d })

def internGraph (s : LoudsStore D) (g : GraphName) : Outcome D GraphId :=
  match A.internGraph s.dict g with
  | (.error e, d) => (.error (.err e), { s with dict := d })
  | (.ok id, d) => (.ok id, { s with dict := d })

/-- Graph, subject, predicate and object, in this order. -/
def internQuad (s : LoudsStore D) (q : Quad) : Outcome D (GraphId × TermId × TermId × TermId) :=
  andThen (internGraph A s q.graphName) fun gId s =>
  andThen (intern A s q.subject.toTerm) fun sId s =>
  andThen (intern A s (.namedNode q.predicate)) fun pId s =>
  andThen (intern A s q.object) fun oId s =>
  (.ok (gId, sId, pId, oId), s)

/-- The ids of a quad, or `none` as soon as one of its names is unknown. -/
def lookupQuad (d : D) (q : Quad) : Except Panic (Option (GraphId × TermId × TermId × TermId)) :=
  match A.getGraphId d q.graphName with
  | none => .ok none
  | some gId =>
    match A.getId d q.subject.toTerm with
    | .error p => .error p
    | .ok none => .ok none
    | .ok (some sId) =>
      match A.getId d (.namedNode q.predicate) with
      | .error p => .error p
      | .ok none => .ok none
      | .ok (some pId) =>
        match A.getId d q.object with
        | .error p => .error p
        | .ok none => .ok none
        | .ok (some oId) => .ok (some (gId, sId, pId, oId))

def ringContains (s : LoudsStore D) (gId : GraphId) (sId pId oId : TermId) : Bool :=
  match s.graphs[gId]? with
  | none => false
  | some ring => ring.contains sId.asU64 pId.asU64 oId.asU64

/-! ## Writes to the delta -/

def applyInsert (s : LoudsStore D) (q : Quad) : Outcome D Bool :=
  andThen (internQuad A s q) fun (gId, sId, pId, oId) s =>
    let key := packQuad gId sId pId oId
    match s.delta.get key with
    | some true => (.ok false, s)
    | some false => (.ok true, { s with delta := s.delta.insertKey key })
    | none =>
      if s.ringContains gId sId pId oId then (.ok false, s)
      else
        let s := { s with delta := s.delta.insertKey key }
        match q.graphName with
        | .namedNode _ => (.ok true, { s with namedGraphIds := s.namedGraphIds.insert gId })
        | _ => (.ok true, s)

def applyRemove (s : LoudsStore D) (q : Quad) : Outcome D Bool :=
  match lookupQuad A s.dict q with
  | .error p => (.error (.panic p), s)
  | .ok none => (.ok false, s)
  | .ok (some (gId, sId, pId, oId)) =>
    let key := packQuad gId sId pId oId
    match s.delta.get key with
    | some true => (.ok true, { s with delta := s.delta.tombstoneKey key })
    | some false => (.ok false, s)
    | none =>
      if s.ringContains gId sId pId oId then
        (.ok true, { s with delta := s.delta.tombstoneKey key })
      else (.ok false, s)

def applyRegisterGraph (s : LoudsStore D) (graph : GraphName) : Outcome D Unit :=
  match graph with
  | .namedNode _ =>
    andThen (internGraph A s graph) fun gId s =>
      (.ok (), { s with namedGraphIds := s.namedGraphIds.insert gId })
  | _ => (.ok (), s)

/-! ## Merging -/

def rowOf (sId pId oId : TermId) : Row := (sId.asU64, pId.asU64, oId.asU64)

/-- The triples of the rings, graph by graph. -/
def perGraph (s : LoudsStore D) : GraphMap (List Row) := s.graphs.map fun _ ring => ring.spoTriples

/-- One entry of the delta merged into the collected triples. -/
def mergeEntry (perGraph : GraphMap (List Row)) (entry : Nat × Bool) : GraphMap (List Row) :=
  let (gId, sId, pId, oId) := unpackQuad entry.1
  let triple := rowOf sId pId oId
  perGraph.alter gId fun triples =>
    let triples := triples.getD []
    some (if entry.2 then triples ++ [triple] else triples.filter fun t => t ≠ triple)

/-- A graph without triples gets no ring. -/
def buildGraphsFromTriples (perGraph : GraphMap (List Row)) : GraphMap GraphRing :=
  perGraph.filterMap fun _ triples => if triples.isEmpty then none else some (ringBuild triples)

/-- `dict.compact()?`. -/
def compactDict (s : LoudsStore D) : Outcome D Unit :=
  match A.compact s.dict with
  | .error p => (.error (.panic p), s)
  | .ok (.error e, d) => (.error (.err e), { s with dict := d })
  | .ok (.ok (), d) => (.ok (), { s with dict := d })

/-- The in-memory part of `commit_compaction`. -/
def commitCompaction (s : LoudsStore D) (newGraphs : GraphMap GraphRing) (clearDelta : Bool) :
    LoudsStore D :=
  { s with
    graphs := newGraphs
    delta := if clearDelta then s.delta.clear else s.delta }

def compactLocked (s : LoudsStore D) : Outcome D Unit :=
  let newGraphs := buildGraphsFromTriples (s.delta.iter.foldl mergeEntry s.perGraph)
  andThen (compactDict A s) fun _ s => (.ok (), s.commitCompaction newGraphs true)

/-- `per_graph.entry(g_id).or_default().push(..)`. -/
def pushTriple (perGraph : GraphMap (List Row)) (gId : GraphId) (triple : Row) :
    GraphMap (List Row) :=
  perGraph.alter gId fun triples => some (triples.getD [] ++ [triple])

/-- The loop of `bulk_load`: intern each quad and collect its triple. -/
def loadQuads : LoudsStore D → GraphMap (List Row) → List Quad → Outcome D (GraphMap (List Row))
  | s, perGraph, [] => (.ok perGraph, s)
  | s, perGraph, q :: rest =>
    andThen (internQuad A s q) fun (gId, sId, pId, oId) s =>
      let perGraph := pushTriple perGraph gId (rowOf sId pId oId)
      match q.graphName with
      | .namedNode _ =>
        loadQuads { s with namedGraphIds := s.namedGraphIds.insert gId } perGraph rest
      | _ => loadQuads s perGraph rest

/-- `bulk_load_with_progress`, without the progress callback. -/
def bulkLoad (s : LoudsStore D) (quads : List Quad) : Outcome D Nat :=
  andThen (loadQuads A s s.perGraph quads) fun perGraph s =>
    let newGraphs := buildGraphsFromTriples perGraph
    andThen (compactDict A s) fun _ s => (.ok quads.length, s.commitCompaction newGraphs false)

/-! ## Calls -/

def compact (s : LoudsStore D) : Outcome D Unit := compactLocked A s

/-- The end of every write: a store with a data directory compacts once the
delta has reached the threshold. -/
def maybeAutoCompact (s : LoudsStore D) : Outcome D Unit :=
  match s.autoCompactThreshold with
  | none => (.ok (), s)
  | some threshold => if threshold ≤ s.delta.len then compactLocked A s else (.ok (), s)

def insert (s : LoudsStore D) (q : Quad) : Outcome D Bool :=
  andThen (applyInsert A s q) fun result s =>
  andThen (maybeAutoCompact A s) fun _ s => (.ok result, s)

def remove (s : LoudsStore D) (q : Quad) : Outcome D Bool :=
  andThen (applyRemove A s q) fun result s =>
  andThen (maybeAutoCompact A s) fun _ s => (.ok result, s)

/-- The loop of `extend_boxed`. -/
def insertAll : LoudsStore D → Nat → List Quad → Outcome D Nat
  | s, count, [] => (.ok count, s)
  | s, count, q :: rest =>
    andThen (applyInsert A s q) fun inserted s =>
      insertAll s (if inserted then count + 1 else count) rest

def extendBoxed (s : LoudsStore D) (quads : List Quad) : Outcome D Nat :=
  if quads.isEmpty then (.ok 0, s)
  else
    andThen (insertAll A s 0 quads) fun count s =>
    andThen (maybeAutoCompact A s) fun _ s => (.ok count, s)

/-- The loop of `apply_batch`. -/
def applyAll : LoudsStore D → Nat → Nat → List QuadOp → Outcome D (Nat × Nat)
  | s, inserted, removed, [] => (.ok (inserted, removed), s)
  | s, inserted, removed, .insert q :: rest =>
    andThen (applyInsert A s q) fun changed s =>
      applyAll s (if changed then inserted + 1 else inserted) removed rest
  | s, inserted, removed, .remove q :: rest =>
    andThen (applyRemove A s q) fun changed s =>
      applyAll s inserted (if changed then removed + 1 else removed) rest

def applyBatch (s : LoudsStore D) (ops : List QuadOp) : Outcome D (Nat × Nat) :=
  if ops.isEmpty then (.ok (0, 0), s)
  else
    andThen (applyAll A s 0 0 ops) fun counts s =>
    andThen (maybeAutoCompact A s) fun _ s => (.ok counts, s)

/-! ## Reads -/

def contains (s : LoudsStore D) (q : Quad) : Except Panic Bool :=
  match lookupQuad A s.dict q with
  | .error p => .error p
  | .ok none => .ok false
  | .ok (some (gId, sId, pId, oId)) =>
    match s.delta.get (packQuad gId sId pId oId) with
    | some true => .ok true
    | some false => .ok false
    | none => .ok (s.ringContains gId sId pId oId)

/-- `len` and `triple_count`. -/
def len (s : LoudsStore D) : Nat :=
  let ringTotal := (s.graphs.toList.map fun e => e.2.n).sum
  -- `saturating_sub`
  (ringTotal - s.delta.tombstoneCount) + s.delta.insertCount

/-- `decode_stored_quad`: a literal subject or a predicate that is not an IRI
makes no quad. -/
def decodeStoredQuad (d : D) (gId : GraphId) (sId pId oId : TermId) :
    Except Panic (Option StoredQuad × D) :=
  match A.getGraph d gId with
  | none => .ok (none, d)
  | some graphName => do
    let (sTerm, d) ← A.getTermArc d sId
    match sTerm with
    | none => return (none, d)
    | some sTerm =>
      let (pTerm, d) ← A.getTermArc d pId
      match pTerm with
      | none => return (none, d)
      | some pTerm =>
        let (oTerm, d) ← A.getTermArc d oId
        match oTerm with
        | none => return (none, d)
        | some oTerm =>
          match sTerm with
          | .literal _ => return (none, d)
          | sTerm =>
            match pTerm with
            | .namedNode p => return (some ⟨sTerm, .namedNode p, oTerm, graphName⟩, d)
            | _ => return (none, d)

/-- What a scan has collected; `seen` are the keys the delta has decided. -/
structure Scan (D : Type) where
  dict : D
  results : List StoredQuad
  seen : List Nat

/-- Decode a quad and keep it if it is one. -/
def Scan.push (sc : Scan D) (gId : GraphId) (sId pId oId : TermId) : Except Panic (Scan D) := do
  let (sq, d) ← decodeStoredQuad A sc.dict gId sId pId oId
  return { sc with dict := d, results := sc.results ++ sq.toList }

/-- The entries of the delta in the range of the pattern. -/
def scanDelta (gId : GraphId) (sId pId oId : Option TermId) :
    Scan D → List (Nat × Bool) → Except Panic (Scan D)
  | sc, [] => .ok sc
  | sc, (key, isInsert) :: rest =>
    let (dkG, dkS, dkP, dkO) := unpackQuad key
    if dkG ≠ gId then scanDelta gId sId pId oId sc rest
    else if ¬Delta.Agrees sId dkS then scanDelta gId sId pId oId sc rest
    else if ¬Delta.Agrees pId dkP then scanDelta gId sId pId oId sc rest
    else if ¬Delta.Agrees oId dkO then scanDelta gId sId pId oId sc rest
    else do
      -- tombstones are noted too: they suppress the ring's triple
      let sc := { sc with seen := key :: sc.seen }
      if isInsert then
        let sc ← sc.push A gId dkS dkP dkO
        scanDelta gId sId pId oId sc rest
      else scanDelta gId sId pId oId sc rest

/-- `TermId::new(raw).unwrap_or(TermId::new(0).unwrap())`. -/
def idOrZero (raw : Nat) : TermId :=
  match TermId.new raw with
  | .ok id => id
  | .error _ => ⟨0, Nat.zero_le _⟩

/-- `TermId::new(raw).unwrap()`. -/
def unwrapId (raw : Nat) : Except Panic TermId :=
  match TermId.new raw with
  | .ok id => .ok id
  | .error _ => .error (.expect "called `Result::unwrap()` on an `Err` value")

def rowKey (gId : GraphId) (t : Row) : Nat :=
  packQuad gId (idOrZero t.1) (idOrZero t.2.1) (idOrZero t.2.2)

/-- The ring's matches that the delta has not decided. -/
def scanRing (gId : GraphId) : Scan D → List Row → Except Panic (Scan D)
  | sc, [] => .ok sc
  | sc, (rs, rp, ro) :: rest =>
    if rowKey gId (rs, rp, ro) ∈ sc.seen then scanRing gId sc rest
    else do
      let sId ← unwrapId rs
      let pId ← unwrapId rp
      let oId ← unwrapId ro
      let sc ← sc.push A gId sId pId oId
      scanRing gId sc rest

/-- One graph: the delta in the range of the pattern, then the ring. -/
def scanGraph (s : LoudsStore D) (sId pId oId : Option TermId) (sc : Scan D) (gId : GraphId) :
    Except Panic (Scan D) := do
  let (lo, hi) := Delta.graphRange gId sId pId oId
  let sc ← scanDelta A gId sId pId oId sc (s.delta.rangeInclusive lo hi)
  match s.graphs[gId]? with
  | none => return sc
  | some ring =>
    scanRing A gId sc
      (ring.matchTriples (sId.map TermId.asU64) (pId.map TermId.asU64) (oId.map TermId.asU64))

def scanGraphs (s : LoudsStore D) (sId pId oId : Option TermId) :
    Scan D → List GraphId → Except Panic (Scan D)
  | sc, [] => .ok sc
  | sc, gId :: rest => do
    let sc ← scanGraph A s sId pId oId sc gId
    scanGraphs s sId pId oId sc rest

/-- Every graph that may hold a quad: rings, the default graph, registered
graphs and graphs of delta keys. -/
def knownGraphIds (s : LoudsStore D) : List GraphId :=
  (s.graphs.keys ++ graphDefault :: s.namedGraphIds ++
    s.delta.iter.map fun e => (unpackQuad e.1).1).dedup

/-- `known_named_graphs`: the registered graphs, then those that only have a ring. -/
def knownNamedGraphs (s : LoudsStore D) : List GraphName :=
  (s.namedGraphIds ++ s.graphs.keys.filter fun gId => gId ≠ graphDefault).dedup.filterMap
    (A.getGraph s.dict)

/-- The id of a bound position: `none` if the term is not in the dictionary, so
that nothing can match. -/
def encode (d : D) : Option Term → Except Panic (Option (Option TermId))
  | none => .ok (some none)
  | some t =>
    match A.getId d t with
    | .error p => .error p
    | .ok none => .ok none
    | .ok (some id) => .ok (some (some id))

/-- The graphs to search: `none` if the given graph is unknown. -/
def searchGraphs (s : LoudsStore D) : Option GraphName → Option (List GraphId)
  | none => some s.knownGraphIds
  | some g => (A.getGraphId s.dict g).map fun id => [id]

def quadsForPattern (s : LoudsStore D) (subject : Option Term) (predicate : Option NamedNode)
    (object : Option Term) (graphName : Option GraphName) :
    Except Panic (List StoredQuad × LoudsStore D) := do
  match ← encode A s.dict subject with
  | none => return ([], s)
  | some sId =>
    match ← encode A s.dict (predicate.map .namedNode) with
    | none => return ([], s)
    | some pId =>
      match ← encode A s.dict object with
      | none => return ([], s)
      | some oId =>
        match searchGraphs A s graphName with
        | none => return ([], s)
        | some gIds =>
          let sc ← scanGraphs A s sId pId oId ⟨s.dict, [], []⟩ gIds
          return (sc.results, { s with dict := sc.dict })

end LoudsStore

end Nova
