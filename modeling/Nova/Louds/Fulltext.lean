import Nova.Louds.Durability

/-!
# The store with a full-text index

A store that has full-text search enabled keeps one document for each quad of the
rings whose object is a literal. A compaction feeds the entries of the delta to the
index before it folds them into the rings and commits the index after its own commit; a
bulk load goes to the rings and tells the index nothing. `enableFulltext` builds the
index from the rings, unless the generation marker next to it says that the snapshot is
the one it was committed for.

The index library is taken to do what its calls say: a document is added, deleted by
its key, and what was added and deleted becomes visible with the commit. With a data
directory the index and its marker are files of their own, and the steps a call takes on
them come after its steps on the directory (`TextOp`); a crash cuts the whole list.

Every call of `Nova.Louds.Persist` is repeated here as far as it compacts; what does not
touch the index is passed on to the store.
-/

namespace Nova

open Nova.Lib
open Wal (WalRecord)

/-! ## The index -/

/-- The fields of a document; `quadKey` is the term it is deleted by. -/
structure Document where
  quadKey : Nat
  subjectId : Nat
  predicateId : Nat
  objectId : Nat
  graphId : Nat
  text : String
  lang : Option String
deriving DecidableEq, Repr

/-- `FulltextIndex`: the documents a search sees, and those it will see after the next
commit. -/
structure FulltextIndex where
  committed : List Document
  writer : List Document

namespace FulltextIndex

def createInRam : FulltextIndex := ⟨[], []⟩

def openOrCreate (files : List Document) : FulltextIndex := ⟨files, files⟩

def removeByKey (ft : FulltextIndex) (quadKey : Nat) : FulltextIndex :=
  { ft with writer := ft.writer.filter fun doc => doc.quadKey ≠ quadKey }

/-- A document with the same key is deleted first. -/
def addLiteral (ft : FulltextIndex) (doc : Document) : FulltextIndex :=
  { ft with writer := (ft.removeByKey doc.quadKey).writer ++ [doc] }

def clear (ft : FulltextIndex) : FulltextIndex := { ft with writer := [] }

def commit (ft : FulltextIndex) : FulltextIndex := { ft with committed := ft.writer }

end FulltextIndex

/-- The data directory with the files of the index in it. -/
structure TextDir (S : Type) where
  dir : Dir Rings S
  index : List Document
  /-- `fulltext/GENERATION`. -/
  marker : Option Nat

inductive TextOp (S : Type) where
  | fs (op : FsOp Rings S)
  | commitIndex (docs : List Document)
  | writeMarker (generation : Nat)

namespace TextDir

variable {S : Type}

def empty : TextDir S := ⟨.empty, [], none⟩

def step (f : TextDir S) : TextOp S → TextDir S
  | .fs op => { f with dir := f.dir.step op }
  | .commitIndex docs => { f with index := docs }
  | .writeMarker generation => { f with marker := some generation }

def steps (f : TextDir S) (ops : List (TextOp S)) : TextDir S := ops.foldl step f

def stepPartly (f : TextDir S) (gone : FileName → Bool) : Option (TextOp S) → TextDir S
  | some (.fs op) => { f with dir := f.dir.stepPartly gone (some op) }
  | _ => f

/-- The files after a crash behind the first `k` steps. -/
def cut (f : TextDir S) (ops : List (TextOp S)) (k : Nat) (gone : FileName → Bool) : TextDir S :=
  (f.steps (ops.take k)).stepPartly gone ops[k]?

end TextDir

/-! ## Indexing -/

/-- `literal_text`: what is indexed of an object. -/
def literalText : Term → Option (String × Option String)
  | .literal lit => some (lit.value, lit.language)
  | _ => none

/-- The document of a quad whose object has this text. -/
def documentOf (g : GraphId) (sId pId oId : TermId) (text : String × Option String) : Document where
  quadKey := packQuad g sId pId oId
  subjectId := sId.asU64
  predicateId := pId.asU64
  objectId := oId.asU64
  graphId := g.toNat
  text := text.1
  lang := text.2

section Indexing

variable {D : Type} (A : DictApi D)

/-- `index_quad_insert`. -/
def indexQuadInsert (d : D) (ft : FulltextIndex) (g : GraphId) (sId pId oId : TermId) :
    Except Panic (FulltextIndex × D) := do
  let (obj, d) ← A.getTermArc d oId
  match obj.bind literalText with
  | none => return (ft, d)
  | some text => return (ft.addLiteral (documentOf g sId pId oId text), d)

/-- `index_quad_remove`. -/
def indexQuadRemove (ft : FulltextIndex) (g : GraphId) (sId pId oId : TermId) : FulltextIndex :=
  ft.removeByKey (packQuad g sId pId oId)

/-- The loop of `index_delta_into_fulltext`. -/
def indexEntries : D → FulltextIndex → List (Nat × Bool) → Except Panic (FulltextIndex × D)
  | d, ft, [] => .ok (ft, d)
  | d, ft, (key, isInsert) :: entries =>
    let (g, sId, pId, oId) := unpackQuad key
    if isInsert then do
      let (ft, d) ← indexQuadInsert A d ft g sId pId oId
      indexEntries d ft entries
    else indexEntries d (indexQuadRemove ft g sId pId oId) entries

/-- `TermId::new(raw)` on an id out of a ring. -/
def ringId (raw : Nat) : Except Fault TermId :=
  match TermId.new raw with
  | .ok id => .ok id
  | .error _ => .error (.err .idSpaceExhausted)

/-- `rebuild_from_spo_triples`, one graph. -/
def rebuildGraph (g : GraphId) : D → FulltextIndex → List Row → Except Fault (FulltextIndex × D)
  | d, ft, [] => .ok (ft, d)
  | d, ft, (s, p, o) :: triples => do
    let sId ← ringId s
    let pId ← ringId p
    let oId ← ringId o
    let (ft, d) ← (indexQuadInsert A d ft g sId pId oId).mapError Fault.panic
    rebuildGraph g d ft triples

/-- `rebuild_from_spo_triples`, graph by graph. -/
def rebuildGraphs : D → FulltextIndex → List (GraphId × GraphRing) → Except Fault (FulltextIndex × D)
  | d, ft, [] => .ok (ft, d)
  | d, ft, (g, ring) :: graphs => do
    let (ft, d) ← rebuildGraph A g d ft ring.spoTriples
    rebuildGraphs d ft graphs

def rebuildAll (d : D) (graphs : Rings) (ft : FulltextIndex) : Except Fault (FulltextIndex × D) :=
  rebuildGraphs A d ft.clear graphs.toList

end Indexing

/-! ## The store -/

/-- `LoudsStoreInner` with its index. Without a data directory the generation and the
segment of `store` stay as they are. -/
structure IndexedStore (D : Type) where
  store : Persistent D
  dataDir : Bool
  fulltext : Option FulltextIndex

namespace IndexedStore

open LoudsStore

variable {D S α β : Type}

abbrev Outcome (D S α : Type) := Except Fault α × IndexedStore D × List (TextOp S)

def andThen (x : Outcome D S α) (k : α → IndexedStore D → Outcome D S β) : Outcome D S β :=
  match x with
  | (.ok a, t, ops) =>
    let (r, t, ops') := k a t
    (r, t, ops ++ ops')
  | (.error f, t, ops) => (.error f, t, ops)

/-- A call of the store that does not touch the index. -/
def onStore (t : IndexedStore D) (x : Persistent.Outcome D S α) : Outcome D S α :=
  (x.1, { t with store := x.2.1 }, x.2.2.map .fs)

/-- The same call with and without a data directory. -/
def onEither (t : IndexedStore D) (persistent : Persistent D → Persistent.Outcome D S α)
    (memory : LoudsStore D → LoudsStore.Outcome D α) : Outcome D S α :=
  onStore t (if t.dataDir then persistent t.store else Persistent.inMemory t.store (memory t.store.inner))

/-- The dictionary, after its decode cache has been used. -/
def withDict (t : IndexedStore D) (d : D) : IndexedStore D :=
  { t with store := { t.store with inner := { t.store.inner with dict := d } } }

variable (crc32 : Bytes → UInt32) (A : DictApi D) (F : DictFile D S)

/-- `index_delta_into_fulltext`. -/
def indexDeltaIntoFulltext (t : IndexedStore D) : Outcome D S Unit :=
  match t.fulltext with
  | none => (.ok (), t, [])
  | some ft =>
    match indexEntries A t.store.inner.dict ft t.store.inner.delta.iter with
    | .error p => (.error (.panic p), t, [])
    | .ok (ft, d) => (.ok (), { t.withDict d with fulltext := some ft }, [])

/-- Commit the index and, with a data directory, write its marker. -/
def commitFulltext (t : IndexedStore D) (ft : FulltextIndex) : Outcome D S Unit :=
  (.ok (), { t with fulltext := some ft.commit },
    if t.dataDir then [.commitIndex ft.writer, .writeMarker t.store.snapshotGen] else [])

/-- `finalize_fulltext_commit`. -/
def finalizeFulltextCommit (t : IndexedStore D) : Outcome D S Unit :=
  match t.fulltext with
  | none => (.ok (), t, [])
  | some ft => commitFulltext t ft

/-- The index first: the commit clears the delta. -/
def compactLocked (t : IndexedStore D) : Outcome D S Unit :=
  andThen (indexDeltaIntoFulltext A t) fun _ t =>
  andThen (onEither t (Persistent.compactLocked A F) (LoudsStore.compactLocked A)) fun _ t =>
  finalizeFulltextCommit t

def bulkLoad (t : IndexedStore D) (quads : List Quad) : Outcome D S Nat :=
  onEither t (fun p => Persistent.bulkLoad A F p quads) fun s => LoudsStore.bulkLoad A s quads

/-- Without a data directory the threshold is `none`. -/
def maybeAutoCompact (t : IndexedStore D) : Outcome D S Unit :=
  match t.store.inner.autoCompactThreshold with
  | none => (.ok (), t, [])
  | some threshold =>
    if threshold ≤ t.store.inner.delta.len then compactLocked A F t else (.ok (), t, [])

def walAppend (t : IndexedStore D) (records : List WalRecord) : Outcome D S Unit :=
  onEither t (fun p => Persistent.walAppend crc32 p records) fun s => (.ok (), s)

/-- The shape of every write: log, apply, compact if the delta is full. -/
def logged (t : IndexedStore D) (records : List WalRecord) (apply : LoudsStore D → LoudsStore.Outcome D α) :
    Outcome D S α :=
  andThen (walAppend crc32 t records) fun _ t =>
  andThen (onStore t (Persistent.inMemory t.store (apply t.store.inner))) fun result t =>
  andThen (maybeAutoCompact A F t) fun _ t => (.ok result, t, [])

section Calls

variable (t : IndexedStore D)

def insert (q : Quad) : Outcome D S Bool :=
  logged crc32 A F t [.insertQuad q] fun s => applyInsert A s q

def remove (q : Quad) : Outcome D S Bool :=
  logged crc32 A F t [.removeQuad q] fun s => applyRemove A s q

def extendBoxed (quads : List Quad) : Outcome D S Nat :=
  if quads.isEmpty then (.ok 0, t, [])
  else logged crc32 A F t (quads.map .insertQuad) fun s => insertAll A s 0 quads

def applyBatch (ops : List QuadOp) : Outcome D S (Nat × Nat) :=
  if ops.isEmpty then (.ok (0, 0), t, [])
  else logged crc32 A F t (ops.map Persistent.recordOf) fun s => applyAll A s 0 0 ops

def registerNamedGraph (graph : GraphName) : Outcome D S Unit :=
  onEither t (fun p => Persistent.registerNamedGraph crc32 A p graph) fun s => applyRegisterGraph A s graph

/-- Has no effect without a data directory. -/
def setAutoCompactThreshold (threshold : Nat) : Outcome D S Unit :=
  onEither t (fun p => Persistent.setAutoCompactThreshold p threshold) fun s => (.ok (), s)

def call : Call → Outcome D S Reply
  | .insert q => andThen (insert crc32 A F t q) fun b t => (.ok (.changed b), t, [])
  | .remove q => andThen (remove crc32 A F t q) fun b t => (.ok (.changed b), t, [])
  | .extendBoxed quads => andThen (extendBoxed crc32 A F t quads) fun c t => (.ok (.count c), t, [])
  | .applyBatch ops =>
    andThen (applyBatch crc32 A F t ops) fun c t => (.ok (.counts c.1 c.2), t, [])
  | .compact => andThen (compactLocked A F t) fun _ t => (.ok .done, t, [])

/-- `enable_fulltext`, over the files of the index. -/
def enableFulltext (index : List Document) (marker : Option Nat) : Outcome D S Unit :=
  match t.fulltext with
  | some _ => (.ok (), t, [])
  | none =>
    let (ft, needsRebuild) :=
      if t.dataDir then (FulltextIndex.openOrCreate index, decide (marker ≠ some t.store.snapshotGen))
      else (.createInRam, true)
    if needsRebuild then
      match rebuildAll A t.store.inner.dict t.store.inner.graphs ft with
      | .error f => (.error f, t, [])
      | .ok (ft, d) => commitFulltext (t.withDict d) ft
    else (.ok (), { t with fulltext := some ft }, [])

end Calls

/-! ## Processes -/

inductive Request where
  | store (r : Persistent.Request)
  | enableFulltext
deriving DecidableEq, Repr

def request (files : TextDir S) (t : IndexedStore D) : Request → Outcome D S Reply
  | .store (.call c) => call crc32 A F t c
  | .store (.bulkLoad quads) => andThen (bulkLoad A F t quads) fun c t => (.ok (.count c), t, [])
  | .store (.registerNamedGraph g) =>
    andThen (registerNamedGraph crc32 A t g) fun _ t => (.ok .done, t, [])
  | .store (.setAutoCompactThreshold threshold) =>
    andThen (setAutoCompactThreshold t threshold) fun _ t => (.ok .done, t, [])
  | .enableFulltext => andThen (enableFulltext A t files.index files.marker) fun _ t => (.ok .done, t, [])

end IndexedStore

/-- The files, and the process that runs a store: over the files, or in memory. -/
structure TextSite (D S : Type) where
  files : TextDir S
  process : Option (IndexedStore D)

/-- What happens to a site: as in `Action`, and a store in memory may be started. -/
inductive TextAction where
  | request (r : IndexedStore.Request)
  | crash (r : IndexedStore.Request) (k : Nat) (gone : FileName → Bool)
  | close
  | openDir
  | crashOpening (k : Nat) (gone : FileName → Bool)
  | newStore

namespace TextSite

open LoudsStore

variable {D S : Type}

def empty : TextSite D S := ⟨.empty, none⟩

def step (crc32 : Bytes → UInt32) (A : DictApi D) (F : DictFile D S) (fresh : D) :
    Machine (TextSite D S) TextAction Fault (Option Reply)
  | ⟨files, some t⟩, .request r =>
    let (reply, t, ops) := IndexedStore.request crc32 A F files t r
    (reply.map some, ⟨files.steps ops, some t⟩)
  | ⟨files, some t⟩, .crash r k gone =>
    let (_, _, ops) := IndexedStore.request crc32 A F files t r
    (.ok none, ⟨files.cut ops k gone, none⟩)
  | ⟨files, some _⟩, .close => (.ok none, ⟨files, none⟩)
  | ⟨files, none⟩, .openDir =>
    let (r, ops) := Persistent.openDir crc32 A F fresh files.dir
    match r with
    | .ok p => (.ok none, ⟨files.steps (ops.map .fs), some ⟨p, true, none⟩⟩)
    | .error f => (.error f, ⟨files.steps (ops.map .fs), none⟩)
  | ⟨files, none⟩, .crashOpening k gone =>
    let (_, ops) := Persistent.openDir crc32 A F fresh files.dir
    (.ok none, ⟨files.cut (ops.map .fs) k gone, none⟩)
  | ⟨files, none⟩, .newStore =>
    (.ok none, ⟨files, some ⟨⟨LoudsStore.new fresh, 0, 0⟩, false, none⟩⟩)
  | site, _ => (.ok none, site)

end TextSite

end Nova
