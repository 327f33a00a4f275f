import Nova.Louds.Recovery
import Nova.Ring.Directory
import Nova.Ring.Refine

/-!
# The ring store with a data directory

Every write is appended to the active segment of the log before it is applied. A
compaction writes an image and a table of ids for each graph that has triples, then the
dictionary, a new segment and the MANIFEST; only then is the new state installed.
`openDir` opens every image of the MANIFEST's generation that the directory lists and
replays the log on top.

A call returns its result, the store it leaves and the operations on the directory, in
order. A compaction goes over a hash map and can return an error anywhere before the
MANIFEST is renamed: `Course` is the order of the graphs and where it stops. `RingSite`
is a directory with or without a process over it.

The sync policy, the backup and the full-text index are left out; every write is durable
when it returns.
-/

namespace Nova

open Nova.Lib Nova.Ring
open Wal (WalRecord)

/-- `RingStoreInner` with a data directory. -/
structure PersistentRing (D : Type) where
  inner : RingStore D
  snapshotGen : Nat
  walSeq : Nat
  autoCompactThreshold : Nat

namespace RingStore

variable {D S : Type}

/-! ## Replay -/

def applyRegisterGraph (A : DictApi D) (s : RingStore D) (graph : GraphName) : Outcome D Unit :=
  match graph with
  | .namedNode _ =>
    andThen (internGraph A s graph) fun gId s =>
      (.ok (), { s with namedGraphIds := s.namedGraphIds.insert gId })
  | _ => (.ok (), s)

/-- One record of the log, applied without logging it again. -/
def applyRecord (A : DictApi D) (s : RingStore D) : WalRecord → Outcome D Unit
  | .insertQuad q => andThen (applyInsert A s q) fun _ s => (.ok (), s)
  | .removeQuad q => andThen (applyRemove A s q) fun _ s => (.ok (), s)
  | .registerGraph g => applyRegisterGraph A s g

/-- A record that returns an error is skipped; a panic ends the replay. -/
def replayRecords (A : DictApi D) : RingStore D → List WalRecord → Except Panic (RingStore D)
  | s, [] => .ok s
  | s, r :: rs =>
    match applyRecord A s r with
    | (.error (.panic p), _) => .error p
    | (_, s) => replayRecords A s rs

/-- `wal::replay` on each segment: the records, then the torn tail is cut off. -/
def replaySegments (crc32 : Bytes → UInt32) (A : DictApi D) :
    RingStore D → List (Nat × Bytes) → Except Panic (RingStore D) × List (RingOp S)
  | s, [] => (.ok s, [])
  | s, (seq, file) :: rest =>
    let replayed := Wal.replay crc32 file
    match replayRecords A s replayed.applied with
    | .error p => (.error p, [])
    | .ok s =>
      let torn := if replayed.file.length < file.length then [.truncate seq replayed.file.length] else []
      let (r, ops) := replaySegments crc32 A s rest
      (r, torn ++ ops)

end RingStore

/-- How a compaction goes: the order in which a hash map yields the graphs, and after how
many operations on the directory it returns an error, if it does. -/
structure Course where
  rank : GraphId → Nat
  stop : Option Nat

namespace PersistentRing

open RingStore
open LoudsStore (Reply Call Event)
open Persistent (recordOf)

variable {D S α β : Type}

abbrev Outcome (D S α : Type) := Except Fault α × PersistentRing D × List (RingOp S)

def andThen (x : Outcome D S α) (k : α → PersistentRing D → Outcome D S β) : Outcome D S β :=
  match x with
  | (.ok a, p, ops) =>
    let (r, p, ops') := k a p
    (r, p, ops ++ ops')
  | (.error f, p, ops) => (.error f, p, ops)

/-- A step that does not touch the directory. -/
def inMemory (p : PersistentRing D) (x : RingStore.Outcome D α) : Outcome D S α :=
  (x.1, { p with inner := x.2 }, [])

/-! ## Opening -/

/-- The listed images, one after another. A graph with an image becomes known. A file
whose number is no graph id is passed over. -/
def openImages (remaps : Files RemapFile) : RingStore D → List (Nat × ImageFile) → Option (RingStore D)
  | s, [] => some s
  | s, (n, image) :: rest =>
    if 256 ≤ n then openImages remaps s rest
    else
      match BraidedGraphImage.openMappedWithRemap image (remaps.get n) with
      | none => none
      | some img =>
        let gId := UInt8.ofNat n
        openImages remaps { s with
          graphs := s.graphs.insert gId img
          namedGraphIds := if gId = graphDefault then s.namedGraphIds else s.namedGraphIds.insert gId } rest

/-- The store as the MANIFEST's generation has it. A dictionary that does not exist is
read as empty. -/
def loadSnapshot (F : DictFile D S) (fresh : D) (dir : RingDir S) : Except Fault (RingStore D) :=
  let m := dir.loadManifest
  if m.snapshotGen > 0 then do
    let dict ← match dir.dicts.get m.snapshotGen with
      | none => .ok fresh
      | some file => F.load file
    match openImages (dir.remapsOf m.snapshotGen) (.new dict) (dir.imagesOf m.snapshotGen).entries with
    | none => .error (.err (.storage "failed to open ring image"))
    | some s => .ok s
  else .ok (.new fresh)

/-- The highest segment found, or the MANIFEST's if there is none. -/
def activeSeq (dir : RingDir S) : Nat := dir.segments.top dir.loadManifest.walSeq

/-- `RingStore::open`. -/
def openDir (crc32 : Bytes → UInt32) (A : DictApi D) (F : DictFile D S) (fresh : D) (dir : RingDir S) :
    Except Fault (PersistentRing D) × List (RingOp S) :=
  let m := dir.loadManifest
  match loadSnapshot F fresh dir with
  | .error f => (.error f, [])
  | .ok s =>
    match replaySegments crc32 A s (dir.segments.since m.walSeq) with
    | (.error p, ops) => (.error (.panic p), ops)
    | (.ok s, ops) =>
      let active := activeSeq dir
      (.ok ⟨s, m.snapshotGen, active, Persistent.defaultAutoCompactThreshold⟩,
        ops ++ [.createOrOpen active, .cleanupOrphans m.snapshotGen active])

/-! ## Writing -/

/-- `wal_append` and `wal_append_batch`. -/
def walAppend (crc32 : Bytes → UInt32) (p : PersistentRing D) (records : List WalRecord) : Outcome D S Unit :=
  (.ok (), p, [.append p.walSeq ((Wal.format crc32).log records)])

/-- The files of a generation, graph by graph. -/
def imageOps (generation : Nat) (graphs : List (GraphId × BraidedGraphImage)) : List (RingOp S) :=
  graphs.flatMap fun e =>
    [.writeImage generation e.1 e.2.imageFile, .writeRemap generation e.1 e.2.remap.writeToPath]

/-- The graphs of a map in the order that a hash map has given them. -/
def inOrder (rank : GraphId → Nat) (graphs : GraphMap BraidedGraphImage) : List (GraphId × BraidedGraphImage) :=
  graphs.toList.insertionSort fun a b => rank a.1 ≤ rank b.1

/-- `compact_locked`. `huff` is the kind of predicate column the code is built with, `len`
the number of ids of a dictionary. -/
def compactLocked (A : DictApi D) (F : DictFile D S) (len : D → Nat) (huff : Bool) (c : Course)
    (p : PersistentRing D) : Outcome D S Unit :=
  match p.inner.merged with
  | none => (.error (.panic .outOfBounds), p, [])
  | some m =>
    andThen (inMemory p (RingStore.compactDict A p.inner)) fun _ p =>
      let newGraphs := buildGraphs (fun _ => some huff) m
      let newGen := p.snapshotGen + 1
      let newSeq := p.walSeq + 1
      let file := F.save p.inner.dict
      let written := imageOps newGen (inOrder c.rank newGraphs) ++ [.writeDict newGen file, .loadDict newGen]
      let stopped : Fault := .err (.storage "I/O error")
      -- an error among the files of the generation: the dictionary in memory stays
      if (c.stop.any fun k => decide (k < written.length)) = true then
        (.error stopped, p, written.take (c.stop.getD 0))
      else
        match F.load file with
        | .error f => (.error f, p, written)
        | .ok dict =>
          let ops := written ++ [.createOrOpen newSeq, .writeManifestTmp ⟨newGen, newSeq⟩, .renameManifest,
            .cleanupOrphans newGen newSeq]
          -- an error before the rename of the MANIFEST; after it there is none
          if (c.stop.any fun k => decide (k < written.length + 3)) = true then
            (.error stopped, { p with inner := { p.inner with dict := dict } }, ops.take (c.stop.getD 0))
          else
            let inner := { p.inner with
              dict := dict
              graphs := newGraphs
              delta := p.inner.delta.clear
              compactionCount := p.inner.compactionCount + 1 }
            match buildDecodeSnapshot A dict (List.range (len dict)) with
            | .error f => (.error (.panic f),
              { p with inner := inner, snapshotGen := newGen, walSeq := newSeq }, ops)
            | .ok (_, dict) =>
              (.ok (), { p with
                inner := { inner with dict := dict }, snapshotGen := newGen, walSeq := newSeq }, ops)

section Calls

variable (crc32 : Bytes → UInt32) (A : DictApi D) (F : DictFile D S) (len : D → Nat) (huff : Bool) (c : Course)
  (p : PersistentRing D)

def maybeAutoCompact : Outcome D S Unit :=
  if p.autoCompactThreshold ≤ p.inner.delta.len then compactLocked A F len huff c p else (.ok (), p, [])

/-- The shape of every logged write: log, apply, compact if the delta is full. -/
def logged (records : List WalRecord) (apply : RingStore D → RingStore.Outcome D α) : Outcome D S α :=
  andThen (walAppend crc32 p records) fun _ p =>
  andThen (inMemory p (apply p.inner)) fun result p =>
  andThen (maybeAutoCompact A F len huff c p) fun _ p => (.ok result, p, [])

def insert (q : Quad) : Outcome D S Bool :=
  logged crc32 A F len huff c p [.insertQuad q] fun s => applyInsert A s q

def remove (q : Quad) : Outcome D S Bool :=
  logged crc32 A F len huff c p [.removeQuad q] fun s => applyRemove A s q

def extendBoxed (quads : List Quad) : Outcome D S Nat :=
  if quads.isEmpty then (.ok 0, p, [])
  else logged crc32 A F len huff c p (quads.map .insertQuad) fun s => insertAll A s 0 quads

def applyBatch (ops : List QuadOp) : Outcome D S (Nat × Nat) :=
  if ops.isEmpty then (.ok (0, 0), p, [])
  else logged crc32 A F len huff c p (ops.map recordOf) fun s => applyAll A s 0 0 ops

/-- Only an IRI is logged and registered; there is no compaction at the end. -/
def registerNamedGraph (graph : GraphName) : Outcome D S Unit :=
  match graph with
  | .namedNode _ =>
    andThen (walAppend crc32 p [.registerGraph graph]) fun _ p =>
      inMemory p (applyRegisterGraph A p.inner graph)
  | _ => (.ok (), p, [])

def compact : Outcome D S Unit := compactLocked A F len huff c p

/-- `bulk_load_with_progress`: the number of quads consumed. -/
def bulkLoad (quads : List Quad) : Outcome D S Nat :=
  andThen (if quads.isEmpty then (.ok (), p, []) else walAppend crc32 p (quads.map .insertQuad)) fun _ p =>
  andThen (inMemory p (insertAll A p.inner 0 quads)) fun newInserts p =>
    if 0 < newInserts ∨ p.inner.delta.isEmpty = false then
      andThen (compactLocked A F len huff c p) fun _ p => (.ok quads.length, p, [])
    else (.ok quads.length, p, [])

def setAutoCompactThreshold (threshold : Nat) : Outcome D S Unit :=
  (.ok (), { p with autoCompactThreshold := threshold }, [])

def event : Event → Outcome D S Reply
  | .call (.insert q) => andThen (insert crc32 A F len huff c p q) fun b p => (.ok (.changed b), p, [])
  | .call (.remove q) => andThen (remove crc32 A F len huff c p q) fun b p => (.ok (.changed b), p, [])
  | .call (.extendBoxed quads) =>
    andThen (extendBoxed crc32 A F len huff c p quads) fun n p => (.ok (.count n), p, [])
  | .call (.applyBatch ops) =>
    andThen (applyBatch crc32 A F len huff c p ops) fun n p => (.ok (.counts n.1 n.2), p, [])
  | .call .compact => andThen (compact A F len huff c p) fun _ p => (.ok .done, p, [])
  | .bulkLoad quads => andThen (bulkLoad crc32 A F len huff c p quads) fun n p => (.ok (.count n), p, [])

/-! ## Processes over a directory -/

inductive Request where
  | event (e : Event)
  | registerNamedGraph (graph : GraphName)
  | setAutoCompactThreshold (threshold : Nat)
deriving DecidableEq, Repr

def request : Request → Outcome D S Reply
  | .event e => event crc32 A F len huff c p e
  | .registerNamedGraph g => andThen (registerNamedGraph crc32 A p g) fun _ p => (.ok .done, p, [])
  | .setAutoCompactThreshold t => andThen (setAutoCompactThreshold p t) fun _ p => (.ok .done, p, [])

end Calls

end PersistentRing

/-- A data directory, and the process that has it open. -/
structure RingSite (D S : Type) where
  dir : RingDir S
  process : Option (PersistentRing D)

/-- What happens to a site. A crash names the order of the graphs, how many operations on
the directory were done and which files an interrupted cleanup had deleted. -/
inductive RingAction where
  | request (r : PersistentRing.Request) (c : Course)
  | crash (r : PersistentRing.Request) (rank : GraphId → Nat) (k : Nat) (gone : RingFile → Bool)
  | close
  | openDir
  | crashOpening (k : Nat) (gone : RingFile → Bool)

namespace RingSite

open LoudsStore (Reply)

variable {D S : Type}

def empty : RingSite D S := ⟨.empty, none⟩

/-- A request needs a process and an opening needs that there is none; otherwise nothing
happens. -/
def step (crc32 : Bytes → UInt32) (A : DictApi D) (F : DictFile D S) (len : D → Nat) (huff : Bool) (fresh : D) :
    Machine (RingSite D S) RingAction Fault (Option Reply)
  | ⟨dir, some p⟩, .request r c =>
    let (reply, p, ops) := PersistentRing.request crc32 A F len huff c p r
    (reply.map some, ⟨dir.steps ops, some p⟩)
  | ⟨dir, some p⟩, .crash r rank k gone =>
    let (_, _, ops) := PersistentRing.request crc32 A F len huff ⟨rank, none⟩ p r
    (.ok none, ⟨dir.cut ops k gone, none⟩)
  | ⟨dir, some _⟩, .close => (.ok none, ⟨dir, none⟩)
  | ⟨dir, none⟩, .openDir =>
    let (r, ops) := PersistentRing.openDir crc32 A F fresh dir
    match r with
    | .ok p => (.ok none, ⟨dir.steps ops, some p⟩)
    | .error f => (.error f, ⟨dir.steps ops, none⟩)
  | ⟨dir, none⟩, .crashOpening k gone =>
    let (_, ops) := PersistentRing.openDir crc32 A F fresh dir
    (.ok none, ⟨dir.cut ops k gone, none⟩)
  | site, _ => (.ok none, site)

end RingSite

end Nova
