import Nova.Storage.Manifest
import Nova.Storage.Wal
import Nova.Louds.Runs

/-!
# The store with a data directory

Every write is appended to the active segment of the write-ahead log before it is
applied. A compaction and a bulk load end in `commitCompaction`: write the rings
and the dictionary under the next generation, create the next segment, save the
MANIFEST, delete what is older. `openDir` reads a directory back: the snapshot
the MANIFEST names, then every segment from the MANIFEST's on.

A call returns its result, the store it leaves and the file-system steps it has
taken, in order; `Nova.Louds.Durability` applies them to a directory and cuts
them where a crash falls. `Site` is a directory with or without a process over
it, and `Action` is what can happen to it.

The snapshot of the rings is kept as it is, and the dictionary's file is given by
`DictFile`. The sync policy is left out: every write is durable when it returns.
-/

namespace Nova

open Nova.Lib
open Wal (WalRecord)

/-- How a dictionary is written to a file and read back. -/
structure DictFile (D S : Type) where
  save : D → S
  load : S → Except Fault D

/-- `LoudsStoreInner` with a data directory. -/
structure Persistent (D : Type) where
  inner : LoudsStore D
  snapshotGen : Nat
  walSeq : Nat

abbrev Rings := GraphMap GraphRing

namespace LoudsStore

variable {D S α β : Type}

/-! ## Replay -/

/-- One record of the log, applied without logging it again. -/
def applyRecord (A : DictApi D) (s : LoudsStore D) : WalRecord → Outcome D Unit
  | .insertQuad q => andThen (applyInsert A s q) fun _ s => (.ok (), s)
  | .removeQuad q => andThen (applyRemove A s q) fun _ s => (.ok (), s)
  | .registerGraph g => applyRegisterGraph A s g

/-- A record that returns an error is skipped; a panic ends the replay. -/
def replayRecords (A : DictApi D) : LoudsStore D → List WalRecord → Except Panic (LoudsStore D)
  | s, [] => .ok s
  | s, r :: rs =>
    match applyRecord A s r with
    | (.error (.panic p), _) => .error p
    | (_, s) => replayRecords A s rs

/-- `wal::replay` on each segment: the records, then the torn tail is cut off. -/
def replaySegments (crc32 : Bytes → UInt32) (A : DictApi D) :
    LoudsStore D → List (Nat × Bytes) → Except Panic (LoudsStore D) × List (FsOp Rings S)
  | s, [] => (.ok s, [])
  | s, (seq, file) :: rest =>
    let replayed := Wal.replay crc32 file
    match replayRecords A s replayed.applied with
    | .error p => (.error p, [])
    | .ok s =>
      let torn := if replayed.file.length < file.length then [.truncate seq replayed.file.length] else []
      let (r, ops) := replaySegments crc32 A s rest
      (r, torn ++ ops)

end LoudsStore

namespace Persistent

open LoudsStore

variable {D S α β : Type}

abbrev Outcome (D S α : Type) := Except Fault α × Persistent D × List (FsOp Rings S)

def andThen (x : Outcome D S α) (k : α → Persistent D → Outcome D S β) : Outcome D S β :=
  match x with
  | (.ok a, p, ops) =>
    let (r, p, ops') := k a p
    (r, p, ops ++ ops')
  | (.error f, p, ops) => (.error f, p, ops)

/-- A step that does not touch the directory. -/
def inMemory (p : Persistent D) (x : LoudsStore.Outcome D α) : Outcome D S α :=
  (x.1, { p with inner := x.2 }, [])

/-- `DEFAULT_AUTO_COMPACT_THRESHOLD`. -/
def defaultAutoCompactThreshold : Nat := 1000000

/-! ## Opening -/

/-- The store as the MANIFEST's snapshot has it. Files that do not exist are read
as empty. -/
def loadSnapshot (F : DictFile D S) (fresh : D) (dir : Dir Rings S) : Except Fault (LoudsStore D) :=
  let m := dir.loadManifest
  if m.snapshotGen > 0 then do
    let graphs := (dir.snapshots.get m.snapshotGen).getD ∅
    let dict ← match dir.dicts.get m.snapshotGen with
      | none => .ok fresh
      | some file => F.load file
    return { LoudsStore.new dict with graphs := graphs }
  else .ok (LoudsStore.new fresh)

/-- The highest segment found, or the MANIFEST's if there is none. -/
def activeSeq (dir : Dir Rings S) : Nat :=
  match (dir.segments.since dir.loadManifest.walSeq).getLast? with
  | some e => e.1
  | none => dir.loadManifest.walSeq

/-- `LoudsStore::open`. -/
def openDir (crc32 : Bytes → UInt32) (A : DictApi D) (F : DictFile D S) (fresh : D)
    (dir : Dir Rings S) : Except Fault (Persistent D) × List (FsOp Rings S) :=
  let m := dir.loadManifest
  match loadSnapshot F fresh dir with
  | .error f => (.error f, [])
  | .ok s =>
    match replaySegments crc32 A s (dir.segments.since m.walSeq) with
    | (.error p, ops) => (.error (.panic p), ops)
    | (.ok s, ops) =>
      let active := activeSeq dir
      (.ok ⟨{ s with autoCompactThreshold := some defaultAutoCompactThreshold }, m.snapshotGen, active⟩,
        ops ++ [.createOrOpen active, .cleanupOrphans m.snapshotGen active])

/-! ## Writing -/

/-- `wal_append` and `wal_append_batch`. -/
def walAppend (crc32 : Bytes → UInt32) (p : Persistent D) (records : List WalRecord) :
    Outcome D S Unit :=
  (.ok (), p, [.append p.walSeq ((Wal.format crc32).log records)])

/-- The directory's part of a commit is over with the MANIFEST; only then is the
new state installed. -/
def commitCompaction (F : DictFile D S) (p : Persistent D) (newGraphs : Rings) (clearDelta : Bool) :
    Outcome D S Unit :=
  let newGen := p.snapshotGen + 1
  let newSeq := p.walSeq + 1
  let file := F.save p.inner.dict
  match F.load file with
  | .error f => (.error f, p, [.writeSnapshot newGen newGraphs, .writeDict newGen file])
  | .ok dict =>
    (.ok (),
      ⟨{ p.inner with dict := dict }.commitCompaction newGraphs clearDelta, newGen, newSeq⟩,
      [.writeSnapshot newGen newGraphs, .writeDict newGen file, .createOrOpen newSeq,
        .writeManifestTmp ⟨newGen, newSeq⟩, .renameManifest, .cleanupOrphans newGen newSeq])

def compactLocked (A : DictApi D) (F : DictFile D S) (p : Persistent D) : Outcome D S Unit :=
  let newGraphs := buildGraphsFromTriples (p.inner.delta.iter.foldl mergeEntry p.inner.perGraph)
  andThen (inMemory p (compactDict A p.inner)) fun _ p => commitCompaction F p newGraphs true

def bulkLoad (A : DictApi D) (F : DictFile D S) (p : Persistent D) (quads : List Quad) :
    Outcome D S Nat :=
  andThen (inMemory p (loadQuads A p.inner p.inner.perGraph quads)) fun perGraph p =>
    let newGraphs := buildGraphsFromTriples perGraph
    andThen (inMemory p (compactDict A p.inner)) fun _ p =>
    andThen (commitCompaction F p newGraphs false) fun _ p => (.ok quads.length, p, [])

def maybeAutoCompact (A : DictApi D) (F : DictFile D S) (p : Persistent D) : Outcome D S Unit :=
  match p.inner.autoCompactThreshold with
  | none => (.ok (), p, [])
  | some threshold =>
    if threshold ≤ p.inner.delta.len then compactLocked A F p else (.ok (), p, [])

/-- The shape of every logged write: log, apply, compact if the delta is full. -/
def logged (crc32 : Bytes → UInt32) (A : DictApi D) (F : DictFile D S) (p : Persistent D)
    (records : List WalRecord) (apply : LoudsStore D → LoudsStore.Outcome D α) : Outcome D S α :=
  andThen (walAppend crc32 p records) fun _ p =>
  andThen (inMemory p (apply p.inner)) fun result p =>
  andThen (maybeAutoCompact A F p) fun _ p => (.ok result, p, [])

/-- The record of one element of a batch. -/
def recordOf : QuadOp → WalRecord
  | .insert q => .insertQuad q
  | .remove q => .removeQuad q

section Calls

variable (crc32 : Bytes → UInt32) (A : DictApi D) (F : DictFile D S) (p : Persistent D)

def insert (q : Quad) : Outcome D S Bool :=
  logged crc32 A F p [.insertQuad q] fun s => applyInsert A s q

def remove (q : Quad) : Outcome D S Bool :=
  logged crc32 A F p [.removeQuad q] fun s => applyRemove A s q

def extendBoxed (quads : List Quad) : Outcome D S Nat :=
  if quads.isEmpty then (.ok 0, p, [])
  else logged crc32 A F p (quads.map .insertQuad) fun s => insertAll A s 0 quads

def applyBatch (ops : List QuadOp) : Outcome D S (Nat × Nat) :=
  if ops.isEmpty then (.ok (0, 0), p, [])
  else logged crc32 A F p (ops.map recordOf) fun s => applyAll A s 0 0 ops

/-- Only an IRI is logged and registered; there is no compaction at the end. -/
def registerNamedGraph (graph : GraphName) : Outcome D S Unit :=
  match graph with
  | .namedNode _ =>
    andThen (walAppend crc32 p [.registerGraph graph]) fun _ p =>
      inMemory p (applyRegisterGraph A p.inner graph)
  | _ => (.ok (), p, [])

def compact : Outcome D S Unit := compactLocked A F p

def setAutoCompactThreshold (threshold : Nat) : Outcome D S Unit :=
  (.ok (), { p with inner := { p.inner with autoCompactThreshold := some threshold } }, [])

def call : Call → Outcome D S Reply
  | .insert q => andThen (insert crc32 A F p q) fun b p => (.ok (.changed b), p, [])
  | .remove q => andThen (remove crc32 A F p q) fun b p => (.ok (.changed b), p, [])
  | .extendBoxed quads => andThen (extendBoxed crc32 A F p quads) fun c p => (.ok (.count c), p, [])
  | .applyBatch ops =>
    andThen (applyBatch crc32 A F p ops) fun c p => (.ok (.counts c.1 c.2), p, [])
  | .compact => andThen (compact A F p) fun _ p => (.ok .done, p, [])

end Calls

/-- The files the MANIFEST's generation and the active segment stand for, copied
into `dst`. A file that does not exist is not copied. -/
def backup (p : Persistent D) (dir dst : Dir Rings S) : Dir Rings S :=
  let dst := match dir.manifest with
    | some m => { dst with manifest := some m }
    | none => dst
  let dst :=
    if p.snapshotGen > 0 then
      let dst := match dir.snapshots.get p.snapshotGen with
        | some rings => { dst with snapshots := dst.snapshots.put p.snapshotGen rings }
        | none => dst
      match dir.dicts.get p.snapshotGen with
        | some file => { dst with dicts := dst.dicts.put p.snapshotGen file }
        | none => dst
    else dst
  match dir.segments.get p.walSeq with
  | some file => { dst with segments := dst.segments.put p.walSeq file }
  | none => dst

/-! ## Processes over a directory -/

inductive Request where
  | call (c : Call)
  | bulkLoad (quads : List Quad)
  | registerNamedGraph (graph : GraphName)
  | setAutoCompactThreshold (threshold : Nat)
deriving DecidableEq, Repr

def request (crc32 : Bytes → UInt32) (A : DictApi D) (F : DictFile D S) (p : Persistent D) :
    Request → Outcome D S Reply
  | .call c => call crc32 A F p c
  | .bulkLoad quads => andThen (bulkLoad A F p quads) fun c p => (.ok (.count c), p, [])
  | .registerNamedGraph g => andThen (registerNamedGraph crc32 A p g) fun _ p => (.ok .done, p, [])
  | .setAutoCompactThreshold t =>
    andThen (setAutoCompactThreshold p t) fun _ p => (.ok .done, p, [])

end Persistent

/-- A data directory, and the process that has it open. -/
structure Site (D S : Type) where
  dir : Dir Rings S
  process : Option (Persistent D)

/-- What happens to a site. A crash names how many file-system steps were done and
which files an interrupted cleanup had deleted. -/
inductive Action where
  | request (r : Persistent.Request)
  | crash (r : Persistent.Request) (k : Nat) (gone : FileName → Bool)
  | close
  | openDir
  | crashOpening (k : Nat) (gone : FileName → Bool)

namespace Site

open LoudsStore Persistent

variable {D S : Type}

def empty : Site D S := ⟨.empty, none⟩

/-- A request needs a process and an opening needs that there is none; otherwise
nothing happens. -/
def step (crc32 : Bytes → UInt32) (A : DictApi D) (F : DictFile D S) (fresh : D) :
    Machine (Site D S) Action Fault (Option Reply)
  | ⟨dir, some p⟩, .request r =>
    let (reply, p, ops) := Persistent.request crc32 A F p r
    (reply.map some, ⟨dir.steps ops, some p⟩)
  | ⟨dir, some p⟩, .crash r k gone =>
    let (_, _, ops) := Persistent.request crc32 A F p r
    (.ok none, ⟨dir.cut ops k gone, none⟩)
  | ⟨dir, some _⟩, .close => (.ok none, ⟨dir, none⟩)
  | ⟨dir, none⟩, .openDir =>
    let (r, ops) := Persistent.openDir crc32 A F fresh dir
    match r with
    | .ok p => (.ok none, ⟨dir.steps ops, some p⟩)
    | .error f => (.error f, ⟨dir.steps ops, none⟩)
  | ⟨dir, none⟩, .crashOpening k gone =>
    let (_, ops) := Persistent.openDir crc32 A F fresh dir
    (.ok none, ⟨dir.cut ops k gone, none⟩)
  | site, _ => (.ok none, site)

end Site

end Nova
