import Nova.Lib.Bytes
import Nova.Lib.Files

/-!
# The data directory and its MANIFEST

A data directory holds numbered snapshots of the index, numbered snapshots of
the dictionary, numbered segments of the write-ahead log and one MANIFEST that
says which snapshot is the current one and from which segment on the log has to
be replayed. What the snapshots hold is left open.

A call on the store is a list of file-system steps (`FsOp`), each of them atomic
and durable. A crash cuts the list after any step (`Dir.cut`); a cleanup that is
cut has deleted any part of what it was about to delete.

The text of the MANIFEST with its checksum is not modelled: a MANIFEST is only
ever made visible by a rename of a complete file, so it is read as it was
written.
-/

namespace Nova

open Nova.Lib

structure Manifest where
  snapshotGen : Nat
  walSeq : Nat
deriving DecidableEq, Repr

def Manifest.fresh : Manifest := ⟨0, 1⟩

/-- `nova.snapshot.<gen>`, `nova.dict.<gen>` and `nova.wal.<seq>`. -/
inductive FileName where
  | snapshot (generation : Nat)
  | dict (generation : Nat)
  | wal (seq : Nat)
deriving DecidableEq, Repr

structure Dir (R S : Type) where
  manifest : Option Manifest
  /-- What `Manifest::save` has written and not renamed yet. -/
  manifestTmp : Option Manifest
  snapshots : Files R
  dicts : Files S
  segments : Files Bytes

inductive FsOp (R S : Type) where
  | writeSnapshot (generation : Nat) (rings : R)
  | writeDict (generation : Nat) (dict : S)
  /-- `create(true).append(true)`: an existing segment stays as it is. -/
  | createOrOpen (seq : Nat)
  | append (seq : Nat) (bytes : Bytes)
  /-- `set_len`. -/
  | truncate (seq : Nat) (len : Nat)
  | writeManifestTmp (m : Manifest)
  | renameManifest
  | cleanupOrphans (keepGen keepSeq : Nat)

namespace Dir

variable {R S : Type}

def empty : Dir R S := ⟨none, none, .empty, .empty, .empty⟩

/-- `Manifest::load`. -/
def loadManifest (d : Dir R S) : Manifest := d.manifest.getD .fresh

/-- Delete files. -/
def delete (d : Dir R S) (gone : FileName → Bool) : Dir R S :=
  { d with
    snapshots := d.snapshots.keep fun g => !gone (.snapshot g)
    dicts := d.dicts.keep fun g => !gone (.dict g)
    segments := d.segments.keep fun s => !gone (.wal s) }

/-- Strictly older than what is to be kept. -/
def isOrphan (keepGen keepSeq : Nat) : FileName → Bool
  | .snapshot g => decide (g < keepGen)
  | .dict g => decide (g < keepGen)
  | .wal s => decide (s < keepSeq)

def step (d : Dir R S) : FsOp R S → Dir R S
  | .writeSnapshot g r => { d with snapshots := d.snapshots.put g r }
  | .writeDict g s => { d with dicts := d.dicts.put g s }
  | .createOrOpen seq => { d with segments := d.segments.put seq ((d.segments.get seq).getD []) }
  | .append seq bytes =>
    { d with segments := d.segments.put seq ((d.segments.get seq).getD [] ++ bytes) }
  | .truncate seq len =>
    { d with segments := d.segments.put seq (((d.segments.get seq).getD []).take len) }
  | .writeManifestTmp m => { d with manifestTmp := some m }
  | .renameManifest => { d with manifest := d.manifestTmp, manifestTmp := none }
  | .cleanupOrphans keepGen keepSeq => d.delete (isOrphan keepGen keepSeq)

def steps (d : Dir R S) (ops : List (FsOp R S)) : Dir R S := ops.foldl step d

/-- The part of the next step that a crash has let through: a cleanup deletes
file by file, in whatever order the directory is read. -/
def stepPartly (d : Dir R S) (gone : FileName → Bool) : Option (FsOp R S) → Dir R S
  | some (.cleanupOrphans keepGen keepSeq) =>
    d.delete fun f => isOrphan keepGen keepSeq f && gone f
  | _ => d

/-- The directory after a crash behind the first `k` steps. -/
def cut (d : Dir R S) (ops : List (FsOp R S)) (k : Nat) (gone : FileName → Bool) : Dir R S :=
  (d.steps (ops.take k)).stepPartly gone ops[k]?

section

variable (d : Dir R S)
include d

@[simp] theorem steps_nil : d.steps [] = d := rfl

@[simp] theorem steps_cons (op : FsOp R S) (ops : List (FsOp R S)) :
    d.steps (op :: ops) = (d.step op).steps ops := rfl

theorem steps_append (ops ops' : List (FsOp R S)) :
    d.steps (ops ++ ops') = (d.steps ops).steps ops' := List.foldl_append

@[simp] theorem cut_zero (ops : List (FsOp R S)) (gone : FileName → Bool) :
    d.cut ops 0 gone = d.stepPartly gone ops[0]? := rfl

theorem cut_nil (k : Nat) (gone : FileName → Bool) : d.cut [] k gone = d := by
  simp [cut, stepPartly]

theorem cut_append_right (ops ops' : List (FsOp R S)) (k : Nat) (gone : FileName → Bool) :
    d.cut (ops ++ ops') (ops.length + k) gone = (d.steps ops).cut ops' k gone := by
  unfold cut
  rw [List.take_length_add_append, steps_append, List.getElem?_append_right (by omega)]
  simp

end

end Dir

end Nova
