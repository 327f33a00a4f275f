import Nova.Core.Ids
import Nova.Lib.Crash
import Nova.Ring.Image
import Nova.Storage.Manifest

/-!
# The data directory of the ring store

A generation is many files here: one image and one table of ids for each graph, beside
the dictionary. Which graphs a generation has is not written down anywhere; it is what
the directory lists (`imagesOf`). The MANIFEST and the segments of the log are those of
`Nova.Storage.Manifest`.

An image file keeps the ring as it is; its layout is left out. `RemapFile` is the table of
ids with its length, and `loadFromPath` reads it back (`loadFromPath_writeToPath`).
-/

namespace Nova.Ring

open Nova.Lib

/-! ## Files -/

/-- `nova.ring.<gen>.<gid>`: the ring, and whether its predicate column is compressed. -/
structure ImageFile where
  ring : CyclicRing
  cpIsHuff : Bool
deriving DecidableEq, Repr

/-- `nova.ringmap.<gen>.<gid>`. -/
structure RemapFile where
  /-- `universe`: the number of ids. -/
  count : Nat
  externals : List Nat
deriving DecidableEq, Repr

namespace IdRemap

def writeToPath (m : IdRemap) : RemapFile := ⟨m.universeSize, m.externals⟩

/-- Reads the ids back, which have to ascend, and numbers them again. -/
def loadFromPath (file : RemapFile) : Option IdRemap :=
  let externals := file.externals.take file.count
  match externals.getLast? with
  | none => some ⟨[], []⟩
  | some maxExt =>
    if externals.IsChain (· < ·) then
      some {
        toDenseVec := externals.zipIdx.foldl (fun v e => v.set e.1 (u32 e.2))
          (List.replicate (maxExt + 1) denseMissing)
        externals := externals }
    else none

theorem loadFromPath_writeToPath {triples : List Row} (hfits : (symbolsOf triples).length < 2 ^ 32) :
    loadFromPath (fromTriples triples).writeToPath = some (fromTriples triples) := by
  have hcount : (fromTriples triples).universeSize = (symbolsOf triples).length := by
    rw [universeSize, externals_fromTriples, u32_of_lt hfits]
  have hsorted : (symbolsOf triples).IsChain (· < ·) := (symbolsOf_sorted triples).isChain
  simp only [loadFromPath, writeToPath, hcount, externals_fromTriples, List.take_length]
  unfold fromTriples
  cases (symbolsOf triples).getLast? with
  | none => rfl
  | some maxExt => exact if_pos hsorted

end IdRemap

namespace BraidedGraphImage

def imageFile (img : BraidedGraphImage) : ImageFile := ⟨img.ring, img.cpIsHuff⟩

/-- `open_mapped_with_remap`. A ring with triples needs as many ids as its alphabet. -/
def openMappedWithRemap (image : ImageFile) (remap : Option RemapFile) : Option BraidedGraphImage := do
  let remap ← IdRemap.loadFromPath (← remap)
  if 0 < image.ring.n ∧ image.ring.univ ≠ remap.universeSize then none
  else some ⟨remap, image.ring, true, image.cpIsHuff⟩

end BraidedGraphImage

end Nova.Ring

namespace Nova

open Nova.Lib Nova.Ring

/-- The names of the files of a data directory. -/
inductive RingFile where
  | image (generation : Nat) (gId : GraphId)
  | remap (generation : Nat) (gId : GraphId)
  | dict (generation : Nat)
  | wal (seq : Nat)
deriving DecidableEq, Repr

structure RingDir (S : Type) where
  manifest : Option Manifest
  /-- What `Manifest::save` has written and not renamed yet. -/
  manifestTmp : Option Manifest
  /-- By generation and graph. -/
  images : Files (Files ImageFile)
  remaps : Files (Files RemapFile)
  dicts : Files S
  segments : Files Bytes

inductive RingOp (S : Type) where
  | writeImage (generation : Nat) (gId : GraphId) (file : ImageFile)
  | writeRemap (generation : Nat) (gId : GraphId) (file : RemapFile)
  | writeDict (generation : Nat) (file : S)
  /-- Reading back what was just written. -/
  | loadDict (generation : Nat)
  /-- `create(true).append(true)`: an existing segment stays as it is. -/
  | createOrOpen (seq : Nat)
  | append (seq : Nat) (bytes : Bytes)
  /-- `set_len`. -/
  | truncate (seq : Nat) (len : Nat)
  | writeManifestTmp (m : Manifest)
  | renameManifest
  | cleanupOrphans (keepGen keepSeq : Nat)

namespace RingDir

variable {S : Type}

def empty : RingDir S := ⟨none, none, .empty, .empty, .empty, .empty⟩

/-- `Manifest::load`. -/
def loadManifest (d : RingDir S) : Manifest := d.manifest.getD .fresh

/-- The files of one generation that a listing of the directory shows. -/
def imagesOf (d : RingDir S) (generation : Nat) : Files ImageFile := (d.images.get generation).getD .empty

def remapsOf (d : RingDir S) (generation : Nat) : Files RemapFile := (d.remaps.get generation).getD .empty

/-- Delete files. -/
def delete (d : RingDir S) (gone : RingFile → Bool) : RingDir S :=
  { d with
    images := d.images.mapContents fun g fs => fs.keep fun gId => !gone (.image g (UInt8.ofNat gId))
    remaps := d.remaps.mapContents fun g fs => fs.keep fun gId => !gone (.remap g (UInt8.ofNat gId))
    dicts := d.dicts.keep fun g => !gone (.dict g)
    segments := d.segments.keep fun s => !gone (.wal s) }

/-- Strictly older than what is to be kept. -/
def isOrphan (keepGen keepSeq : Nat) : RingFile → Bool
  | .image g _ => decide (g < keepGen)
  | .remap g _ => decide (g < keepGen)
  | .dict g => decide (g < keepGen)
  | .wal s => decide (s < keepSeq)

def step (d : RingDir S) : RingOp S → RingDir S
  | .writeImage g gId file => { d with images := d.images.put g ((d.imagesOf g).put gId.toNat file) }
  | .writeRemap g gId file => { d with remaps := d.remaps.put g ((d.remapsOf g).put gId.toNat file) }
  | .writeDict g file => { d with dicts := d.dicts.put g file }
  | .loadDict _ => d
  | .createOrOpen seq => { d with segments := d.segments.put seq ((d.segments.get seq).getD []) }
  | .append seq bytes => { d with segments := d.segments.put seq ((d.segments.get seq).getD [] ++ bytes) }
  | .truncate seq len => { d with segments := d.segments.put seq (((d.segments.get seq).getD []).take len) }
  | .writeManifestTmp m => { d with manifestTmp := some m }
  | .renameManifest => { d with manifest := d.manifestTmp, manifestTmp := none }
  | .cleanupOrphans keepGen keepSeq => d.delete (isOrphan keepGen keepSeq)

/-- Only a cleanup can be cut in the middle: it deletes file by file, in whatever order
the directory is read. -/
def stepPartly (d : RingDir S) (gone : RingFile → Bool) : RingOp S → RingDir S
  | .cleanupOrphans keepGen keepSeq => d.delete fun f => isOrphan keepGen keepSeq f && gone f
  | _ => d

def device (S : Type) : Device (RingDir S) (RingOp S) (RingFile → Bool) := ⟨step, stepPartly⟩

abbrev steps (d : RingDir S) (ops : List (RingOp S)) : RingDir S := (device S).steps d ops

/-- The directory after a crash behind the first `k` operations. -/
abbrev cut (d : RingDir S) (ops : List (RingOp S)) (k : Nat) (gone : RingFile → Bool) : RingDir S :=
  (device S).cut d ops k gone

/-! ## What stays as it is -/

variable {gone : RingFile → Bool} {d : RingDir S}

theorem delete_images {g : Nat} (h : ∀ gId, gone (.image g gId) = false) :
    (d.delete gone).images.get g = d.images.get g := by
  show (d.images.mapContents _).get g = _
  rw [Files.get_mapContents]
  cases d.images.get g with
  | none => rfl
  | some fs => exact congrArg some (Files.keep_eq_self fun gId => by rw [h]; rfl)

theorem delete_remaps {g : Nat} (h : ∀ gId, gone (.remap g gId) = false) :
    (d.delete gone).remaps.get g = d.remaps.get g := by
  show (d.remaps.mapContents _).get g = _
  rw [Files.get_mapContents]
  cases d.remaps.get g with
  | none => rfl
  | some fs => exact congrArg some (Files.keep_eq_self fun gId => by rw [h]; rfl)

theorem delete_dicts {g : Nat} (h : gone (.dict g) = false) : (d.delete gone).dicts.get g = d.dicts.get g :=
  Files.get_keep_of (by rw [h]; rfl)

end RingDir

end Nova
