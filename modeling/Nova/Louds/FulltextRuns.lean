import Nova.Louds.FulltextSync

/-!
# Runs of an indexed store

`InStep` is the invariant of a process with its files: the documents index the base of
the store, on disk as well, and a marker equal to the generation of the MANIFEST says
the same of the files (`FilesOk`). Every request keeps it, wherever it is cut, but a bulk
load that brings a literal to the rings while full-text search is enabled: the index
never hears of it, and the next compaction writes a marker that hides the gap from every
later `enableFulltext`.

The main result is `fulltext_current_iff`: in a run whose dictionary compactions are safe
the index is current in every state exactly if no bulk load does that.
`bulkLoad_bypasses_index` is the shortest run that fails.
-/

namespace Nova

open Nova.Lib List
open Wal (WalRecord)
open LoudsStore Persistent

variable {D S α β : Type} {crc32 : Bytes → UInt32} {A : DictApi D} {F : DictFile D S} {fresh : D}
variable {Knows : D → Names → Prop} {CompactOk : Names → Prop} {Ready : D → Prop}

/-! ## Steps that keep the snapshot -/

section Directory

variable {dir dir' dir'' : Dir Rings S}

/-- Opening finds the same snapshot. -/
structure SameSnapshot (F : DictFile D S) (fresh : D) (dir dir' : Dir Rings S) : Prop where
  gen : dir'.loadManifest.snapshotGen = dir.loadManifest.snapshotGen
  load : loadSnapshot F fresh dir' = loadSnapshot F fresh dir

theorem SameSnapshot.refl (dir : Dir Rings S) : SameSnapshot F fresh dir dir := ⟨rfl, rfl⟩

theorem SameSnapshot.trans (h : SameSnapshot F fresh dir dir') (h' : SameSnapshot F fresh dir' dir'') :
    SameSnapshot F fresh dir dir'' :=
  ⟨h'.gen.trans h.gen, h'.load.trans h.load⟩

/-- A step that does not touch what generation `gen` stands for. -/
def harmless (gen : Nat) : FsOp Rings S → Bool
  | .writeSnapshot g _ => decide (g ≠ gen)
  | .writeDict g _ => decide (g ≠ gen)
  | .renameManifest => false
  | .cleanupOrphans g _ => decide (g ≤ gen)
  | _ => true

theorem sameSnapshot_delete {gone : FileName → Bool}
    (hsnap : gone (.snapshot dir.loadManifest.snapshotGen) = false)
    (hdict : gone (.dict dir.loadManifest.snapshotGen) = false) : SameSnapshot F fresh dir (dir.delete gone) :=
  ⟨rfl, loadSnapshot_congr rfl (Files.get_keep_of (by rw [hsnap]; rfl)) (Files.get_keep_of (by rw [hdict]; rfl))⟩

theorem sameSnapshot_step {op : FsOp Rings S} (h : harmless dir.loadManifest.snapshotGen op = true) :
    SameSnapshot F fresh dir (dir.step op) := by
  cases op with
  | writeSnapshot g r =>
    have hne : dir.loadManifest.snapshotGen ≠ g := fun heq => of_decide_eq_true h heq.symm
    exact ⟨rfl, loadSnapshot_congr rfl (by simp only [Dir.step, Files.get_put, if_neg hne]) rfl⟩
  | writeDict g s =>
    have hne : dir.loadManifest.snapshotGen ≠ g := fun heq => of_decide_eq_true h heq.symm
    exact ⟨rfl, loadSnapshot_congr rfl rfl (by simp only [Dir.step, Files.get_put, if_neg hne])⟩
  | renameManifest => cases h
  | cleanupOrphans g seq =>
    have hle : g ≤ dir.loadManifest.snapshotGen := of_decide_eq_true h
    exact sameSnapshot_delete (decide_eq_false (by omega)) (decide_eq_false (by omega))
  | _ => exact ⟨rfl, rfl⟩

theorem sameSnapshot_partly {op : FsOp Rings S} (h : harmless dir.loadManifest.snapshotGen op = true)
    (gone : FileName → Bool) : SameSnapshot F fresh dir (dir.stepPartly gone (some op)) := by
  cases op with
  | cleanupOrphans g seq =>
    have hle : g ≤ dir.loadManifest.snapshotGen := of_decide_eq_true h
    have hkeep : decide (dir.loadManifest.snapshotGen < g) = false := decide_eq_false (by omega)
    show SameSnapshot F fresh dir (dir.delete fun f => Dir.isOrphan g seq f && gone f)
    refine sameSnapshot_delete ?_ ?_
    · simp only [Dir.isOrphan, hkeep, Bool.false_and]
    · simp only [Dir.isOrphan, hkeep, Bool.false_and]
  | _ => exact SameSnapshot.refl dir

theorem sameSnapshot_cut {ops : List (FsOp Rings S)} : ∀ {dir : Dir Rings S} (k : Nat) (gone : FileName → Bool),
    (∀ op ∈ ops, harmless dir.loadManifest.snapshotGen op = true) →
    SameSnapshot F fresh dir (dir.cut ops k gone) := by
  induction ops with
  | nil =>
    intro dir k gone _
    rw [Dir.cut_nil]
    exact SameSnapshot.refl dir
  | cons op ops ih =>
    intro dir k gone h
    rcases forall_mem_cons.mp h with ⟨hop, hrest⟩
    match k with
    | 0 => exact sameSnapshot_partly hop gone
    | k + 1 =>
      have hstep : SameSnapshot F fresh dir (dir.step op) := sameSnapshot_step hop
      refine hstep.trans (ih k gone fun op' hop' => ?_)
      rw [hstep.gen]
      exact hrest op' hop'

theorem cut_of_length_le (dir : Dir Rings S) {ops : List (FsOp Rings S)} {k : Nat} (hk : ops.length ≤ k)
    (gone : FileName → Bool) : dir.cut ops k gone = dir.steps ops := by
  rw [Dir.cut, take_of_length_le hk, getElem?_eq_none hk]
  rfl

/-! ## Commits -/

variable {p : Persistent D} {newGraphs : Rings} {file : S} {d₂ : D}

theorem commit_before (hgen : p.snapshotGen = dir.loadManifest.snapshotGen) {k : Nat} (hk : k < 5)
    (gone : FileName → Bool) : SameSnapshot F fresh dir (dir.cut (commitOps p newGraphs file) k gone) := by
  have hharmless : ∀ op ∈ (commitOps p newGraphs file).take 4,
      harmless dir.loadManifest.snapshotGen op = true := by
    intro op hop
    rw [← hgen]
    simp only [commitOps, take_succ_cons, take_zero, mem_cons, not_mem_nil, or_false] at hop
    rcases hop with rfl | rfl | rfl | rfl <;> simp [harmless]
  have hsame : SameSnapshot F fresh dir _ := sameSnapshot_cut k gone hharmless
  -- the steps that follow have not begun
  have hcut : dir.cut (commitOps p newGraphs file) k gone = dir.cut ((commitOps p newGraphs file).take 4) k gone := by
    have hcases : k = 0 ∨ k = 1 ∨ k = 2 ∨ k = 3 ∨ k = 4 := by omega
    rcases hcases with rfl | rfl | rfl | rfl | rfl <;> rfl
  rw [hcut]
  exact hsame

theorem commit_after (hload : F.load file = .ok d₂) {k : Nat} (hk : 5 ≤ k) (gone : FileName → Bool) :
    (dir.cut (commitOps p newGraphs file) k gone).loadManifest.snapshotGen = p.snapshotGen + 1 ∧
      loadSnapshot F fresh (dir.cut (commitOps p newGraphs file) k gone) =
        .ok { LoudsStore.new d₂ with graphs := newGraphs } := by
  have hsplit := take_append_drop 5 (commitOps p newGraphs file)
  have hk5 : k = ((commitOps p newGraphs file).take 5).length + (k - 5) := by
    simp only [commitOps, take_succ_cons, take_zero, length_cons, length_nil]
    omega
  have hcut := Dir.cut_append_right dir ((commitOps p newGraphs file).take 5) ((commitOps p newGraphs file).drop 5)
    (k - 5) gone
  rw [hsplit, ← hk5] at hcut
  -- the directory right after the rename
  have hrenamed : (dir.steps ((commitOps p newGraphs file).take 5)).loadManifest =
      ⟨p.snapshotGen + 1, p.walSeq + 1⟩ := by
    simp only [commitOps, take_succ_cons, take_zero, Dir.steps_cons, Dir.steps_nil, Dir.step,
      Dir.loadManifest, Option.getD_some]
  have hsnap : loadSnapshot F fresh (dir.steps ((commitOps p newGraphs file).take 5)) =
      .ok { LoudsStore.new d₂ with graphs := newGraphs } := by
    rw [← loadSnapshot_committed p dir hload]
    exact loadSnapshot_congr rfl rfl rfl
  have hrest : ∀ op ∈ (commitOps p newGraphs file).drop 5,
      harmless (dir.steps ((commitOps p newGraphs file).take 5)).loadManifest.snapshotGen op = true := by
    intro op hop
    simp only [commitOps, drop_succ_cons, drop_zero, mem_singleton] at hop
    rw [hop, hrenamed]
    simp [harmless]
  have hsame : SameSnapshot F fresh _ _ := sameSnapshot_cut (k - 5) gone hrest
  rw [hcut, hsame.gen, hsame.load, hrenamed]
  exact ⟨rfl, hsnap⟩

end Directory

/-! ## The files of an index -/

namespace TextDir

/-- The generation the MANIFEST names. -/
def gen (f : TextDir S) : Nat := f.dir.loadManifest.snapshotGen

variable {f : TextDir S} {ops ops' : List (TextOp S)} {k : Nat} {gone : FileName → Bool}

theorem steps_append (f : TextDir S) (ops ops' : List (TextOp S)) :
    f.steps (ops ++ ops') = (f.steps ops).steps ops' := foldl_append

theorem steps_fs (ops : List (FsOp Rings S)) : ∀ f : TextDir S,
    f.steps (ops.map .fs) = { f with dir := f.dir.steps ops } := by
  induction ops with
  | nil => exact fun _ => rfl
  | cons op ops ih => exact fun f => ih _

theorem cut_fs (f : TextDir S) (ops : List (FsOp Rings S)) (k : Nat) (gone : FileName → Bool) :
    f.cut (ops.map .fs) k gone = { f with dir := f.dir.cut ops k gone } := by
  rw [cut, ← map_take, steps_fs, getElem?_map, Dir.cut]
  cases ops[k]? with
  | none => rfl
  | some op => rfl

theorem cut_of_length_le (f : TextDir S) (hk : ops.length ≤ k) (gone : FileName → Bool) :
    f.cut ops k gone = f.steps ops := by
  rw [cut, take_of_length_le hk, getElem?_eq_none hk]
  rfl

theorem cut_append (f : TextDir S) (ops ops' : List (TextOp S)) (k : Nat) (gone : FileName → Bool) :
    f.cut (ops ++ ops') k gone =
      if k < ops.length then f.cut ops k gone else (f.steps ops).cut ops' (k - ops.length) gone := by
  by_cases hk : k < ops.length
  · rw [if_pos hk, cut, cut, take_append_of_le_length hk.le, getElem?_append_left hk]
  · rw [if_neg hk, cut, cut, take_append, take_of_length_le (by omega), steps_append,
      getElem?_append_right (by omega)]

end TextDir

/-- The snapshot can be opened and its rings have the keys `base`; the marker is not ahead
of it, and says so if the documents on disk index them. -/
structure FilesOk (F : DictFile D S) (fresh : D) (Knows : D → Names → Prop) (f : TextDir S) (n : Names)
    (base : Finset Nat) : Prop where
  snapshot : ∃ s₀, loadSnapshot F fresh f.dir = .ok s₀ ∧ Inv Knows n s₀ ∧ s₀.view.base = base
  marked : ∀ m, f.marker = some m → m ≤ f.gen
  current : f.marker = some f.gen → IndexOf n base f.index

def Stored (F : DictFile D S) (fresh : D) (Knows : D → Names → Prop) (f : TextDir S) : Prop :=
  ∃ n base, FilesOk F fresh Knows f n base

section Files

variable {f : TextDir S} {n : Names} {base : Finset Nat} {dir : Dir Rings S}

section

variable (h : FilesOk F fresh Knows f n base)
include h

theorem FilesOk.keys : ∀ k ∈ base, ∃ q, n.keyOf q = some k := by
  rcases h.snapshot with ⟨s₀, -, hinv, rfl⟩
  exact fun k hk => hinv.base_keys hk

theorem FilesOk.same (hs : SameSnapshot F fresh f.dir dir) :
    FilesOk F fresh Knows { f with dir := dir } n base where
  snapshot := by
    rcases h.snapshot with ⟨s₀, hload, hinv⟩
    exact ⟨s₀, hs.load.trans hload, hinv⟩
  marked := fun m hm => (h.marked m hm).trans_eq hs.gen.symm
  current := by
    intro hm
    rw [TextDir.gen, hs.gen] at hm
    exact h.current hm

theorem FilesOk.next {s₀ : LoudsStore D} {n' : Names}
    (hgen : dir.loadManifest.snapshotGen = f.gen + 1) (hload : loadSnapshot F fresh dir = .ok s₀)
    (hinv : Inv Knows n' s₀) : FilesOk F fresh Knows { f with dir := dir } n' s₀.view.base where
  snapshot := ⟨s₀, hload, hinv, rfl⟩
  marked := by
    intro m hm
    have hle := h.marked m hm
    rw [TextDir.gen, hgen]
    omega
  current := by
    intro hm
    rw [TextDir.gen, hgen] at hm
    have hle := h.marked _ hm
    omega

theorem FilesOk.commit {docs : List Document} (hdocs : IndexOf n base docs)
    {k : Nat} (gone : FileName → Bool) :
    FilesOk F fresh Knows (f.cut [.commitIndex docs, .writeMarker f.gen] k gone) n base := by
  match k with
  | 0 => exact h
  | 1 => exact ⟨h.snapshot, h.marked, fun _ => hdocs⟩
  | k + 2 =>
    rw [TextDir.cut_of_length_le _ (by simp)]
    refine ⟨h.snapshot, fun m hm => ?_, fun _ => hdocs⟩
    exact (Option.some.inj hm).symm.le

end

end Files

/-! ## Writes to the delta -/

/-- Names and pending writes may be added; the rings stay. -/
structure Grown (Knows : D → Names → Prop) (n : Names) (s : LoudsStore D) (n' : Names) (s' : LoudsStore D) :
    Prop where
  le : n.Le n'
  inv : Inv Knows n' s'
  base : s'.view.base = s.view.base

section Writes

variable {n n' : Names} {s s' : LoudsStore D}

theorem Grown.trans {n'' : Names} {s'' : LoudsStore D} (h : Grown Knows n s n' s')
    (h' : Grown Knows n' s' n'' s'') :
    Grown Knows n s n'' s'' :=
  ⟨h.le.trans h'.le, h'.inv, h'.base.trans h.base⟩

theorem base_write (im : Image) (w : QuadOp) : (im.write w).2.view.base = im.view.base := by
  cases w with
  | insert q =>
    rw [Image.write]
    split
    · rfl
    · show (viewInsert im.view _).base = _
      rw [viewInsert]
      split <;> rfl
  | remove q =>
    rw [Image.write]
    split
    · rfl
    · rfl
    · show (viewRemove im.view _).base = _
      rw [viewRemove]
      split <;> rfl

variable (I : Implements A Knows CompactOk)
include I

theorem applyOne_grown (h : Inv Knows n s) (w : QuadOp) : ∃ n', Grown Knows n s n' (applyOne A s w).2 := by
  rcases applyOne_spec I h.shows w with ⟨s', hr, hs', -⟩
  rw [hr]
  refine ⟨_, Image.le_write ⟨n, s.view⟩ w, hs'.inv, ?_⟩
  rw [hs'.view, base_write]

theorem applyWrites_grown (h : Inv Knows n s) (ws : List QuadOp) :
    ∃ n', Grown Knows n s n' (applyWrites A s ws).2 := by
  refine Machine.batch_inv (J := fun s' => ∃ n', Grown Knows n s n' s') (P := fun _ _ => True) ?_
    ⟨n, n.le_refl, h, rfl⟩ (Machine.batchMeets_true s ws)
  rintro s' w ⟨n', hs'⟩ -
  rcases applyOne_grown I hs'.inv w with ⟨n'', h''⟩
  exact ⟨n'', hs'.trans h''⟩

theorem applyRecord_grown (h : Inv Knows n s) (r : WalRecord) : ∃ n', Grown Knows n s n'
    (applyRecord A s r).2 := by
  rcases applyRecord_spec I h.shows r with ⟨s', hr, hs'⟩
  rw [hr]
  refine ⟨_, ?_, hs'.inv, ?_⟩
  · cases r with
    | insertQuad q => exact Image.le_write ⟨n, s.view⟩ (.insert q)
    | removeQuad q => exact Image.le_write ⟨n, s.view⟩ (.remove q)
    | registerGraph g =>
      cases g with
      | namedNode iri => exact n.le_internGraph (.namedNode iri)
      | _ => exact n.le_refl
  · rw [hs'.view]
    cases r with
    | insertQuad q => exact base_write ⟨n, s.view⟩ (.insert q)
    | removeQuad q => exact base_write ⟨n, s.view⟩ (.remove q)
    | registerGraph g =>
      cases g with
      | _ => rfl

theorem replayRecords_grown : ∀ {rs : List WalRecord} {n : Names} {s s' : LoudsStore D}, Inv Knows n s →
    replayRecords A s rs = .ok s' → ∃ n', Grown Knows n s n' s' := by
  intro rs
  induction rs with
  | nil =>
    intro n s s' h hr
    cases hr
    exact ⟨n, n.le_refl, h, rfl⟩
  | cons r rs ih =>
    intro n s s' h hr
    rcases applyRecord_grown I h r with ⟨n₁, h₁⟩
    rw [replayRecords] at hr
    rcases hrec : applyRecord A s r with ⟨res, s₁⟩
    rw [hrec] at hr h₁
    have hrest : replayRecords A s₁ rs = .ok s' := by
      split at hr
      · cases hr
      · next heq =>
        cases heq
        exact hr
    rcases ih h₁.inv hrest with ⟨n₂, h₂⟩
    exact ⟨n₂, h₁.trans h₂⟩

theorem replaySegments_grown (crc32 : Bytes → UInt32) (gen : Nat) : ∀ (segments : List (Nat × Bytes)) {n : Names}
    {s : LoudsStore D}, Inv Knows n s →
    (∀ op ∈ (replaySegments (S := S) crc32 A s segments).2, harmless gen op = true) ∧
      ∀ s', (replaySegments (S := S) crc32 A s segments).1 = .ok s' → ∃ n', Grown Knows n s n' s' := by
  intro segments
  induction segments with
  | nil =>
    intro n s h
    refine ⟨fun op hop => absurd hop not_mem_nil, fun s' hr => ?_⟩
    cases hr
    exact ⟨n, n.le_refl, h, rfl⟩
  | cons e segments ih =>
    intro n s h
    rcases e with ⟨seq, file⟩
    simp only [replaySegments]
    cases hrs : replayRecords A s (Wal.replay crc32 file).applied with
    | error p =>
      refine ⟨fun op hop => absurd hop not_mem_nil, fun s' hr => ?_⟩
      cases hr
    | ok s₁ =>
      rcases replayRecords_grown I h hrs with ⟨n₁, h₁⟩
      rcases ih h₁.inv with ⟨hops, hrest⟩
      constructor
      · intro op hop
        rcases mem_append.mp hop with hop | hop
        · -- a torn tail is cut off
          split at hop
          · rw [mem_singleton.mp hop]
            rfl
          · cases hop
        · exact hops op hop
      · intro s' hs'
        rcases hrest s' hs' with ⟨n₂, h₂⟩
        exact ⟨n₂, h₁.trans h₂⟩

end Writes

/-! ## A process and its files -/

/-- A process with a data directory: it has the snapshot's rings, and a search sees what
is on disk. -/
structure OnDisk (F : DictFile D S) (fresh : D) (Knows : D → Names → Prop) (f : TextDir S) (t : IndexedStore D)
    (n : Names) : Prop where
  gen : t.store.snapshotGen = f.gen
  files : ∃ n₀, n₀.Le n ∧ FilesOk F fresh Knows f n₀ t.store.inner.view.base
  index : ∀ ft, t.fulltext = some ft → ft.committed = f.index

/-- A process whose documents index the base of its store, over files that can be opened. -/
structure InStep (F : DictFile D S) (fresh : D) (Knows : D → Names → Prop) (f : TextDir S) (t : IndexedStore D)
    (n : Names) : Prop where
  inv : Inv Knows n t.store.inner
  fed : ∀ ft, t.fulltext = some ft → ft.writer = ft.committed ∧ IndexOf n t.store.inner.view.base ft.committed
  stored : Stored F fresh Knows f
  disk : t.dataDir = true → OnDisk F fresh Knows f t n

/-- A request leaves a process that serves its files, and files that can be opened
wherever it is cut. -/
structure TextLands (F : DictFile D S) (fresh : D) (Knows : D → Names → Prop) (f : TextDir S)
    (x : IndexedStore.Outcome D S α) : Prop where
  serves : ∃ n, InStep F fresh Knows (f.steps x.2.2) x.2.1 n
  cut : ∀ k gone, Stored F fresh Knows (f.cut x.2.2 k gone)

section Lands

variable {f : TextDir S} {t t' : IndexedStore D} {n n' : Names} {x : IndexedStore.Outcome D S α} {a : α}
variable {ops : List (TextOp S)} {k : α → IndexedStore D → IndexedStore.Outcome D S β}

theorem TextDir.cut_nil (f : TextDir S) (k : Nat) (gone : FileName → Bool) : f.cut [] k gone = f := by
  simp [TextDir.cut, TextDir.stepPartly, TextDir.steps]

theorem InStep.lands (h : InStep F fresh Knows f t n) (r : Except Fault α) :
    TextLands F fresh Knows f (r, t, []) where
  serves := ⟨n, h⟩
  cut := by
    intro k gone
    rw [TextDir.cut_nil]
    exact h.stored

theorem TextLands.next (hcut : ∀ k gone, Stored F fresh Knows (f.cut ops k gone))
    (h : TextLands F fresh Knows (f.steps ops) (k a t)) :
    TextLands F fresh Knows f (IndexedStore.andThen (.ok a, t, ops) k) where
  serves := by
    simp only [IndexedStore.andThen, TextDir.steps_append]
    exact h.serves
  cut := by
    intro j gone
    simp only [IndexedStore.andThen, TextDir.cut_append]
    split
    · exact hcut j gone
    · exact h.cut _ gone

theorem TextLands.map (h : TextLands F fresh Knows f x) (g : α → β) :
    TextLands F fresh Knows f (IndexedStore.andThen x fun a t => (.ok (g a), t, [])) := by
  rcases x with ⟨r, t, ops⟩
  cases r with
  | error e => exact ⟨h.serves, h.cut⟩
  | ok a =>
    simp only [IndexedStore.andThen, append_nil]
    exact ⟨h.serves, h.cut⟩

theorem InStep.keep_files (h : InStep F fresh Knows f t n) {ops : List (FsOp Rings S)}
    (hops : ∀ op ∈ ops, harmless f.gen op = true) :
    InStep F fresh Knows (f.steps (ops.map .fs)) t n ∧
      ∀ k gone, Stored F fresh Knows (f.cut (ops.map .fs) k gone) := by
  have hsame : ∀ k gone, SameSnapshot F fresh f.dir (f.dir.cut ops k gone) :=
    fun k gone => sameSnapshot_cut k gone hops
  have hcut : ∀ k gone, Stored F fresh Knows (f.cut (ops.map .fs) k gone) := by
    intro k gone
    rcases h.stored with ⟨n₀, base, hfiles⟩
    rw [TextDir.cut_fs]
    exact ⟨n₀, base, hfiles.same (hsame k gone)⟩
  refine ⟨⟨h.inv, h.fed, ?_, fun hdir => ?_⟩, hcut⟩
  · have hend := hcut (ops.map TextOp.fs).length (fun _ => false)
    rwa [TextDir.cut_of_length_le f (Nat.le_refl _)] at hend
  · have hdisk := h.disk hdir
    have hend := hsame ops.length (fun _ => false)
    rw [cut_of_length_le f.dir (Nat.le_refl _)] at hend
    rw [TextDir.steps_fs]
    rcases hdisk.files with ⟨n₀, hle, hfiles⟩
    exact ⟨hdisk.gen.trans hend.gen.symm, ⟨n₀, hle, hfiles.same hend⟩, hdisk.index⟩

theorem InStep.grown (h : InStep F fresh Knows f t n) {s' : LoudsStore D}
    (hs : Grown Knows n t.store.inner n' s') :
    InStep F fresh Knows f { t with store := { t.store with inner := s' } } n' where
  inv := hs.inv
  fed := by
    intro ft hft
    rcases h.fed ft hft with ⟨hwriter, hindex⟩
    rw [hs.base]
    exact ⟨hwriter, hindex.of_le hs.le fun k hk => h.inv.base_keys hk⟩
  stored := h.stored
  disk := by
    intro hdir
    have hdisk := h.disk hdir
    rcases hdisk.files with ⟨n₀, hle, hfiles⟩
    refine ⟨hdisk.gen, ⟨n₀, hle.trans hs.le, ?_⟩, hdisk.index⟩
    rw [hs.base]
    exact hfiles

/-! ## Commits -/

/-- The rings of the image have been installed, on disk as well, and the index has not
been touched. -/
structure Installs (F : DictFile D S) (fresh : D) (Knows : D → Names → Prop) (f : TextDir S)
    (t t' : IndexedStore D)
    (ops : List (TextOp S)) (im : Image) : Prop where
  shows : Shows Knows im t'.store.inner
  fulltext : t'.fulltext = t.fulltext
  dataDir : t'.dataDir = t.dataDir
  index : (f.steps ops).index = f.index
  cut : ∀ k gone, Stored F fresh Knows (f.cut ops k gone)
  disk : t.dataDir = true → t'.store.snapshotGen = (f.steps ops).gen ∧
    FilesOk F fresh Knows (f.steps ops) im.names im.view.base

theorem Installs.stored {im : Image} (h : Installs F fresh Knows f t t' ops im) :
    Stored F fresh Knows (f.steps ops) := by
  have hend := h.cut ops.length (fun _ => false)
  rwa [TextDir.cut_of_length_le f (Nat.le_refl _)] at hend

/-- What `commit_compaction` does to the files. -/
theorem installs_onEither (hstored : Stored F fresh Knows f)
    (hgen : t.dataDir = true → t.store.snapshotGen = f.gen)
    {im : Bool → Image} {persistent : Persistent D → Persistent.Outcome D S α}
    {memory : LoudsStore D → LoudsStore.Outcome D α}
    (hp : ∃ s' file b, persistent t.store =
      (.ok a, ⟨s', t.store.snapshotGen + 1, t.store.walSeq + 1⟩, commitOps t.store s'.graphs file) ∧
        F.load file = .ok s'.dict ∧ Shows Knows (im b) s')
    (hm : ∃ s' b, memory t.store.inner = (.ok a, s') ∧ Shows Knows (im b) s') :
    ∃ t' ops b, IndexedStore.onEither t persistent memory = (.ok a, t', ops) ∧
      Installs F fresh Knows f t t' ops (im b) := by
  cases hdir : t.dataDir with
  | false =>
    rcases hm with ⟨s', b, hr, hs'⟩
    refine ⟨{ t with store := { t.store with inner := s' } }, [], b, ?_, hs', rfl, rfl, rfl, ?_, ?_⟩
    · simp only [IndexedStore.onEither, hdir, Bool.false_eq_true, if_false, hr, Persistent.inMemory,
        IndexedStore.onStore, map_nil]
    · intro k gone
      rw [TextDir.cut_nil]
      exact hstored
    · intro hdir'
      rw [hdir] at hdir'
      cases hdir'
  | true =>
    have hgen := hgen hdir
    rcases hp with ⟨s', file, b, hr, hload, hs'⟩
    rcases hstored with ⟨n₀, base₀, hfiles⟩
    have hsnap := hs'.of_snapshot.inv
    have hafter : ∀ k gone, 5 ≤ k →
        (f.dir.cut (commitOps t.store s'.graphs file) k gone).loadManifest.snapshotGen = t.store.snapshotGen + 1 ∧
          loadSnapshot F fresh (f.dir.cut (commitOps t.store s'.graphs file) k gone) =
            .ok { LoudsStore.new s'.dict with graphs := s'.graphs } :=
      fun k gone hk => commit_after hload hk gone
    -- from the rename on the files have the new snapshot
    have hnew : ∀ k gone, 5 ≤ k → FilesOk F fresh Knows
        { f with dir := f.dir.cut (commitOps t.store s'.graphs file) k gone } (im b).names (im b).view.base := by
      intro k gone hk
      rcases hafter k gone hk with ⟨hgen', hload'⟩
      rw [hgen] at hgen'
      have hnext := hfiles.next hgen' hload' hsnap
      have hbase : (im b).view.base = s'.view.base := by rw [hs'.view]
      rw [hbase]
      exact hnext
    have hsteps : f.dir.steps (commitOps t.store s'.graphs file) =
        f.dir.cut (commitOps t.store s'.graphs file) 6 fun _ => false :=
          (cut_of_length_le f.dir (Nat.le_refl _) _).symm
    refine ⟨{ t with store := ⟨s', t.store.snapshotGen + 1, t.store.walSeq + 1⟩ },
      (commitOps t.store s'.graphs file).map .fs, b, ?_, hs', rfl, rfl, ?_, ?_, ?_⟩
    · simp only [IndexedStore.onEither, hdir, if_true, hr, IndexedStore.onStore]
    · rw [TextDir.steps_fs]
    · intro k gone
      rw [TextDir.cut_fs]
      by_cases hk : k < 5
      · exact ⟨n₀, base₀, hfiles.same (commit_before hgen hk gone)⟩
      · exact ⟨_, _, hnew k gone (Nat.not_lt.mp hk)⟩
    · intro _
      rw [TextDir.steps_fs, hsteps]
      exact ⟨(hafter 6 (fun _ => false) (by omega)).1.symm, hnew 6 _ (by omega)⟩

/-- The index is committed after its store: its writer indexes the rings. -/
theorem commitFulltext_lands {ft : FulltextIndex} (hinv : Inv Knows n t.store.inner)
    (hwriter : IndexOf n t.store.inner.view.base ft.writer) (hstored : Stored F fresh Knows f)
    (hdisk : t.dataDir = true → t.store.snapshotGen = f.gen ∧
      ∃ n₀, n₀.Le n ∧ FilesOk F fresh Knows f n₀ t.store.inner.view.base) :
    TextLands F fresh Knows f (IndexedStore.commitFulltext (S := S) t ft) := by
  have hfed : ∀ ft', some ft.commit = some ft' →
      ft'.writer = ft'.committed ∧ IndexOf n t.store.inner.view.base ft'.committed := by
    rintro _ ⟨⟩
    exact ⟨rfl, hwriter⟩
  rw [IndexedStore.commitFulltext]
  by_cases hdir : t.dataDir = true
  case neg =>
    have hserves : InStep F fresh Knows f { t with fulltext := some ft.commit } n :=
      ⟨hinv, hfed, hstored, fun hdir' => absurd hdir' hdir⟩
    rw [if_neg hdir]
    exact hserves.lands _
  case pos =>
    rw [if_pos hdir]
    rcases hdisk hdir with ⟨hgen, n₀, hle, hfiles⟩
    -- the documents index the snapshot as well
    have hdocs : IndexOf n₀ t.store.inner.view.base ft.writer := by
      refine hwriter.congr (fun _ _ _ => Iff.rfl) fun k doc hk => ?_
      rcases hfiles.keys k hk with ⟨q, hq⟩
      rw [docOf_of_le hle hq]
    have hcut : ∀ k gone, FilesOk F fresh Knows
        (f.cut [.commitIndex ft.writer, .writeMarker t.store.snapshotGen] k gone) n₀ t.store.inner.view.base := by
      intro k gone
      rw [hgen]
      exact hfiles.commit hdocs gone
    have hend : FilesOk F fresh Knows (f.steps [.commitIndex ft.writer, .writeMarker t.store.snapshotGen]) n₀
        t.store.inner.view.base := hcut 2 fun _ => false
    refine ⟨⟨n, hinv, hfed, ⟨_, _, hend⟩, fun _ => ⟨hgen, ⟨n₀, hle, hend⟩, ?_⟩⟩, fun k gone => ⟨_, _, hcut k gone⟩⟩
    rintro _ ⟨⟩
    rfl

theorem Installs.serves {im : Image} (h : Installs F fresh Knows f t t' ops im)
    (hfed : ∀ ft, t.fulltext = some ft → ft.writer = ft.committed ∧ IndexOf im.names im.view.base ft.committed)
    (hindex : t.dataDir = true → ∀ ft, t.fulltext = some ft → ft.committed = f.index) :
    InStep F fresh Knows (f.steps ops) t' im.names where
  inv := h.shows.inv
  fed := by
    rw [h.fulltext, h.shows.view]
    exact hfed
  stored := h.stored
  disk := by
    intro hdir
    rw [h.dataDir] at hdir
    rcases h.disk hdir with ⟨hgen, hfiles⟩
    refine ⟨hgen, ⟨im.names, im.names.le_refl, ?_⟩, ?_⟩
    · rw [h.shows.view]
      exact hfiles
    · rw [h.fulltext, h.index]
      exact hindex hdir

end Lands

/-! ## Requests -/

theorem IndexedStore.andThen_ok (a : α) (t : IndexedStore D)
    (k : α → IndexedStore D → IndexedStore.Outcome D S β) :
    IndexedStore.andThen (.ok a, t, []) k = k a t := by
  simp [IndexedStore.andThen]

theorem markAll_delta (s : LoudsStore D) : markAll s.view.base s.delta.iter = s.view.merge.base := by
  ext k
  show _ ↔ k ∈ s.view.live
  rw [mem_markAll (Delta.iter_keys_nodup _), Overlay.mem_live, Delta.mem_iter, Delta.mem_iter]
  simp only [view, Delta.mem_marked]

section Requests

variable {f : TextDir S} {t : IndexedStore D} {n : Names}
variable (I : Implements A Knows CompactOk) (P : Persists A F Knows CompactOk Ready)
include I P

/-- The rings of a compaction are installed. -/
theorem installs_compaction (hinv : Inv Knows n t.store.inner) (hready : Ready t.store.inner.dict)
    (hstored : Stored F fresh Knows f) (hgen : t.dataDir = true → t.store.snapshotGen = f.gen) :
    ∃ t' ops b, IndexedStore.onEither t (Persistent.compactLocked A F) (LoudsStore.compactLocked A) =
        (.ok (), t', ops) ∧
      Installs F fresh Knows f t t' ops (Image.compact ⟨n, t.store.inner.view⟩ b) := by
  refine installs_onEither hstored hgen ?_ ?_
  · rcases Persistent.compactLocked_spec I P hinv.shows hready with ⟨d₂, file, b, hr, hload, hshows, -⟩
    exact ⟨_, file, b, hr, hload, hshows⟩
  · rcases compactLocked_shows I hinv.shows (P.compactOk _ _ hinv.knows hready) with ⟨s', b, hr, hshows, -⟩
    exact ⟨s', b, hr, hshows⟩

variable (hread : ∀ d id r d', A.getTermArc d id = .ok (r, d') → Ready d → Ready d')
include hread

section

variable (h : InStep F fresh Knows f t n)
include h

theorem compactLocked_lands (hready : Ready t.store.inner.dict) :
    TextLands F fresh Knows f (IndexedStore.compactLocked A F t) := by
  have hgen : t.dataDir = true → t.store.snapshotGen = f.gen := fun hdir => (h.disk hdir).gen
  rw [IndexedStore.compactLocked, IndexedStore.indexDeltaIntoFulltext]
  cases hft : t.fulltext with
  | none =>
    rcases installs_compaction I P h.inv hready h.stored hgen with ⟨t', ops, b, hr, hi⟩
    rw [IndexedStore.andThen_ok, hr]
    refine TextLands.next hi.cut ?_
    rw [IndexedStore.finalizeFulltextCommit, hi.fulltext, hft]
    have hnone : ∀ ft, t.fulltext ≠ some ft := by
      intro ft heq
      rw [hft] at heq
      cases heq
    exact (hi.serves (fun ft hft' => absurd hft' (hnone ft)) fun _ ft hft' => absurd hft' (hnone ft)).lands _
  | some ft =>
    rcases h.fed ft hft with ⟨hwriter, hindex⟩
    rw [← hwriter] at hindex
    have hkeys : ∀ e ∈ t.store.inner.delta.iter, ∃ q, n.keyOf q = some e.1 :=
      fun e he => h.inv.keys e.1 e.2 (Delta.mem_iter.mp he)
    rcases indexEntries_spec I h.inv.knows hindex hkeys with ⟨⟨ft', d'⟩, hr, hfed⟩
    have hinv := h.inv.with_dict n.le_refl hfed.knows
    simp only [hr]
    rw [IndexedStore.andThen_ok]
    rcases installs_compaction (t := { t.withDict d' with fulltext := some ft' }) I P hinv
      (hfed.read Ready hread hready) h.stored hgen with ⟨t', ops, b, hr', hi⟩
    rw [hr']
    refine TextLands.next hi.cut ?_
    rw [IndexedStore.finalizeFulltextCommit, hi.fulltext]
    have hwriter' := hfed.writer
    rw [markAll_delta] at hwriter'
    refine commitFulltext_lands hi.shows.inv ?_ hi.stored fun hdir => ?_
    · rw [hi.shows.view]
      exact hwriter'
    · rw [hi.dataDir] at hdir
      rcases hi.disk hdir with ⟨hgen', hfiles⟩
      refine ⟨hgen', _, Names.le_refl _, ?_⟩
      rw [hi.shows.view]
      exact hfiles

theorem maybeAutoCompact_lands
    (hready : t.store.inner.autoDue = true → Ready t.store.inner.dict) :
    TextLands F fresh Knows f (IndexedStore.maybeAutoCompact A F t) := by
  rw [IndexedStore.maybeAutoCompact]
  rw [autoDue] at hready
  cases hauto : t.store.inner.autoCompactThreshold with
  | none => exact h.lands _
  | some threshold =>
    rw [hauto] at hready
    by_cases hdue : threshold ≤ t.store.inner.delta.len
    · simp only [if_pos hdue]
      exact compactLocked_lands I P hread h (hready (decide_eq_true hdue))
    · simp only [if_neg hdue]
      exact h.lands _

/-- A write: log, apply, compact. -/
theorem logged_lands {c : Call} (hw : c.writes ≠ []) (records : List WalRecord)
    {apply : LoudsStore D → LoudsStore.Outcome D α} {g : List Bool → α}
    (happly : ∀ s, apply s = LoudsStore.andThen (applyWrites A s c.writes) fun bs s => (.ok (g bs), s))
    (hready : ∀ d ∈ compactsAt A t.store.inner c, Ready d) :
    TextLands F fresh Knows f (IndexedStore.logged crc32 A F t records apply) := by
  have hlog : ∃ ops : List (FsOp Rings S), IndexedStore.walAppend crc32 t records = (.ok (), t, ops.map .fs) ∧
      ∀ op ∈ ops, harmless f.gen op = true := by
    rw [IndexedStore.walAppend, IndexedStore.onEither]
    cases t.dataDir with
    | false => exact ⟨[], rfl, nofun⟩
    | true =>
      refine ⟨[.append t.store.walSeq ((Wal.format crc32).log records)], rfl, fun op hop => ?_⟩
      rw [mem_singleton.mp hop]
      rfl
  rcases hlog with ⟨ops, hlog, hops⟩
  rcases h.keep_files hops with ⟨hserves, hcut⟩
  rw [IndexedStore.logged, hlog]
  refine TextLands.next hcut ?_
  rcases applyWrites_grown I h.inv c.writes with ⟨n', hgrown⟩
  rw [compactsAt] at hready
  rw [happly]
  rcases hr : applyWrites A t.store.inner c.writes with ⟨r, s'⟩
  rw [hr] at hgrown hready
  have hserves' := hserves.grown hgrown
  cases r with
  | error e => exact hserves'.lands _
  | ok bs =>
    refine (maybeAutoCompact_lands I P hread hserves' fun hdue => ?_).map _
    exact hready _ (by simp only [if_pos (show c = .compact ∨ c.writes ≠ [] ∧
      s'.autoDue = true from .inr ⟨hw, hdue⟩)]; rfl)

theorem call_lands {c : Call} (hready : ∀ d ∈ compactsAt A t.store.inner c, Ready d) :
    TextLands F fresh Knows f (IndexedStore.call crc32 A F t c) := by
  cases c with
  | insert q =>
    exact (logged_lands I P hread h (c := .insert q) (by simp [Call.writes]) _
      (fun s => applyOne_eq s (.insert q)) hready).map _
  | remove q =>
    exact (logged_lands I P hread h (c := .remove q) (by simp [Call.writes]) _
      (fun s => applyOne_eq s (.remove q)) hready).map _
  | extendBoxed quads =>
    cases quads with
    | nil => exact (h.lands (α := Nat) (.ok 0)).map _
    | cons q quads =>
      rw [IndexedStore.call, IndexedStore.extendBoxed, if_neg (by simp)]
      refine (logged_lands I P hread h (c := .extendBoxed (q :: quads)) (g := fun bs => bs.count true)
        (by simp [Call.writes]) _ (fun s => ?_) hready).map Reply.count
      rw [insertAll_eq]
      simp [Call.writes]
  | applyBatch ops =>
    cases ops with
    | nil => exact (h.lands (α := Nat × Nat) (.ok (0, 0))).map fun c : Nat × Nat => Reply.counts c.1 c.2
    | cons w ops =>
      rw [IndexedStore.call, IndexedStore.applyBatch, if_neg (by simp)]
      refine (logged_lands I P hread h (c := .applyBatch (w :: ops)) (g := fun bs => tally (w :: ops) bs)
        (by simp [Call.writes]) _ (fun s => ?_) hready).map fun c : Nat × Nat => Reply.counts c.1 c.2
      rw [applyAll_eq]
      simp [Call.writes]
  | compact => exact (compactLocked_lands I P hread h (hready _ rfl)).map _

end

omit hread

variable {quads : List Quad}

omit P in
/-- The documents of the old base index the new one exactly if a loaded literal was in the
rings already. -/
theorem indexOf_load_iff {s : LoudsStore D} {n' : Names} {docs : List Document}
    (hinv : Inv Knows n s) (hle : n.Le n') (hkeys : ∀ q ∈ quads, ∃ k, n'.keyOf q = some k)
    (hi : IndexOf n s.view.base docs) : IndexOf n' (s.view.base ∪ keysOf n' quads) docs ↔
      ∀ q ∈ quads, (literalText q.object).isSome = true → isCompacted A s q = true := by
  have hdoc : ∀ {q k}, n'.keyOf q = some k → (docOf n' k).isSome = (literalText q.object).isSome := by
    intro q k hk
    rcases Names.keyOf_eq_some.mp hk with ⟨g, sId, pId, oId, hids, rfl⟩
    rw [docOf_packQuad, (Names.quadIds_eq_some.mp hids).2.2.2]
    exact Option.isSome_map
  constructor
  · intro hi' q hq hlit
    rcases hkeys q hq with ⟨k, hk⟩
    rw [← hdoc hk] at hlit
    rcases Option.isSome_iff_exists.mp hlit with ⟨doc, hd⟩
    have hkey := docOf_quadKey hk hd
    have hin : doc ∈ docs := by
      rw [hi'.mem, hkey]
      exact ⟨Finset.mem_union_right _ (mem_keysOf.mpr ⟨q, hq, hk⟩), hd⟩
    rw [hi.mem, hkey] at hin
    -- the key was the key of a quad before, and of no other
    rcases hinv.base_keys hin.1 with ⟨q', hq'⟩
    rw [← Names.keyOf_inj (Names.keyOf_of_le hle hq') hk]
    exact (isCompacted_iff I hinv).mpr ⟨k, hin.1, hq'⟩
  · intro hall
    refine hi.congr (fun k doc hd => ?_) fun k doc hk => ?_
    · rw [Finset.mem_union, or_iff_left_of_imp]
      intro hk
      rcases mem_keysOf.mp hk with ⟨q, hq, hkq⟩
      have hlit : (literalText q.object).isSome = true := by
        rw [← hdoc hkq, hd]
        rfl
      rcases (isCompacted_iff I hinv).mp (hall q hq hlit) with ⟨k', hk', hkq'⟩
      have heq := Names.keyOf_of_le hle hkq'
      rw [hkq] at heq
      rw [Option.some.inj heq]
      exact hk'
    · rcases hinv.base_keys hk with ⟨q, hq⟩
      rw [docOf_of_le hle hq]

/-- A bulk load that goes through. -/
theorem installs_bulkLoad (hinv : Inv Knows n t.store.inner)
    (hfits : (loadQuads A t.store.inner t.store.inner.perGraph quads).1.isOk = true)
    (hready : ∀ d ∈ stepCompactsAt A t.store.inner (.bulkLoad quads), Ready d)
    (hstored : Stored F fresh Knows f) (hgen : t.dataDir = true → t.store.snapshotGen = f.gen) :
    ∃ t' ops b, IndexedStore.bulkLoad A F t quads = (.ok quads.length, t', ops) ∧
      Installs F fresh Knows f t t' ops (Image.load ⟨n, t.store.inner.view⟩ quads b) ∧
      n.Le (n.internQuads quads).2 ∧ ∀ q ∈ quads, ∃ k, (n.internQuads quads).2.keyOf q = some k := by
  rcases Persistent.bulkLoad_spec I P hinv.shows hfits (fun d hd => hready d hd) with
    ⟨s', file, b, hr, hload, hshows, hle, hkeys⟩
  have hinstalls : ∃ t' ops b, IndexedStore.bulkLoad A F t quads = (.ok quads.length, t', ops) ∧
      Installs F fresh Knows f t t' ops (Image.load ⟨n, t.store.inner.view⟩ quads b) := by
    refine installs_onEither hstored hgen ⟨s', file, b, hr, hload, hshows⟩ ?_
    have hsafe : ∀ d n', stepCompactsAt A t.store.inner (.bulkLoad quads) = some d → Knows d n' → CompactOk n' :=
      fun d n' hd hn => P.compactOk d n' hn (hready d hd)
    rcases LoudsStore.bulkLoad_spec I hinv quads hsafe with ⟨s₂, b₂, hr₂, -, -, hnext⟩ | ⟨e, s₂, hr₂, -⟩
    · exact ⟨s₂, b₂, hr₂, hnext.shows⟩
    · -- the load itself goes through, and so does the compaction
      exfalso
      rcases hl : loadQuads A t.store.inner t.store.inner.perGraph quads with ⟨r, s₁⟩
      rw [hl] at hfits
      cases r with
      | error f => cases hfits
      | ok m =>
        have h₁ := (loadQuads_spec I quads hinv hinv.perGraph_known).2.2.1
        rw [hl] at h₁
        have hd : stepCompactsAt A t.store.inner (.bulkLoad quads) = some s₁.dict := by rw [stepCompactsAt, hl]
        rcases compactDict_spec I h₁ (P.compactOk _ _ h₁.knows (hready _ hd)) with ⟨d', b', hc, -⟩
        rw [LoudsStore.bulkLoad, hl] at hr₂
        simp only [LoudsStore.andThen, hc] at hr₂
        cases hr₂
  rcases hinstalls with ⟨t', ops, b', hr', hi⟩
  exact ⟨t', ops, b', hr', hi, hle, hkeys⟩

omit P in
theorem bulkLoad_fails (h : InStep F fresh Knows f t n)
    (hfails : (loadQuads A t.store.inner t.store.inner.perGraph quads).1.isOk = false) :
    TextLands F fresh Knows f (IndexedStore.bulkLoad A F t quads) := by
  rcases loadQuads_spec I quads h.inv h.inv.perGraph_known with ⟨hle, hsame, hinv, -⟩
  rcases hl : loadQuads A t.store.inner t.store.inner.perGraph quads with ⟨r, s₁⟩
  rw [hl] at hfails hsame hinv
  have hview : s₁.view.base = t.store.inner.view.base := by rw [hsame.view]
  cases r with
  | ok m => cases hfails
  | error e =>
    have hr : IndexedStore.bulkLoad A F t quads =
        (.error e, { t with store := { t.store with inner := s₁ } }, ([] : List (TextOp S))) := by
      rw [IndexedStore.bulkLoad, IndexedStore.onEither]
      split
      · rw [Persistent.bulkLoad, hl]
        rfl
      · rw [LoudsStore.bulkLoad, hl]
        rfl
    rw [hr]
    exact (h.grown ⟨hle, hinv, hview⟩).lands _

theorem bulkLoad_lands (h : InStep F fresh Knows f t n)
    (hready : ∀ d ∈ stepCompactsAt A t.store.inner (.bulkLoad quads), Ready d)
    (hload : t.fulltext.isSome = true → (loadQuads A t.store.inner t.store.inner.perGraph quads).1.isOk = true →
      ∀ q ∈ quads, (literalText q.object).isSome = true → isCompacted A t.store.inner q = true) :
    TextLands F fresh Knows f (IndexedStore.bulkLoad A F t quads) := by
  cases hfits : (loadQuads A t.store.inner t.store.inner.perGraph quads).1.isOk with
  | false => exact bulkLoad_fails I h hfits
  | true =>
    rcases installs_bulkLoad I P h.inv hfits hready h.stored fun hdir => (h.disk hdir).gen with
      ⟨t', ops, b, hr, hi, hle, hkeys⟩
    rw [hr]
    refine ⟨⟨_, hi.serves (fun ft hft => ?_) fun hdir => (h.disk hdir).index⟩, hi.cut⟩
    rcases h.fed ft hft with ⟨hwriter, hindex⟩
    refine ⟨hwriter, (indexOf_load_iff I h.inv hle hkeys hindex).mpr (hload ?_ hfits)⟩
    rw [hft]
    rfl

omit P in
theorem registerNamedGraph_lands (h : InStep F fresh Knows f t n) (g : GraphName) :
    TextLands F fresh Knows f (IndexedStore.registerNamedGraph crc32 A t g) := by
  rcases applyRecord_grown I h.inv (.registerGraph g) with ⟨n', hgrown⟩
  have hpassive : ∃ (r : Except Fault Unit) (ops : List (FsOp Rings S)),
      IndexedStore.registerNamedGraph crc32 A t g =
        (r, { t with store := { t.store with inner := (applyRegisterGraph A t.store.inner g).2 } }, ops.map .fs) ∧
      ∀ op ∈ ops, harmless f.gen op = true := by
    rw [IndexedStore.registerNamedGraph, IndexedStore.onEither]
    by_cases hdir : t.dataDir = true
    · rw [if_pos hdir]
      cases g with
      | namedNode iri =>
        refine ⟨_, [.append t.store.walSeq ((Wal.format crc32).log [.registerGraph (.namedNode iri)])], rfl,
          fun op hop => ?_⟩
        rw [mem_singleton.mp hop]
        rfl
      | _ => exact ⟨_, [], rfl, nofun⟩
    · rw [if_neg hdir]
      exact ⟨_, [], rfl, nofun⟩
  rcases hpassive with ⟨r, ops, hr, hops⟩
  rcases h.keep_files hops with ⟨hserves, hcut⟩
  rw [hr]
  exact ⟨⟨n', hserves.grown hgrown⟩, hcut⟩

omit I P in
theorem setAutoCompactThreshold_lands (h : InStep F fresh Knows f t n) (threshold : Nat) :
    TextLands F fresh Knows f (IndexedStore.setAutoCompactThreshold (S := S) t threshold) := by
  rw [IndexedStore.setAutoCompactThreshold, IndexedStore.onEither]
  split
  · have hs := h.inv.shows.with_auto (some threshold)
    have hgrown : Grown Knows n t.store.inner n { t.store.inner with autoCompactThreshold := some threshold } :=
      ⟨n.le_refl, hs.inv, by rw [hs.view]⟩
    exact (h.grown hgrown).lands _
  · exact h.lands _

omit P in
/-- Enabling the index reads the quads that the store holds. -/
theorem enableFulltext_lands (h : InStep F fresh Knows f t n) :
    TextLands F fresh Knows f (IndexedStore.enableFulltext (S := S) A t f.index f.marker) := by
  have hrebuild : ∀ ft : FulltextIndex, ∃ x, rebuildAll A t.store.inner.dict t.store.inner.graphs ft = .ok x ∧
      TextLands F fresh Knows f (IndexedStore.commitFulltext (S := S) (t.withDict x.2) x.1) := by
    intro ft
    rcases rebuildAll_spec I h.inv ft with ⟨⟨ft', d'⟩, hr, hfed⟩
    refine ⟨_, hr, commitFulltext_lands (h.inv.with_dict n.le_refl hfed.knows) hfed.writer h.stored fun hdir => ?_⟩
    exact ⟨(h.disk hdir).gen, (h.disk hdir).files⟩
  rw [IndexedStore.enableFulltext]
  cases hft : t.fulltext with
  | some ft => exact h.lands _
  | none =>
    by_cases hdir : t.dataDir = true
    · simp only [if_pos hdir]
      by_cases hmarker : f.marker = some t.store.snapshotGen
      · -- the marker is the generation of the snapshot
        rw [if_neg (by simpa using hmarker)]
        have hdisk := h.disk hdir
        rcases hdisk.files with ⟨n₀, hle, hfiles⟩
        rw [hdisk.gen] at hmarker
        have hindex := (hfiles.current hmarker).of_le hle hfiles.keys
        have hserves : InStep F fresh Knows f { t with fulltext := some (.openOrCreate f.index) } n := by
          refine ⟨h.inv, ?_, h.stored, fun _ => ⟨hdisk.gen, hdisk.files, ?_⟩⟩
          · rintro _ ⟨⟩
            exact ⟨rfl, hindex⟩
          · rintro _ ⟨⟩
            rfl
        exact hserves.lands _
      · rw [if_pos (by simpa using hmarker)]
        rcases hrebuild (.openOrCreate f.index) with ⟨x, hr, hlands⟩
        simp only [hr]
        exact hlands
    · simp only [if_neg hdir, if_true]
      rcases hrebuild .createInRam with ⟨x, hr, hlands⟩
      simp only [hr]
      exact hlands

end Requests

/-! ## Runs -/

/-- The dictionary a request compacts, if it compacts one. -/
def IndexedStore.Request.compactsAt (A : DictApi D) (t : IndexedStore D) : IndexedStore.Request → Option D
  | .store (.call c) => stepCompactsAt A t.store.inner (.call c)
  | .store (.bulkLoad quads) => stepCompactsAt A t.store.inner (.bulkLoad quads)
  | _ => none

/-- Unless full-text search is off or the load fails, every loaded literal is in the
rings already. -/
def loadIndexed (A : DictApi D) (t : IndexedStore D) (quads : List Quad) : Prop :=
  t.fulltext.isSome = true → (loadQuads A t.store.inner t.store.inner.perGraph quads).1.isOk = true →
    ∀ q ∈ quads, (literalText q.object).isSome = true → isCompacted A t.store.inner q = true

namespace TextSite

/-- A request compacts no dictionary or one that is ready. -/
def CompactsReady (A : DictApi D) (Ready : D → Prop) (site : TextSite D S) (a : TextAction) : Prop :=
  match site.process, a with
  | some t, .request r => ∀ d ∈ r.compactsAt A t, Ready d
  | some t, .crash r _ _ => ∀ d ∈ r.compactsAt A t, Ready d
  | _, _ => True

/-- A bulk load brings no literal past the index. -/
def LoadsIndexed (A : DictApi D) (site : TextSite D S) (a : TextAction) : Prop :=
  match site.process, a with
  | some t, .request (.store (.bulkLoad quads)) => loadIndexed A t quads
  | _, _ => True

/-- The index is current: while full-text search is enabled its documents are those of the
rings, and where it is not, a marker equal to the generation of the snapshot says that
those on disk are. -/
structure Current (A : DictApi D) (site : TextSite D S) : Prop where
  enabled : ∀ t ft, site.process = some t → t.fulltext = some ft → Synced A t.store.inner ft.committed
  onDisk : ∀ t ft, site.process = some t → t.fulltext = some ft → t.dataDir = true →
    site.files.index = ft.committed
  marked : ∀ t, site.process = some t → t.dataDir = true → t.fulltext = none →
    site.files.marker = some t.store.snapshotGen → Synced A t.store.inner site.files.index

/-- The invariant of a site. -/
def Settled (F : DictFile D S) (fresh : D) (Knows : D → Names → Prop) (site : TextSite D S) : Prop :=
  match site.process with
  | some t => ∃ n, InStep F fresh Knows site.files t n
  | none => Stored F fresh Knows site.files

theorem settled_empty (hfresh : Knows fresh .empty) : Settled F fresh Knows (.empty : TextSite D S) :=
  ⟨.empty, _, ⟨_, rfl, inv_new hfresh, rfl⟩, (fun _ hm => by cases hm), (fun hm => by cases hm)⟩

section Steps

variable (I : Implements A Knows CompactOk) (P : Persists A F Knows CompactOk Ready)
variable {f : TextDir S} {t : IndexedStore D} {n : Names} {site : TextSite D S} {a : TextAction}
include I

theorem Settled.current (h : Settled F fresh Knows site) : Current A site := by
  rcases site with ⟨f, process⟩
  cases process with
  | none => exact ⟨(fun t ft hp => by cases hp), (fun t ft hp => by cases hp), (fun t hp => by cases hp)⟩
  | some t =>
    rcases h with ⟨n, h⟩
    refine ⟨?_, ?_, ?_⟩
    · rintro _ ft ⟨⟩ hft
      exact (synced_iff I h.inv).mpr (h.fed ft hft).2
    · rintro _ ft ⟨⟩ hft hdir
      exact ((h.disk hdir).index ft hft).symm
    · rintro _ ⟨⟩ hdir hft hmarker
      have hdisk := h.disk hdir
      rcases hdisk.files with ⟨n₀, hle, hfiles⟩
      have hcurrent := hfiles.current (hmarker.trans (congrArg some hdisk.gen))
      exact (synced_iff I h.inv).mpr (hcurrent.of_le hle hfiles.keys)

theorem openDir_lands (crc32 : Bytes → UInt32) (h : Stored F fresh Knows f) :
    (∀ op ∈ (Persistent.openDir crc32 A F fresh f.dir).2, harmless f.gen op = true) ∧
      ∀ p, (Persistent.openDir crc32 A F fresh f.dir).1 = .ok p →
        ∃ n, InStep F fresh Knows f ⟨p, true, none⟩ n := by
  rcases h with ⟨n₀, base, hfiles⟩
  rcases hfiles.snapshot with ⟨s₀, hload, hinv, hbase⟩
  simp only [Persistent.openDir, hload]
  rcases hr : replaySegments (S := S) crc32 A s₀ (f.dir.segments.since f.dir.loadManifest.walSeq) with ⟨r, ops⟩
  have hreplay := replaySegments_grown (S := S) I crc32 f.gen (f.dir.segments.since f.dir.loadManifest.walSeq) hinv
  rw [hr] at hreplay
  rcases hreplay with ⟨hops, hgrown⟩
  cases r with
  | error p =>
    refine ⟨hops, fun p hp => ?_⟩
    cases hp
  | ok s =>
    constructor
    · intro op hop
      rcases mem_append.mp hop with hop | hop
      · exact hops op hop
      · simp only [mem_cons, not_mem_nil, or_false] at hop
        rcases hop with rfl | rfl
        · rfl
        · exact decide_eq_true (Nat.le_refl _)
    · rintro _ ⟨⟩
      rcases hgrown s rfl with ⟨n, hs⟩
      have hshows := hs.inv.shows.with_auto (some defaultAutoCompactThreshold)
      have hview : LoudsStore.view { s with autoCompactThreshold := some defaultAutoCompactThreshold } = s.view :=
        hshows.view
      refine ⟨n, hshows.inv, fun ft hft => ?_, ⟨_, _, hfiles⟩, fun _ => ⟨rfl, ⟨n₀, hs.le, ?_⟩, fun ft hft => ?_⟩⟩
      · cases hft
      · rw [hview, hs.base, hbase]
        exact hfiles
      · cases hft

variable (hread : ∀ d id r d', A.getTermArc d id = .ok (r, d') → Ready d → Ready d')
include P hread

theorem request_lands (h : InStep F fresh Knows f t n) {r : IndexedStore.Request}
    (hready : ∀ d ∈ r.compactsAt A t, Ready d) (hload : LoadsIndexed A ⟨f, some t⟩ (.request r)) :
    TextLands F fresh Knows f (IndexedStore.request crc32 A F f t r) := by
  cases r with
  | enableFulltext => exact (enableFulltext_lands I h).map _
  | store r =>
    cases r with
    | call c => exact call_lands I P hread h hready
    | bulkLoad quads => exact (bulkLoad_lands I P h hready hload).map _
    | registerNamedGraph g => exact (registerNamedGraph_lands I h g).map _
    | setAutoCompactThreshold threshold => exact (setAutoCompactThreshold_lands h threshold).map _

theorem request_cut (h : InStep F fresh Knows f t n) {r : IndexedStore.Request}
    (hready : ∀ d ∈ r.compactsAt A t, Ready d) (k : Nat) (gone : FileName → Bool) :
    Stored F fresh Knows (f.cut (IndexedStore.request crc32 A F f t r).2.2 k gone) := by
  have hother : LoadsIndexed A ⟨f, some t⟩ (.request r) →
      Stored F fresh Knows (f.cut (IndexedStore.request crc32 A F f t r).2.2 k gone) :=
    fun hload => (request_lands I P hread h hready hload).cut k gone
  cases r with
  | enableFulltext => exact hother trivial
  | store r =>
    cases r with
    | call c => exact hother trivial
    | registerNamedGraph g => exact hother trivial
    | setAutoCompactThreshold threshold => exact hother trivial
    | bulkLoad quads =>
      cases hfits : (loadQuads A t.store.inner t.store.inner.perGraph quads).1.isOk with
      | false => exact ((bulkLoad_fails I h hfits).map Reply.count).cut k gone
      | true =>
        rcases installs_bulkLoad I P h.inv hfits hready h.stored fun hdir => (h.disk hdir).gen with
          ⟨t', ops, b, hr, hi, -, -⟩
        rw [IndexedStore.request, hr]
        simp only [IndexedStore.andThen, append_nil]
        exact hi.cut k gone

theorem Settled.step (hfresh : Knows fresh .empty) (h : Settled F fresh Knows site)
    (hready : CompactsReady A Ready site a) (hload : LoadsIndexed A site a) :
    Settled F fresh Knows (TextSite.step crc32 A F fresh site a).2 := by
  rcases site with ⟨f, process⟩
  cases process with
  | some t =>
    rcases h with ⟨n, h⟩
    cases a with
    | request r => exact (request_lands I P hread h hready hload).serves
    | crash r k gone => exact request_cut I P hread h hready k gone
    | close => exact h.stored
    | _ => exact ⟨n, h⟩
  | none =>
    rcases openDir_lands I crc32 h with ⟨hops, hopen⟩
    have hcut : ∀ k gone, Stored F fresh Knows
        (f.cut ((Persistent.openDir crc32 A F fresh f.dir).2.map .fs) k gone) := by
      intro k gone
      rcases h with ⟨n₀, base, hfiles⟩
      rw [TextDir.cut_fs]
      exact ⟨n₀, base, hfiles.same (sameSnapshot_cut k gone hops)⟩
    cases a with
    | openDir =>
      rw [TextSite.step]
      cases hr : (Persistent.openDir crc32 A F fresh f.dir).1 with
      | error e =>
        have hend := hcut ((Persistent.openDir crc32 A F fresh f.dir).2.map (TextOp.fs)).length fun _ => false
        rw [TextDir.cut_of_length_le f (Nat.le_refl _)] at hend
        simp only [hr]
        exact hend
      | ok p =>
        rcases hopen p hr with ⟨n, hserves⟩
        simp only [hr]
        exact ⟨n, (hserves.keep_files hops).1⟩
    | crashOpening k gone => exact hcut k gone
    | newStore =>
      refine ⟨.empty, inv_new hfresh, fun ft hft => ?_, h, fun hdir => ?_⟩
      · cases hft
      · cases hdir
    | _ => exact h

omit hread in
theorem loadsIndexed_of_current (h : Settled F fresh Knows site) (hready : CompactsReady A Ready site a)
    (hcurrent : Current A (TextSite.step crc32 A F fresh site a).2) : LoadsIndexed A site a := by
  rcases site with ⟨f, process⟩
  cases process with
  | none => trivial
  | some t =>
    cases a with
    | request r =>
      cases r with
      | enableFulltext => trivial
      | store r =>
        cases r with
        | bulkLoad quads =>
          rcases h with ⟨n, h⟩
          intro hsome hfits
          rcases Option.isSome_iff_exists.mp hsome with ⟨ft, hft⟩
          rcases installs_bulkLoad I P h.inv hfits hready h.stored fun hdir => (h.disk hdir).gen with
            ⟨t', ops, b, hr, hi, hle, hkeys⟩
          have hstep : (TextSite.step crc32 A F fresh ⟨f, some t⟩ (.request (.store (.bulkLoad quads)))).2 =
              ⟨f.steps ops, some t'⟩ := by
            simp only [TextSite.step, IndexedStore.request, hr, IndexedStore.andThen, append_nil]
          rw [hstep] at hcurrent
          have hsynced := hcurrent.enabled t' ft rfl (hi.fulltext.trans hft)
          have hindex := (synced_iff I hi.shows.inv).mp hsynced
          rw [hi.shows.view] at hindex
          exact (indexOf_load_iff I h.inv hle hkeys (h.fed ft hft).2).mp hindex
        | _ => trivial
    | _ => trivial

end Steps

section Source

open Dictionary DictCompact
open Site (DictReady dictFile persists readyBlock dictReady_of_block)

variable {bs : Nat}

theorem dictReady_getTermArc (d : Dictionary) (id : TermId) (r : Option Term) (d' : Dictionary)
    (h : (api bs).getTermArc d id = .ok (r, d')) (hready : DictReady bs d) : DictReady bs d' := by
  have hcache : ∃ cache, d' = { d with decodeCache := cache } := by
    have h : d.getTermArc id = .ok (r, d') := h
    rw [Dictionary.getTermArc] at h
    split at h
    · cases h
      exact ⟨d.decodeCache, rfl⟩
    · split at h
      · cases h
        exact ⟨_, rfl⟩
      · cases hblock : d.compacted.decodeBlockForId id.asU64 with
        | error p =>
          rw [hblock] at h
          cases h
        | ok block =>
          rw [hblock] at h
          cases block with
          | none =>
            cases h
            exact ⟨_, rfl⟩
          | some block =>
            cases h
            exact ⟨_, rfl⟩
    · cases h
      exact ⟨d.decodeCache, rfl⟩
  rcases hcache with ⟨cache, rfl⟩
  have hentries : ∀ ids : List Nat, collectEntries { d with decodeCache := cache } ids = d.collectEntries ids := by
    intro ids
    induction ids with
    | nil => rfl
    | cons id ids ih =>
      simp only [collectEntries, ih]
      rfl
  refine ⟨fun es hes => hready.1 es ?_, hready.2⟩
  rw [← hentries]
  exact hes

/-- In a run whose dictionary compactions are safe the index is current in every state
exactly if no bulk load brings a literal past it. -/
theorem fulltext_current_iff (hbs : 0 < bs) {actions : List TextAction}
    (h : Machine.Meets (step crc32 (api bs) dictFile (Dictionary.new bs)) (CompactsReady (api bs) (DictReady bs))
      .empty actions) :
    (∀ reached, reached <+: actions →
        Current (api bs) (Machine.run (step crc32 (api bs) dictFile (Dictionary.new bs)) .empty reached).2) ↔
      Machine.Meets (step crc32 (api bs) dictFile (Dictionary.new bs)) (LoadsIndexed (api bs)) .empty actions := by
  have I := implements hbs
  refine Machine.always_iff_of_inv (J := Settled dictFile (Dictionary.new bs) (Dictionary.Knows bs))
    (fun _ _ hs hready hload => hs.step I (persists hbs) dictReady_getTermArc (knows_new bs) hready hload)
    (fun _ hs => hs.current I)
    (fun _ _ hs hready hcurrent => loadsIndexed_of_current I (persists hbs) hs hready hcurrent)
    (settled_empty (knows_new bs)) h

instance {A : DictApi D} (t : IndexedStore D) (quads : List Quad) : Decidable (loadIndexed A t quads) :=
  inferInstanceAs (Decidable (_ → _ → ∀ q ∈ quads, _ → _))

instance {A : DictApi D} : (site : TextSite D S) → (a : TextAction) → Decidable (LoadsIndexed A site a)
  | ⟨_, some t⟩, .request (.store (.bulkLoad quads)) => inferInstanceAs (Decidable (loadIndexed _ t quads))
  | ⟨_, some _⟩, .request (.store (.call _)) => .isTrue trivial
  | ⟨_, some _⟩, .request (.store (.registerNamedGraph _)) => .isTrue trivial
  | ⟨_, some _⟩, .request (.store (.setAutoCompactThreshold _)) => .isTrue trivial
  | ⟨_, some _⟩, .request .enableFulltext => .isTrue trivial
  | ⟨_, some _⟩, .crash _ _ _ => .isTrue trivial
  | ⟨_, some _⟩, .close => .isTrue trivial
  | ⟨_, some _⟩, .openDir => .isTrue trivial
  | ⟨_, some _⟩, .crashOpening _ _ => .isTrue trivial
  | ⟨_, some _⟩, .newStore => .isTrue trivial
  | ⟨_, none⟩, _ => .isTrue trivial

instance {A : DictApi D} [DecidablePred Ready] :
    (site : TextSite D S) → (a : TextAction) → Decidable (CompactsReady A Ready site a)
  | ⟨_, some t⟩, .request r => inferInstanceAs (Decidable (∀ d ∈ r.compactsAt A t, Ready d))
  | ⟨_, some t⟩, .crash r _ _ => inferInstanceAs (Decidable (∀ d ∈ r.compactsAt A t, Ready d))
  | ⟨_, some _⟩, .close => .isTrue trivial
  | ⟨_, some _⟩, .openDir => .isTrue trivial
  | ⟨_, some _⟩, .crashOpening _ _ => .isTrue trivial
  | ⟨_, some _⟩, .newStore => .isTrue trivial
  | ⟨_, none⟩, _ => .isTrue trivial

theorem CompactsReady.imp {A : DictApi D} {Ready' : D → Prop} (himp : ∀ d, Ready d → Ready' d)
    {site : TextSite D S}
    {a : TextAction} (h : CompactsReady A Ready site a) : CompactsReady A Ready' site a := by
  rcases site with ⟨f, process⟩
  cases process with
  | none => trivial
  | some t =>
    cases a with
    | request r => exact fun d hd => himp d (h d hd)
    | crash r k gone => exact fun d hd => himp d (h d hd)
    | _ => trivial

/-- A compaction before and after the index is there, a bulk load that brings nothing new,
a crash between the commit of the store and that of the index, and a rebuild. -/
def searches : List TextAction :=
  [.openDir, .request (.store (.call (.insert (sampleQuad "a")))), .request (.store (.call .compact)),
    .request .enableFulltext, .request (.store (.call (.insert (sampleQuad "b")))),
    .request (.store (.call (.remove (sampleQuad "a")))), .request (.store (.call .compact)),
    .request (.store (.bulkLoad [sampleQuad "b"])), .request (.store (.call (.insert (sampleQuad "c")))),
    .crash (.store (.call .compact)) 6 (fun _ => false), .openDir, .request .enableFulltext]

/-- At the end of this run. -/
theorem fulltext_current_searches :
    Current (api sourceBlockSize) (Machine.run (step Wal.crc32 (api sourceBlockSize) dictFile
      (Dictionary.new sourceBlockSize)) .empty searches).2 := by
  have hblock : Machine.Meets (step Wal.crc32 (api sourceBlockSize) dictFile (Dictionary.new sourceBlockSize))
      (CompactsReady (api sourceBlockSize) fun d => readyBlock sourceBlockSize d = true) .empty searches := by
    decide +kernel
  have hready := hblock.imp (Q := CompactsReady (api sourceBlockSize) (DictReady sourceBlockSize))
    fun site a ha => ha.imp fun d hd => dictReady_of_block hd
  have hloads : Machine.Meets (step Wal.crc32 (api sourceBlockSize) dictFile (Dictionary.new sourceBlockSize))
      (LoadsIndexed (api sourceBlockSize)) .empty searches := by
    decide +kernel
  exact (fulltext_current_iff (by decide) hready).mpr hloads searches (prefix_refl searches)

/-- What a search sees, and the document that a quad of the rings should have. -/
def searched (site : TextSite Dictionary DictSnapshot) (q : Quad) : Option (List Document × Option Document) := do
  let t ← site.process
  let ft ← t.fulltext
  return (ft.committed, documentFor (api sourceBlockSize) t.store.inner q)

/-- A literal is bulk loaded while full-text search is enabled: the rings have it and the
index does not. -/
theorem bulkLoad_bypasses_index : ¬∀ actions : List TextAction, Current (api sourceBlockSize)
    (Machine.run (step Wal.crc32 (api sourceBlockSize) dictFile (Dictionary.new sourceBlockSize)) .empty actions).2 := by
  intro hclaim
  have hcurrent := hclaim [.openDir, .request .enableFulltext, .request (.store (.bulkLoad [sampleQuad "a"]))]
  generalize hrun : (Machine.run (step Wal.crc32 (api sourceBlockSize) dictFile (Dictionary.new sourceBlockSize)) .empty
    [.openDir, .request .enableFulltext, .request (.store (.bulkLoad [sampleQuad "a"]))]).2 = site at hcurrent
  have hsearched : ((searched site (sampleQuad "a")).map fun r => (r.1, r.2.isSome)) = some ([], true) := by
    rw [← hrun]
    decide +kernel
  rcases site with ⟨files, process⟩
  cases process with
  | none => cases hsearched
  | some t =>
    cases hft : t.fulltext with
    | none =>
      simp [searched, hft] at hsearched
    | some ft =>
      simp only [searched, Option.bind_eq_bind, Option.bind_some, hft, Option.pure_def, Option.map_some,
        Option.some.injEq, Prod.mk.injEq] at hsearched
      rcases Option.isSome_iff_exists.mp hsearched.2 with ⟨doc, hdoc⟩
      have hone := (hcurrent.enabled t ft rfl hft).one _ doc hdoc
      rw [hsearched.1] at hone
      cases hone

end Source

end TextSite

end Nova
