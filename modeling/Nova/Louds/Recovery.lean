import Nova.Louds.Persist

/-!
# What a directory recovers to

`Held dir σ`: opening the directory gives a store that stands for `σ`. It depends
on four things only: the MANIFEST, the two snapshots it names and the segments
from its segment on (`Held.congr`). Each file-system step of a write, of a commit
and of an opening is checked against it:

* an append makes the directory recover to the set after the records
  (`Held.append`);
* a commit leaves it alone up to the rename of the MANIFEST and gives it the new
  snapshot from there on (`Held.commit_cut`, `commit_steps`);
* an opening leaves it alone if no segment it deletes is still needed
  (`Held.openDir_cut`).

`Serving p dir σ` is the invariant of a process: the store in memory stands for
`σ`, and so does what the directory recovers to.
-/

namespace Nova

open Nova.Lib List
open Wal (WalRecord PayloadShort)

/-! ## Records on images and sets -/

namespace Image

/-- One record of the log. -/
def record (im : Image) : WalRecord → Except Fault Unit × Image
  | .insertQuad q => ((im.write (.insert q)).1.map fun _ => (), (im.write (.insert q)).2)
  | .removeQuad q => ((im.write (.remove q)).1.map fun _ => (), (im.write (.remove q)).2)
  | .registerGraph (.namedNode n) =>
    (((im.names.internGraph (.namedNode n)).1.mapError Fault.err).map fun _ => (),
      ⟨(im.names.internGraph (.namedNode n)).2, im.view⟩)
  | .registerGraph _ => (.ok (), im)

def replay : Image → List WalRecord → Except Panic Image
  | im, [] => .ok im
  | im, r :: rs =>
    match im.record r with
    | (.error (.panic p), _) => .error p
    | (_, im) => replay im rs

/-- The record is applied or skipped; it does not panic. -/
def Quiet (im : Image) (r : WalRecord) : Prop := ∀ p, (im.record r).1 ≠ .error (.panic p)

variable {im : Image}

theorem replay_cons {r : WalRecord} (h : im.Quiet r) (rs : List WalRecord) :
    im.replay (r :: rs) = (im.record r).2.replay rs := by
  rw [replay]
  rcases hr : im.record r with ⟨res, im'⟩
  cases res with
  | ok _ => rfl
  | error f =>
    cases f with
    | err e => rfl
    | panic p => exact absurd (by rw [hr]) (h p)

theorem replay_append (rs rs' : List WalRecord) : ∀ {im im' : Image}, im.replay rs = .ok im' →
    im.replay (rs ++ rs') = im'.replay rs' := by
  induction rs with
  | nil =>
    intro im im' h
    cases h
    rfl
  | cons r rs ih =>
    intro im im' h
    rw [cons_append]
    rw [replay] at h ⊢
    rcases hr : im.record r with ⟨res, im₁⟩
    rw [hr] at h
    cases res with
    | ok _ => exact ih h
    | error f =>
      cases f with
      | err e => exact ih h
      | panic p => cases h

theorem replay_of_append (rs : List WalRecord) {rs' : List WalRecord} : ∀ {im im' : Image},
    im.replay (rs ++ rs') = .ok im' → ∃ im₁, im.replay rs = .ok im₁ ∧ im₁.replay rs' = .ok im' := by
  induction rs with
  | nil => exact fun h => ⟨_, rfl, h⟩
  | cons r rs ih =>
    intro im im' h
    rw [cons_append] at h
    rw [replay] at h ⊢
    rcases hr : im.record r with ⟨res, im₁⟩
    rw [hr] at h
    cases res with
    | ok _ => exact ih h
    | error f =>
      cases f with
      | err e => exact ih h
      | panic p => cases h

end Image

namespace Spec

/-- The set after a record; one that fails is skipped. -/
def record (σ : Spec) : WalRecord → Spec
  | .insertQuad q => (σ.write (.insert q)).2
  | .removeQuad q => (σ.write (.remove q)).2
  | .registerGraph (.namedNode n) => ⟨(σ.names.internGraph (.namedNode n)).2, σ.quads⟩
  | .registerGraph _ => σ

def records (σ : Spec) (rs : List WalRecord) : Spec := rs.foldl record σ

end Spec

namespace LoudsStore

variable {D S : Type} {A : DictApi D} {Knows : D → Names → Prop} {CompactOk : Names → Prop}
variable {im : Image} {s : LoudsStore D} {σ : Spec}

theorem Stands.quiet_iff {im' : Image} (h : Stands σ im) (h' : Stands σ im') (r : WalRecord) :
    im.Quiet r ↔ im'.Quiet r := by
  have hnames : im.names = im'.names := h.names.trans h'.names.symm
  unfold Image.Quiet
  -- only a lookup panics, and it reads the names
  cases r with
  | insertQuad q =>
    simp only [Image.record, Image.write, hnames]
    rcases im'.names.internQuad q with ⟨res, n'⟩
    cases res <;> simp [Except.map]
  | removeQuad q =>
    simp only [Image.record, Image.write, hnames]
    cases im'.names.lookupQuad q with
    | error p => simp
    | ok ids => cases ids <;> simp [Except.map]
  | registerGraph g => cases g <;> simp [Image.record, hnames]

theorem Stands.record (h : Stands σ im) {r : WalRecord} (hq : im.Quiet r) :
    Stands (σ.record r) (im.record r).2 := by
  cases r with
  | insertQuad q =>
    refine (h.write (.insert q) ?_).2
    intro p hp
    exact hq p (by rw [Image.record, hp]; rfl)
  | removeQuad q =>
    refine (h.write (.remove q) ?_).2
    intro p hp
    exact hq p (by rw [Image.record, hp]; rfl)
  | registerGraph g =>
    cases g with
    | namedNode n =>
      have hgrown := h.of_le (σ.names.le_internGraph (.namedNode n))
      rw [Spec.record, Image.record, h.names]
      exact hgrown
    | _ => exact h

/-- Records replayed on two images of one set: if one replay goes through, so does
the other, and both stand for the set after the records. -/
theorem Stands.replay (rs : List WalRecord) : ∀ {σ : Spec} {im im' im₁ : Image}, Stands σ im →
    Stands σ im' → im.replay rs = .ok im₁ →
    Stands (σ.records rs) im₁ ∧ ∃ im₂, im'.replay rs = .ok im₂ ∧ Stands (σ.records rs) im₂ := by
  induction rs with
  | nil =>
    intro σ im im' im₁ h h' hr
    cases hr
    exact ⟨h, im', rfl, h'⟩
  | cons r rs ih =>
    intro σ im im' im₁ h h' hr
    have hquiet : im.Quiet r := by
      intro p hp
      rw [Image.replay] at hr
      rcases hrec : im.record r with ⟨res, im₂⟩
      rw [hrec] at hr hp
      cases hp
      cases hr
    have hquiet' := (h.quiet_iff h' r).mp hquiet
    rw [Image.replay_cons hquiet] at hr
    rw [Image.replay_cons hquiet']
    exact ih (h.record hquiet) (h'.record hquiet') hr

theorem Shows.with_auto (h : Shows Knows im s) (t : Option Nat) :
    Shows Knows im { s with autoCompactThreshold := t } :=
  ⟨⟨h.inv.knows, h.inv.rows, h.inv.keys⟩, h.view⟩

section

variable (I : Implements A Knows CompactOk)
include I

theorem applyRecord_spec (h : Shows Knows im s) (r : WalRecord) :
    ∃ s', applyRecord A s r = ((im.record r).1, s') ∧ Shows Knows (im.record r).2 s' := by
  cases r with
  | insertQuad q =>
    rcases applyOne_spec I h (.insert q) with ⟨s', hr, hs', -⟩
    rw [applyOne] at hr
    refine ⟨s', ?_, hs'⟩
    rw [applyRecord, hr, Image.record]
    cases (im.write (.insert q)).1 <;> rfl
  | removeQuad q =>
    rcases applyOne_spec I h (.remove q) with ⟨s', hr, hs', -⟩
    rw [applyOne] at hr
    refine ⟨s', ?_, hs'⟩
    rw [applyRecord, hr, Image.record]
    cases (im.write (.remove q)).1 <;> rfl
  | registerGraph g =>
    cases g with
    | namedNode n =>
      rcases internGraph_spec I h.inv.knows (.namedNode n) with ⟨d', hr, hd⟩
      have hinv := h.inv.with_dict (im.names.le_internGraph (.namedNode n)) hd
      rw [applyRecord, applyRegisterGraph, hr, Image.record]
      cases (im.names.internGraph (.namedNode n)).1 with
      | error e => exact ⟨_, rfl, hinv, h.view⟩
      | ok g => exact ⟨_, rfl, hinv.with_named _, h.view⟩
    | _ => exact ⟨s, rfl, h⟩

/-- The store replays what the image does, and panics where the image does. -/
theorem replayRecords_spec (rs : List WalRecord) : ∀ {im : Image} {s : LoudsStore D}, Shows Knows im s →
    (∀ im', im.replay rs = .ok im' → ∃ s', replayRecords A s rs = .ok s' ∧ Shows Knows im' s') ∧
      ∀ p, im.replay rs = .error p → replayRecords A s rs = .error p := by
  induction rs with
  | nil =>
    intro im s h
    refine ⟨fun im' hr => ?_, fun p hr => ?_⟩
    · cases hr
      exact ⟨s, rfl, h⟩
    · cases hr
  | cons r rs ih =>
    intro im s h
    rcases applyRecord_spec I h r with ⟨s₁, hrec, h₁⟩
    rw [Image.replay, replayRecords, hrec]
    rcases him : im.record r with ⟨res, im₁⟩
    rw [him] at h₁
    cases res with
    | ok _ => exact ih h₁
    | error f =>
      cases f with
      | err e => exact ih h₁
      | panic p =>
        refine ⟨fun im' hr => ?_, fun p' hr => ?_⟩
        · cases hr
        · cases hr
          rfl

end

end LoudsStore

namespace Persistent

open LoudsStore

variable {D S : Type} {crc32 : Bytes → UInt32} {A : DictApi D} {F : DictFile D S} {fresh : D}
variable {Knows : D → Names → Prop} {CompactOk : Names → Prop}
variable {dir dir' : Dir Rings S} {p : Persistent D} {σ : Spec} {im : Image} {s : LoudsStore D}

/-! ## What opening reads -/

/-- A segment written from records. -/
def framed (crc32 : Bytes → UInt32) (e : Nat × List WalRecord) : Nat × Bytes :=
  (e.1, (Wal.format crc32).log e.2)

/-- Opening finds the snapshot `s₀`, replays `logs` on it and ends with the image
`im` of the set. -/
structure HeldBy (crc32 : Bytes → UInt32) (F : DictFile D S) (fresh : D) (Knows : D → Names → Prop)
    (dir : Dir Rings S) (σ : Spec) (s₀ : LoudsStore D) (im₀ : Image)
    (logs : List (Nat × List WalRecord)) (im : Image) : Prop where
  base : loadSnapshot F fresh dir = .ok s₀
  image : Shows Knows im₀ s₀
  log : dir.segments.since dir.loadManifest.walSeq = logs.map (framed crc32)
  short : ∀ e ∈ logs, ∀ r ∈ e.2, PayloadShort r
  replay : im₀.replay (logs.flatMap Prod.snd) = .ok im
  stands : Stands σ im

/-- The directory recovers to the set. -/
def Held (crc32 : Bytes → UInt32) (F : DictFile D S) (fresh : D) (Knows : D → Names → Prop)
    (dir : Dir Rings S) (σ : Spec) : Prop :=
  ∃ s₀ im₀ logs im, HeldBy crc32 F fresh Knows dir σ s₀ im₀ logs im

theorem loadSnapshot_congr (hm : dir'.loadManifest = dir.loadManifest)
    (hsnap : dir'.snapshots.get dir.loadManifest.snapshotGen =
      dir.snapshots.get dir.loadManifest.snapshotGen)
    (hdict : dir'.dicts.get dir.loadManifest.snapshotGen =
      dir.dicts.get dir.loadManifest.snapshotGen) :
    loadSnapshot F fresh dir' = loadSnapshot F fresh dir := by
  simp only [loadSnapshot, hm, hsnap, hdict]

/-- The same snapshot under a log with the same records. -/
theorem HeldBy.relog {s₀ : LoudsStore D} {im₀ : Image} {logs : List (Nat × List WalRecord)}
    (h : HeldBy crc32 F fresh Knows dir σ s₀ im₀ logs im) (logs' : List (Nat × List WalRecord))
    (hbase : loadSnapshot F fresh dir' = loadSnapshot F fresh dir)
    (hlog : dir'.segments.since dir'.loadManifest.walSeq = logs'.map (framed crc32))
    (hshort : ∀ e ∈ logs', ∀ r ∈ e.2, PayloadShort r)
    (hsame : logs'.flatMap Prod.snd = logs.flatMap Prod.snd) : Held crc32 F fresh Knows dir' σ :=
  ⟨s₀, im₀, logs', im, hbase.trans h.base, h.image, hlog, hshort, by rw [hsame]; exact h.replay,
    h.stands⟩

theorem Held.congr (h : Held crc32 F fresh Knows dir σ) (hm : dir'.loadManifest = dir.loadManifest)
    (hsnap : dir'.snapshots.get dir.loadManifest.snapshotGen =
      dir.snapshots.get dir.loadManifest.snapshotGen)
    (hdict : dir'.dicts.get dir.loadManifest.snapshotGen =
      dir.dicts.get dir.loadManifest.snapshotGen)
    (hseg : dir'.segments.since dir.loadManifest.walSeq =
      dir.segments.since dir.loadManifest.walSeq) : Held crc32 F fresh Knows dir' σ := by
  rcases h with ⟨s₀, im₀, logs, im, h⟩
  exact h.relog logs (loadSnapshot_congr hm hsnap hdict) (by rw [hm, hseg]; exact h.log) h.short rfl

theorem framed_eq_nil {e : Nat × List WalRecord} (h : (framed crc32 e).2 = []) : e.2 = [] := by
  rcases e with ⟨seq, rs⟩
  cases rs with
  | nil => rfl
  | cons r rs =>
    have hlen := congrArg List.length h
    simp only [framed, Log.Format.log_cons, length_append, length_nil] at hlen
    have hframe := Wal.length_frameRecord crc32 r
    have : ((Wal.format crc32).frame r).length = (Wal.frameRecord crc32 r).length := rfl
    omega

variable {gone : FileName → Bool}

/-- Deleting files leaves the directory's set alone if the MANIFEST's snapshots
stay and the deleted segments it needs are empty. -/
theorem Held.delete (h : Held crc32 F fresh Knows dir σ)
    (hsnap : gone (.snapshot dir.loadManifest.snapshotGen) = false)
    (hdict : gone (.dict dir.loadManifest.snapshotGen) = false)
    (hseg : ∀ e ∈ dir.segments.since dir.loadManifest.walSeq, gone (.wal e.1) = true → e.2 = []) :
    Held crc32 F fresh Knows (dir.delete gone) σ := by
  rcases h with ⟨s₀, im₀, logs, im, h⟩
  have hbase : loadSnapshot F fresh (dir.delete gone) = loadSnapshot F fresh dir :=
    loadSnapshot_congr rfl (Files.get_keep_of (by simp [hsnap])) (Files.get_keep_of (by simp [hdict]))
  refine h.relog (logs.filter fun e => !gone (.wal e.1)) hbase ?_ ?_ ?_
  · show (dir.segments.keep _).since dir.loadManifest.walSeq = _
    rw [Files.since_keep, h.log, filter_map]
    rfl
  · intro e he
    exact h.short e (mem_of_mem_filter he)
  · -- the records of the deleted segments: none
    have hempty : ∀ e ∈ logs, gone (.wal e.1) = true → e.2 = [] := by
      intro e he hgone
      have hmem : framed crc32 e ∈ dir.segments.since dir.loadManifest.walSeq := by
        rw [h.log]
        exact mem_map_of_mem he
      exact framed_eq_nil (hseg _ hmem hgone)
    clear h hbase hseg
    induction logs with
    | nil => rfl
    | cons e logs ih =>
      have hrest := ih fun x hx => hempty x (mem_cons_of_mem _ hx)
      rw [filter_cons, flatMap_cons]
      split
      · rw [flatMap_cons, hrest]
      · next hgone =>
        rw [hrest, hempty e mem_cons_self (by simpa using hgone)]
        rfl

/-! ## Opening -/

theorem replaySegments_spec (crc32 : Bytes → UInt32) (I : Implements A Knows CompactOk)
    (logs : List (Nat × List WalRecord)) :
    ∀ {im im' : Image} {s : LoudsStore D}, Shows Knows im s →
      (∀ e ∈ logs, ∀ r ∈ e.2, PayloadShort r) → im.replay (logs.flatMap Prod.snd) = .ok im' →
      ∃ s', replaySegments (S := S) crc32 A s (logs.map (framed crc32)) = (.ok s', []) ∧
        Shows Knows im' s' := by
  induction logs with
  | nil =>
    intro im im' s h _ hr
    cases hr
    exact ⟨s, rfl, h⟩
  | cons e logs ih =>
    intro im im' s h hshort hr
    rcases e with ⟨seq, rs⟩
    rcases Image.replay_of_append rs hr with ⟨im₁, hfirst, hr⟩
    rcases (replayRecords_spec I rs h).1 _ hfirst with ⟨s₁, hrs, h₁⟩
    rcases ih h₁ (fun e he => hshort e (mem_cons_of_mem _ he)) hr with ⟨s', hrest, h'⟩
    refine ⟨s', ?_, h'⟩
    rw [map_cons, framed, replaySegments,
      Wal.replay_log crc32 (hshort (seq, rs) mem_cons_self)]
    simp only [hrs, hrest, Nat.lt_irrefl, if_false, append_nil]

/-- The steps of an opening that finds nothing torn. -/
def openOps (dir : Dir Rings S) : List (FsOp Rings S) :=
  [.createOrOpen (activeSeq dir), .cleanupOrphans dir.loadManifest.snapshotGen (activeSeq dir)]

theorem openDir_eq {s₀ s' : LoudsStore D} (hbase : loadSnapshot F fresh dir = .ok s₀)
    (hrep : replaySegments (S := S) crc32 A s₀ (dir.segments.since dir.loadManifest.walSeq) = (.ok s', [])) :
    openDir crc32 A F fresh dir =
      (.ok ⟨{ s' with autoCompactThreshold := some defaultAutoCompactThreshold },
        dir.loadManifest.snapshotGen, activeSeq dir⟩, openOps dir) := by
  rw [openDir]
  simp only [hbase, hrep, nil_append, openOps]

theorem Held.openDir (I : Implements A Knows CompactOk) (h : Held crc32 F fresh Knows dir σ) :
    ∃ s', openDir crc32 A F fresh dir =
        (.ok ⟨s', dir.loadManifest.snapshotGen, activeSeq dir⟩, openOps dir) ∧
      ∃ im, Shows Knows im s' ∧ Stands σ im := by
  rcases h with ⟨s₀, im₀, logs, im, h⟩
  rcases replaySegments_spec (S := S) crc32 I logs h.image h.short h.replay
    with ⟨s', hrep, hs'⟩
  rw [← h.log] at hrep
  exact ⟨_, openDir_eq h.base hrep, im, hs'.with_auto _, h.stands⟩

/-- No segment that an opening deletes holds a record the MANIFEST still asks for. -/
def openKeepsLog (dir : Dir Rings S) : Bool :=
  (dir.segments.since dir.loadManifest.walSeq).all fun e =>
    decide (activeSeq dir ≤ e.1) || e.2.isEmpty

theorem since_le_activeSeq {e : Nat × Bytes} (he : e ∈ dir.segments.since dir.loadManifest.walSeq) :
    e.1 ≤ activeSeq dir := by
  have hs : (dir.segments.since dir.loadManifest.walSeq).Pairwise fun a b => a.1 < b.1 :=
    dir.segments.sorted.filter _
  unfold activeSeq
  generalize dir.segments.since dir.loadManifest.walSeq = l at he hs
  rcases eq_nil_or_concat' l with rfl | ⟨init, last, rfl⟩
  · cases he
  · rw [getLast?_concat]
    rcases mem_append.mp he with he | he
    · exact Nat.le_of_lt ((pairwise_append.mp hs).2.2 e he last mem_cons_self)
    · rw [mem_singleton.mp he]

theorem walSeq_le_activeSeq (dir : Dir Rings S) : dir.loadManifest.walSeq ≤ activeSeq dir := by
  have hge : ∀ e ∈ dir.segments.since dir.loadManifest.walSeq, dir.loadManifest.walSeq ≤ e.1 :=
    fun e he => (Files.mem_since.mp he).2
  unfold activeSeq
  generalize dir.segments.since dir.loadManifest.walSeq = l at hge
  cases hl : l.getLast? with
  | none => exact Nat.le_refl _
  | some e => exact hge e (mem_of_getLast? hl)

theorem entries_le_activeSeq {e : Nat × Bytes} (he : e ∈ dir.segments.entries) :
    e.1 ≤ activeSeq dir := by
  by_cases hge : dir.loadManifest.walSeq ≤ e.1
  · exact since_le_activeSeq (Files.mem_since.mpr ⟨he, hge⟩)
  · have hle := walSeq_le_activeSeq dir
    omega

/-- After the active segment was opened for writing. -/
def afterCreate (dir : Dir Rings S) : Dir Rings S := dir.step (.createOrOpen (activeSeq dir))

/-- The active segment is there, or there was nothing to replay and it is new. -/
theorem since_afterCreate (dir : Dir Rings S) :
    (afterCreate dir).segments.since dir.loadManifest.walSeq =
        dir.segments.since dir.loadManifest.walSeq ∨
      dir.segments.since dir.loadManifest.walSeq = [] ∧
        (afterCreate dir).segments.since dir.loadManifest.walSeq = [(activeSeq dir, [])] := by
  cases hfile : dir.segments.get (activeSeq dir) with
  | some file =>
    refine .inl ?_
    show (dir.segments.put _ _).since _ = _
    rw [hfile, Option.getD_some, Files.put_get hfile]
  | none =>
    have hnil : dir.segments.since dir.loadManifest.walSeq = [] := by
      rcases eq_nil_or_concat' (dir.segments.since dir.loadManifest.walSeq)
        with hnil | ⟨init, last, hl⟩
      · exact hnil
      · have hlast : activeSeq dir = last.1 := by
          unfold activeSeq
          rw [hl, getLast?_concat]
        have hmem : last ∈ dir.segments.since dir.loadManifest.walSeq := by
          rw [hl]
          exact mem_append_right _ mem_cons_self
        rw [hlast, Files.get_of_mem (Files.mem_since.mp hmem).1] at hfile
        cases hfile
    refine .inr ⟨hnil, ?_⟩
    show (dir.segments.put _ _).since _ = _
    rw [hfile, Option.getD_none, Files.since_put_new _ (walSeq_le_activeSeq dir), hnil]
    · rfl
    · intro e he
      refine Nat.lt_of_le_of_ne (entries_le_activeSeq he) ?_
      intro heq
      rw [← heq, Files.get_of_mem he] at hfile
      cases hfile

section

variable (h : Held crc32 F fresh Knows dir σ)
include h

theorem Held.afterCreate : Held crc32 F fresh Knows (afterCreate dir) σ := by
  rcases since_afterCreate dir with hsame | ⟨hnil, hnew⟩
  · exact h.congr rfl rfl rfl hsame
  · rcases h with ⟨s₀, im₀, logs, im, h⟩
    have hlogs : logs = [] := by
      have hlog := h.log
      rw [hnil] at hlog
      exact map_eq_nil_iff.mp hlog.symm
    refine h.relog [(activeSeq dir, [])] rfl hnew ?_ ?_
    · intro e he r hr
      rw [mem_singleton.mp he] at hr
      cases hr
    · rw [hlogs]
      rfl

theorem Held.openDelete (hkeeps : openKeepsLog dir = true)
    (hgone : ∀ f, gone f = true → Dir.isOrphan dir.loadManifest.snapshotGen (activeSeq dir) f = true) :
    Held crc32 F fresh Knows ((Persistent.afterCreate dir).delete gone) σ := by
  apply h.afterCreate.delete
  · show gone (.snapshot dir.loadManifest.snapshotGen) = false
    by_contra hne
    have hold := hgone (.snapshot dir.loadManifest.snapshotGen) (by simpa using hne)
    simp [Dir.isOrphan] at hold
  · show gone (.dict dir.loadManifest.snapshotGen) = false
    by_contra hne
    have hold := hgone (.dict dir.loadManifest.snapshotGen) (by simpa using hne)
    simp [Dir.isOrphan] at hold
  · intro e he hdel
    have hold : e.1 < activeSeq dir := by simpa [Dir.isOrphan] using hgone _ hdel
    rcases since_afterCreate dir with hsame | ⟨-, hnew⟩
    · have hmem : e ∈ dir.segments.since dir.loadManifest.walSeq := hsame ▸ he
      have hall := all_eq_true.mp hkeeps e hmem
      rw [Bool.or_eq_true, decide_eq_true_iff] at hall
      rcases hall with hge | hempty
      · omega
      · exact List.isEmpty_iff.mp hempty
    · have hmem : e ∈ [(activeSeq dir, ([] : Bytes))] := hnew ▸ he
      rw [mem_singleton.mp hmem]

/-- A crash in an opening, if its cleanup has not begun or deletes nothing that is
needed. -/
theorem Held.openDir_cut (k : Nat) (gone : FileName → Bool) (hkeeps : 0 < k → openKeepsLog dir = true) :
    Held crc32 F fresh Knows (dir.cut (openOps dir) k gone) σ := by
  match k with
  | 0 => exact h
  | 1 =>
    have hcut : dir.cut (openOps dir) 1 gone = (Persistent.afterCreate dir).delete fun f =>
        Dir.isOrphan dir.loadManifest.snapshotGen (activeSeq dir) f && gone f := by
      simp [Dir.cut, openOps, Dir.stepPartly, Persistent.afterCreate]
    rw [hcut]
    refine h.openDelete (hkeeps (by omega)) ?_
    intro f hf
    exact (Bool.and_eq_true_iff.mp hf).1
  | k + 2 =>
    have hcut : dir.cut (openOps dir) (k + 2) gone = dir.steps (openOps dir) := by
      simp [Dir.cut, openOps, Dir.stepPartly]
    rw [hcut]
    exact h.openDelete (hkeeps (by omega)) fun f hf => hf

end

/-! ## A process and its directory -/

/-- A process that has the directory open: its store stands for the set, the
directory recovers to the set, and there is one segment, the active one. -/
structure Serving (crc32 : Bytes → UInt32) (F : DictFile D S) (fresh : D)
    (Knows : D → Names → Prop) (p : Persistent D) (dir : Dir Rings S) (σ : Spec) : Prop where
  memory : ∃ im, Shows Knows im p.inner ∧ Stands σ im
  held : Held crc32 F fresh Knows dir σ
  gen : p.snapshotGen = dir.loadManifest.snapshotGen
  seq : dir.loadManifest.walSeq ≤ p.walSeq
  segment : ∃ file, dir.segments.entries = [(p.walSeq, file)]

theorem Held.serving (I : Implements A Knows CompactOk) (h : Held crc32 F fresh Knows dir σ)
    (hkeeps : openKeepsLog dir = true) :
    ∃ p, Persistent.openDir crc32 A F fresh dir = (.ok p, openOps dir) ∧
      Serving crc32 F fresh Knows p (dir.steps (openOps dir)) σ := by
  rcases h.openDir I with ⟨s', hr, hs'⟩
  refine ⟨_, hr, hs', h.openDelete hkeeps fun f hf => hf, rfl, walSeq_le_activeSeq dir, ?_⟩
  refine ⟨(dir.segments.get (activeSeq dir)).getD [], ?_⟩
  have hsince := Files.since_put_top (a := (dir.segments.get (activeSeq dir)).getD [])
    fun e (he : e ∈ dir.segments.entries) => entries_le_activeSeq he
  rw [← hsince]
  refine filter_congr ?_
  intro e _
  show (!decide (e.1 < activeSeq dir)) = decide (activeSeq dir ≤ e.1)
  rw [← decide_not]
  exact decide_eq_decide.mpr Nat.not_lt

theorem Serving.since_eq (h : Serving crc32 F fresh Knows p dir σ) {file : Bytes}
    (hfile : dir.segments.entries = [(p.walSeq, file)]) :
    dir.segments.since dir.loadManifest.walSeq = [(p.walSeq, file)] := by
  have hseq := h.seq
  simp [Files.since, hfile, hseq]

theorem Serving.keepsLog (h : Serving crc32 F fresh Knows p dir σ) : openKeepsLog dir = true := by
  rcases h.segment with ⟨file, hfile⟩
  have hsince := h.since_eq hfile
  have hactive : activeSeq dir = p.walSeq := by
    unfold activeSeq
    rw [hsince]
    rfl
  rw [openKeepsLog, hsince, hactive]
  simp

variable {rs : List WalRecord}

section

variable (h : Serving crc32 F fresh Knows p dir σ) (hshort : ∀ r ∈ rs, PayloadShort r)
include h hshort

/-- What an opening finds after records were appended: the snapshot and the records
of before, then the new ones. -/
theorem Serving.appended :
    (∃ file, (dir.step (.append p.walSeq ((Wal.format crc32).log rs))).segments.entries =
      [(p.walSeq, file)]) ∧
    ∃ s₀ im₀ im rs₀, loadSnapshot F fresh
        (dir.step (.append p.walSeq ((Wal.format crc32).log rs))) = .ok s₀ ∧
      Shows Knows im₀ s₀ ∧
      (dir.step (.append p.walSeq ((Wal.format crc32).log rs))).segments.since
        dir.loadManifest.walSeq = [(p.walSeq, rs₀ ++ rs)].map (framed crc32) ∧
      (∀ r ∈ rs₀ ++ rs, PayloadShort r) ∧ im₀.replay rs₀ = .ok im ∧ Stands σ im := by
  rcases h.segment with ⟨file, hfile⟩
  have hget : dir.segments.get p.walSeq = some file := by simp [Files.get, Files.find, hfile]
  have hentries : (dir.step (.append p.walSeq ((Wal.format crc32).log rs))).segments.entries =
      [(p.walSeq, file ++ (Wal.format crc32).log rs)] := by
    show Files.putIn _ _ dir.segments.entries = _
    rw [hfile, hget]
    simp [Files.putIn]
  rcases h.held with ⟨s₀, im₀, logs, im, hd⟩
  -- the one segment and its records
  have hlog := hd.log
  rw [h.since_eq hfile] at hlog
  rcases map_eq_singleton_iff.mp hlog.symm with ⟨⟨seq, rs₀⟩, rfl, heq⟩
  rcases heq with ⟨rfl, rfl⟩
  have hreplay := hd.replay
  simp only [flatMap_cons, flatMap_nil, append_nil] at hreplay
  refine ⟨⟨_, hentries⟩, s₀, im₀, im, rs₀, hd.base, hd.image, ?_, ?_, hreplay, hd.stands⟩
  · have hseq := h.seq
    rw [Files.since, hentries]
    simp [framed, hseq]
  · intro r hr
    rcases mem_append.mp hr with hr | hr
    · exact hd.short (p.walSeq, rs₀) mem_cons_self r hr
    · exact hshort r hr

/-- Records that are appended are replayed after what was there. -/
theorem Serving.append_held
    {im' : Image} (him : Stands σ im) (hrep : im.replay rs = .ok im') :
    Held crc32 F fresh Knows (dir.step (.append p.walSeq ((Wal.format crc32).log rs))) (σ.records rs) := by
  rcases (h.appended hshort).2 with ⟨s₀, im₀, imd, rs₀, hbase, himage, hlog, hall, hreplay, hst⟩
  rcases (him.replay rs hst hrep).2 with ⟨imd', hrepd, hstd⟩
  refine ⟨s₀, im₀, [(p.walSeq, rs₀ ++ rs)], imd', hbase, himage, hlog, ?_, ?_, hstd⟩
  · intro e he
    rw [mem_singleton.mp he]
    exact hall
  · simp only [flatMap_cons, flatMap_nil, append_nil]
    rw [Image.replay_append rs₀ rs hreplay]
    exact hrepd

theorem Serving.append
    {im' : Image} (him : Stands σ im)
    (hrep : im.replay rs = .ok im') {s' : LoudsStore D} (hs' : Shows Knows im' s') :
    Serving crc32 F fresh Knows { p with inner := s' }
      (dir.step (.append p.walSeq ((Wal.format crc32).log rs))) (σ.records rs) :=
  ⟨⟨im', hs', (him.replay rs him hrep).1⟩, h.append_held hshort him hrep, h.gen, h.seq,
    (h.appended hshort).1⟩

end

/-- Appended records whose replay panics make every opening panic. -/
theorem Serving.append_panics (I : Implements A Knows CompactOk) (h : Serving crc32 F fresh Knows p dir σ)
    (hshort : ∀ r ∈ rs, PayloadShort r) {pn : Panic} (him : Stands σ im) (hrep : im.replay rs = .error pn) :
    ∃ pn' ops, openDir crc32 A F fresh (dir.step (.append p.walSeq ((Wal.format crc32).log rs))) =
      (.error (.panic pn'), ops) := by
  rcases (h.appended hshort).2 with ⟨s₀, im₀, imd, rs₀, hbase, himage, hlog, hall, hreplay, hst⟩
  have hpanics : ∃ pn', im₀.replay (rs₀ ++ rs) = .error pn' := by
    rw [Image.replay_append rs₀ rs hreplay]
    cases hd : imd.replay rs with
    | error pn' => exact ⟨pn', rfl⟩
    | ok imd' =>
      rcases (hst.replay rs him hd).2 with ⟨im', hr, -⟩
      rw [hr] at hrep
      cases hrep
  rcases hpanics with ⟨pn', hpanics⟩
  refine ⟨pn', [], ?_⟩
  have hlog : (dir.step (.append p.walSeq ((Wal.format crc32).log rs))).segments.since
      (dir.step (.append p.walSeq ((Wal.format crc32).log rs))).loadManifest.walSeq =
        [(p.walSeq, rs₀ ++ rs)].map (framed crc32) := hlog
  rw [openDir]
  simp only [hbase, hlog, map_singleton, framed, replaySegments, Wal.replay_log crc32 hall,
    (replayRecords_spec I _ himage).2 _ hpanics]

/-! ## Commits -/

/-- The file-system steps of a commit. -/
def commitOps (p : Persistent D) (newGraphs : Rings) (file : S) : List (FsOp Rings S) :=
  [.writeSnapshot (p.snapshotGen + 1) newGraphs, .writeDict (p.snapshotGen + 1) file,
    .createOrOpen (p.walSeq + 1), .writeManifestTmp ⟨p.snapshotGen + 1, p.walSeq + 1⟩,
    .renameManifest, .cleanupOrphans (p.snapshotGen + 1) (p.walSeq + 1)]

/-- The directory when the MANIFEST has just been renamed. -/
def committed (p : Persistent D) (newGraphs : Rings) (file : S) (dir : Dir Rings S) : Dir Rings S where
  manifest := some ⟨p.snapshotGen + 1, p.walSeq + 1⟩
  manifestTmp := none
  snapshots := dir.snapshots.put (p.snapshotGen + 1) newGraphs
  dicts := dir.dicts.put (p.snapshotGen + 1) file
  segments := dir.segments.put (p.walSeq + 1) []

section Commit

variable {newGraphs : Rings} {file : S} {d₂ : D} {σ₂ : Spec} {im₂ : Image}

theorem Serving.get_next (h : Serving crc32 F fresh Knows p dir σ) :
    dir.segments.get (p.walSeq + 1) = none := by
  rcases h.segment with ⟨file, hfile⟩
  simp [Files.get, Files.find, hfile]

theorem Serving.steps_committed (h : Serving crc32 F fresh Knows p dir σ) :
    dir.steps ((commitOps p newGraphs file).take 5) = committed p newGraphs file dir := by
  have hnone := h.get_next
  simp only [commitOps, take_succ_cons, take_zero, Dir.steps_cons, Dir.steps_nil, Dir.step,
    committed, hnone, Option.getD_none]

theorem loadSnapshot_committed (p : Persistent D) (dir : Dir Rings S) (hload : F.load file = .ok d₂) :
    loadSnapshot F fresh (committed p newGraphs file dir) =
      .ok { LoudsStore.new d₂ with graphs := newGraphs } := by
  simp only [loadSnapshot, committed, Dir.loadManifest, Option.getD_some, Files.get_put, if_true,
    hload, Nat.succ_pos, gt_iff_lt]
  rfl

theorem Serving.entries_committed (h : Serving crc32 F fresh Knows p dir σ) (newGraphs : Rings)
    (file : S) :
    ∃ old, (committed p newGraphs file dir).segments.entries = [(p.walSeq, old), (p.walSeq + 1, [])] := by
  rcases h.segment with ⟨old, hold⟩
  refine ⟨old, ?_⟩
  show Files.putIn _ _ dir.segments.entries = _
  rw [hold]
  simp [Files.putIn]

theorem Serving.held_committed (h : Serving crc32 F fresh Knows p dir σ) (hload : F.load file = .ok d₂)
    (him : Shows Knows im₂ { LoudsStore.new d₂ with graphs := newGraphs }) (hst : Stands σ₂ im₂) :
    Held crc32 F fresh Knows (committed p newGraphs file dir) σ₂ := by
  refine ⟨_, im₂, [(p.walSeq + 1, [])], im₂, loadSnapshot_committed p dir hload, him, ?_, ?_, rfl, hst⟩
  · rcases h.entries_committed newGraphs file with ⟨old, hentries⟩
    show List.filter _ (committed p newGraphs file dir).segments.entries = _
    rw [hentries]
    simp [committed, Dir.loadManifest, framed]
  · intro e he r hr
    rw [mem_singleton.mp he] at hr
    cases hr

theorem Held.delete_orphans (h : Held crc32 F fresh Knows dir σ) (hgone : ∀ f, gone f = true →
      Dir.isOrphan dir.loadManifest.snapshotGen dir.loadManifest.walSeq f = true) :
    Held crc32 F fresh Knows (dir.delete gone) σ := by
  apply h.delete
  · by_contra hne
    have hold := hgone _ (Bool.not_eq_false _ ▸ hne)
    simp [Dir.isOrphan] at hold
  · by_contra hne
    have hold := hgone _ (Bool.not_eq_false _ ▸ hne)
    simp [Dir.isOrphan] at hold
  · intro e he hdel
    have hold : e.1 < dir.loadManifest.walSeq := by simpa [Dir.isOrphan] using hgone _ hdel
    have hge := (Files.mem_since.mp he).2
    omega

/-- Up to the rename of the MANIFEST a commit changes nothing that opening reads,
but for an empty segment at the end. -/
theorem Serving.held_before (h : Serving crc32 F fresh Knows p dir σ) {k : Nat} (hk : k < 5) :
    Held crc32 F fresh Knows (dir.steps ((commitOps p newGraphs file).take k)) σ := by
  have hgen : dir.loadManifest.snapshotGen ≠ p.snapshotGen + 1 := by
    have := h.gen
    omega
  have hnone := h.get_next
  have hsnap : (dir.snapshots.put (p.snapshotGen + 1) newGraphs).get dir.loadManifest.snapshotGen =
      dir.snapshots.get dir.loadManifest.snapshotGen := by rw [Files.get_put, if_neg hgen]
  have hdict : (dir.dicts.put (p.snapshotGen + 1) file).get dir.loadManifest.snapshotGen =
      dir.dicts.get dir.loadManifest.snapshotGen := by rw [Files.get_put, if_neg hgen]
  have hcreated : Held crc32 F fresh Knows { dir with
      snapshots := dir.snapshots.put (p.snapshotGen + 1) newGraphs
      dicts := dir.dicts.put (p.snapshotGen + 1) file
      segments := dir.segments.put (p.walSeq + 1) ((dir.segments.get (p.walSeq + 1)).getD []) } σ := by
    rcases h.held with ⟨s₀, im₀, logs, im, hd⟩
    refine hd.relog (logs ++ [(p.walSeq + 1, [])]) (loadSnapshot_congr rfl hsnap hdict)
      ?_ ?_ ?_
    · show (dir.segments.put _ _).since dir.loadManifest.walSeq = _
      have hseq := h.seq
      rw [hnone, Option.getD_none, Files.since_put_new _ (by omega), hd.log, map_append]
      · rfl
      · rcases h.segment with ⟨old, hold⟩
        intro e he
        rw [hold] at he
        rw [mem_singleton.mp he]
        exact Nat.lt_succ_self _
    · intro e he r hr
      rcases mem_append.mp he with he | he
      · exact hd.short e he r hr
      · rw [mem_singleton.mp he] at hr
        cases hr
    · simp
  match k, hk with
  | 0, _ => exact h.held
  | 1, _ => exact h.held.congr rfl hsnap rfl rfl
  | 2, _ => exact h.held.congr rfl hsnap hdict rfl
  | 3, _ => exact hcreated
  | 4, _ => exact hcreated.congr rfl rfl rfl rfl

section

variable (h : Serving crc32 F fresh Knows p dir σ) (hload : F.load file = .ok d₂)
    (him : Shows Knows im₂ { LoudsStore.new d₂ with graphs := newGraphs }) (hst : Stands σ₂ im₂)
include h hload him hst

theorem Serving.commit_cut
    (k : Nat) (gone : FileName → Bool) :
    Held crc32 F fresh Knows (dir.cut (commitOps p newGraphs file) k gone) (if k < 5 then σ else σ₂) := by
  have hnew := h.held_committed hload him hst
  by_cases hk : k < 5
  · have hcut : dir.cut (commitOps p newGraphs file) k gone =
        dir.steps ((commitOps p newGraphs file).take k) := by
      match k, hk with
      | 0, _ => rfl
      | 1, _ => rfl
      | 2, _ => rfl
      | 3, _ => rfl
      | 4, _ => rfl
    rw [hcut, if_pos hk]
    exact h.held_before hk
  · rw [if_neg hk]
    by_cases h5 : k = 5
    · -- the cleanup has deleted some of the orphans
      have hcut : dir.cut (commitOps p newGraphs file) k gone =
          (committed p newGraphs file dir).delete fun f =>
            Dir.isOrphan (p.snapshotGen + 1) (p.walSeq + 1) f && gone f := by
        rw [h5, ← h.steps_committed]
        rfl
      rw [hcut]
      apply hnew.delete_orphans
      intro f hf
      exact (Bool.and_eq_true_iff.mp hf).1
    · have hcut : dir.cut (commitOps p newGraphs file) k gone =
          (committed p newGraphs file dir).delete
            (Dir.isOrphan (p.snapshotGen + 1) (p.walSeq + 1)) := by
        have hlen : (commitOps p newGraphs file).length = 6 := rfl
        rw [Dir.cut, take_of_length_le (by omega), getElem?_eq_none (by omega),
          ← h.steps_committed]
        rfl
      rw [hcut]
      exact hnew.delete_orphans fun f hf => hf

/-- The directory after a commit. -/
theorem Serving.commit_steps : Held crc32 F fresh Knows (dir.steps (commitOps p newGraphs file)) σ₂ ∧
      loadSnapshot F fresh (dir.steps (commitOps p newGraphs file)) =
        .ok { LoudsStore.new d₂ with graphs := newGraphs } ∧
      (dir.steps (commitOps p newGraphs file)).loadManifest = ⟨p.snapshotGen + 1, p.walSeq + 1⟩ ∧
      (dir.steps (commitOps p newGraphs file)).segments.entries = [(p.walSeq + 1, [])] := by
  have hsteps : dir.steps (commitOps p newGraphs file) =
      (committed p newGraphs file dir).delete (Dir.isOrphan (p.snapshotGen + 1) (p.walSeq + 1)) := by
    rw [← h.steps_committed]
    rfl
  rw [hsteps]
  refine ⟨(h.held_committed hload him hst).delete_orphans fun f hf => hf, ?_, rfl, ?_⟩
  · rw [← loadSnapshot_committed p dir hload]
    exact loadSnapshot_congr rfl (Files.get_keep_of (by simp [Dir.isOrphan, committed, Dir.loadManifest]))
      (Files.get_keep_of (by simp [Dir.isOrphan, committed, Dir.loadManifest]))
  rcases h.entries_committed newGraphs file with ⟨old, hentries⟩
  show List.filter _ (committed p newGraphs file dir).segments.entries = _
  rw [hentries]
  simp [Dir.isOrphan]

end

end Commit

end Persistent

end Nova
