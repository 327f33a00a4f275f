import Mathlib.Data.Fintype.Card
import Nova.Louds.Durability

/-!
# Backups, named graphs and failed batches

Three promises about what a directory gives when it is opened again, each with
the states in which the code keeps it.

* A backup holds the MANIFEST, its snapshots and the active segment. After sound
  actions that is all there is (`backup_opens_alike`); after an opening that found
  several segments it is not (`backup_misses_older_segment`).
* The named graphs a store reports are partly kept in a registry that is in no
  snapshot. A compaction and an opening leave those graphs that have quads
  (`known_graphs_survive_iff`, `registered_graph_is_lost`).
* A batch is logged as a whole and applied up to its first failure; a replay skips
  the failure and goes on (`failed_batch_iff`, `failed_batch_leaves_quads`).
-/

namespace Nova

open Nova.Lib List
open Wal (WalRecord PayloadShort)

variable {c : Call}

namespace Persistent

open LoudsStore

variable {D S : Type} {crc32 : Bytes → UInt32} {A : DictApi D} {F : DictFile D S} {fresh : D}
variable {Knows : D → Names → Prop} {CompactOk : Names → Prop} {Ready : D → Prop}
variable {dir : Dir Rings S} {p : Persistent D} {σ : Spec} {im : Image}

/-! ## Backups -/

theorem backup_loadManifest (p : Persistent D) (dir : Dir Rings S) :
    (p.backup dir .empty).loadManifest = dir.loadManifest := by
  unfold backup Dir.loadManifest
  cases dir.manifest <;> cases dir.snapshots.get p.snapshotGen <;>
    cases dir.dicts.get p.snapshotGen <;> cases dir.segments.get p.walSeq <;>
    by_cases hgen : p.snapshotGen > 0 <;> simp [hgen, Dir.empty]

theorem backup_files (p : Persistent D) (dir : Dir Rings S) (hgen : p.snapshotGen > 0) :
    (p.backup dir .empty).snapshots.get p.snapshotGen = dir.snapshots.get p.snapshotGen ∧
      (p.backup dir .empty).dicts.get p.snapshotGen = dir.dicts.get p.snapshotGen := by
  unfold backup
  cases hm : dir.manifest <;> cases hs : dir.snapshots.get p.snapshotGen <;>
    cases hd : dir.dicts.get p.snapshotGen <;> cases hw : dir.segments.get p.walSeq <;>
    simp [hgen, Dir.empty, Files.get_put]

theorem backup_segments (p : Persistent D) (dir : Dir Rings S) {file : Bytes}
    (hfile : dir.segments.get p.walSeq = some file) :
    (p.backup dir .empty).segments.entries = [(p.walSeq, file)] := by
  unfold backup
  rw [hfile]
  cases dir.manifest <;> cases dir.snapshots.get p.snapshotGen <;>
    cases dir.dicts.get p.snapshotGen <;> by_cases hgen : p.snapshotGen > 0 <;> simp [hgen] <;> rfl

theorem Serving.backup (h : Serving crc32 F fresh Knows p dir σ) :
    Held crc32 F fresh Knows (p.backup dir .empty) σ := by
  rcases h.held with ⟨s₀, im₀, logs, im, hd⟩
  rcases h.segment with ⟨file, hfile⟩
  have hman := backup_loadManifest p dir
  have hget : dir.segments.get p.walSeq = some file := by simp [Files.get, Files.find, hfile]
  have hbase : loadSnapshot F fresh (p.backup dir .empty) = loadSnapshot F fresh dir := by
    by_cases hgen : p.snapshotGen > 0
    · rcases backup_files p dir hgen with ⟨hsnap, hdict⟩
      rw [h.gen] at hsnap hdict
      exact loadSnapshot_congr hman hsnap hdict
    · rw [h.gen] at hgen
      simp only [loadSnapshot, hman, if_neg hgen]
  refine hd.relog logs hbase ?_ hd.short rfl
  rw [hman, ← hd.log, h.since_eq hfile, Files.since, backup_segments p dir hget]
  have hseq := h.seq
  simp [hseq]

/-! ## Named graphs -/

/-- Without a registry the graphs with a ring are reported: the graphs, other than
the default one, that have quads. -/
theorem mem_knownNamedGraphs_rings (I : Implements A Knows CompactOk) {n : Names} {s : LoudsStore D}
    (h : Inv Knows n s) (hdefault : n.graph graphDefault = some .defaultGraph)
    (hnamed : s.namedGraphIds = []) (hdelta : ∀ k, s.delta.get k = none)
    (hrings : ∀ (g : GraphId) (ring : GraphRing), s.graphs[g]? = some ring → ∃ t, t ∈ ring.triples)
    {g : GraphName} :
    g ∈ knownNamedGraphs A s ↔ g ≠ .defaultGraph ∧ ∃ q, Live n s q ∧ q.graphName = g := by
  rw [mem_knownNamedGraphs]
  constructor
  · intro hex
    rcases hex with ⟨gId, hor, hname⟩
    rw [I.getGraph _ _ _ h.knows] at hname
    rcases hor with hin | ⟨hring, hne⟩
    · rw [hnamed] at hin
      cases hin
    -- a graph with a ring has a row, whose quad is live
    · rcases Option.isSome_iff_exists.mp hring with ⟨ring, hring⟩
      rcases hrings gId ring hring with ⟨t, ht⟩
      rcases h.rows gId ring hring t ht with ⟨q, sId, pId, oId, hids, rfl⟩
      have hgraph : n.graph gId = some q.graphName := (Names.quadIds_eq_some.mp hids).1
      rw [hgraph] at hname
      cases hname
      refine ⟨?_, q, ⟨_, Names.keyOf_eq_some.mpr ⟨gId, sId, pId, oId, hids, rfl⟩, ?_⟩, rfl⟩
      · intro heq
        rw [heq, ← Names.graphId_eq_some] at hgraph
        rw [← Names.graphId_eq_some, hgraph] at hdefault
        exact hne (Option.some.inj hdefault)
      · rw [h.live_iff]
        refine .inr ⟨hdelta _, ?_⟩
        simp only [ringContains, hring]
        exact GraphRing.contains_iff.mpr ht
  · intro hex
    rcases hex with ⟨hne, q, ⟨k, hk, hlive⟩, rfl⟩
    rcases Names.keyOf_eq_some.mp hk with ⟨gId, sId, pId, oId, hids, rfl⟩
    have hgraph : n.graph gId = some q.graphName := (Names.quadIds_eq_some.mp hids).1
    rcases h.live_iff.mp hlive with hins | ⟨-, hring⟩
    · rw [hdelta] at hins
      cases hins
    · refine ⟨gId, .inr ⟨?_, ?_⟩, ?_⟩
      · rw [ringContains] at hring
        cases hr : s.graphs[gId]? with
        | none =>
          rw [hr] at hring
          cases hring
        | some ring => rfl
      · intro heq
        rw [heq, hdefault] at hgraph
        exact hne (Option.some.inj hgraph).symm
      · rw [I.getGraph _ _ _ h.knows]
        exact hgraph

theorem mergedGraphs_nonempty {s : LoudsStore D} {g : GraphId} {ring : GraphRing}
    (h : (mergedGraphs s)[g]? = some ring) : ∃ t, t ∈ ring.triples := by
  rw [mergedGraphs, getElem?_buildGraphs] at h
  rcases Option.bind_eq_some_iff.mp h with ⟨ts, -, hbuild⟩
  split at hbuild
  · cases hbuild
  · next hne =>
    cases hbuild
    cases ts with
    | nil => exact absurd rfl hne
    | cons t ts => exact ⟨t, GraphRing.mem_triples_ringBuild.mpr mem_cons_self⟩

/-- After a compaction and an opening the store reports the graphs that have
quads. -/
theorem Serving.known_after_compact (I : Implements A Knows CompactOk)
    (P : Persists A F Knows CompactOk Ready)
    (hdefault : ∀ d n, Knows d n → n.graph graphDefault = some .defaultGraph)
    (h : Serving crc32 F fresh Knows p dir σ) (hready : Ready p.inner.dict) :
    ∃ p₁ ops₁ p₂ ops₂, compact A F p = (.ok (), p₁, ops₁) ∧
      Persistent.openDir crc32 A F fresh (dir.steps ops₁) = (.ok p₂, ops₂) ∧
      ∀ g, g ∈ knownNamedGraphs A p₂.inner ↔
        g ≠ .defaultGraph ∧ ∃ sq ∈ LiveSet A p.inner, sq.graphName = g := by
  rcases h.memory with ⟨im, hs, hst⟩
  rcases compactLocked_spec I P hs hready with ⟨d₂, file, b, hr, hload, -, hbase⟩
  have hst' := hst.compact b
  rcases h.commit_steps hload hbase hst' with ⟨-, hsnap, hman, hentries⟩
  -- opening finds the snapshot and an empty segment
  have hsince : (dir.steps (commitOps p (mergedGraphs p.inner) file)).segments.since
      (dir.steps (commitOps p (mergedGraphs p.inner) file)).loadManifest.walSeq =
        [((p.walSeq + 1, []) : Nat × List WalRecord)].map (framed crc32) := by
    simp [Files.since, hentries, hman, framed]
  have hrep := replaySegments_spec (S := S) crc32 I [((p.walSeq + 1, []) : Nat × List WalRecord)] hbase
    (by simp) rfl
  rcases hrep with ⟨s', hrep, -⟩
  have hs' : s' = { LoudsStore.new d₂ with graphs := mergedGraphs p.inner } := by
    exact (Except.ok.inj (Prod.mk.inj hrep).1).symm
  rw [← hsince] at hrep
  refine ⟨_, _, _, _, hr, openDir_eq hsnap hrep, ?_⟩
  intro g
  rw [hs']
  have hauto := hbase.with_auto (some defaultAutoCompactThreshold)
  refine (mem_knownNamedGraphs_rings I hauto.inv (hdefault _ _ hauto.inv.knows) rfl
    (fun k => Delta.get_new k) (fun g ring hring => mergedGraphs_nonempty hring)).trans ?_
  rw [Site.liveSet_of_stands I ⟨im, hs, hst⟩]
  simp only [hst'.live_iff hauto]
  constructor
  · intro hex
    rcases hex with ⟨hne, q, hq, rfl⟩
    exact ⟨hne, q.stored, ⟨q, hq, rfl⟩, rfl⟩
  · intro hex
    rcases hex with ⟨hne, sq, ⟨q, hq, rfl⟩, rfl⟩
    exact ⟨hne, q, hq, rfl⟩

/-- The graphs other than the default one that are registered or have a ring are
those that have quads. -/
def GraphsHaveQuads (A : DictApi D) (s : LoudsStore D) : Prop :=
  ∀ (gId : GraphId) (g : GraphName), A.getGraph s.dict gId = some g →
    ((gId ∈ s.namedGraphIds ∨ s.graphs[gId]?.isSome = true ∧ gId ≠ graphDefault) ↔
      g ≠ .defaultGraph ∧ ∃ sq ∈ LiveSet A s, sq.graphName = g)

theorem known_iff_graphsHaveQuads (I : Implements A Knows CompactOk) {n : Names} {s : LoudsStore D}
    (h : Inv Knows n s) :
    (∀ g, g ∈ knownNamedGraphs A s ↔ g ≠ .defaultGraph ∧ ∃ sq ∈ LiveSet A s, sq.graphName = g) ↔
      GraphsHaveQuads A s := by
  constructor
  · intro hknown gId g hname
    rw [← hknown g, mem_knownNamedGraphs]
    constructor
    · intro hor
      exact ⟨gId, hor, hname⟩
    · intro hex
      rcases hex with ⟨gId', hor, hname'⟩
      -- two ids of one graph are one id
      rw [I.getGraph _ _ _ h.knows, ← Names.graphId_eq_some] at hname hname'
      rw [hname] at hname'
      rw [Option.some.inj hname']
      exact hor
  · intro hall g
    rw [mem_knownNamedGraphs]
    constructor
    · intro hex
      rcases hex with ⟨gId, hor, hname⟩
      exact (hall gId g hname).mp hor
    · intro hex
      rcases hex with ⟨hne, sq, hsq, rfl⟩
      have hlive := hsq
      rw [liveSet_eq I h] at hlive
      rcases hlive with ⟨q, ⟨k, hk, -⟩, rfl⟩
      rcases Names.keyOf_eq_some.mp hk with ⟨gId, sId, pId, oId, hids, -⟩
      have hname : A.getGraph s.dict gId = some q.stored.graphName := by
        rw [I.getGraph _ _ _ h.knows]
        exact (Names.quadIds_eq_some.mp hids).1
      exact ⟨gId, (hall gId _ hname).mpr ⟨hne, _, hsq, rfl⟩, hname⟩

/-! ## Failed batches -/

/-- The write does not panic. -/
def noPanic {α : Type} : Except Fault α → Bool
  | .error (.panic _) => false
  | _ => true

theorem quiet_of_noPanic {w : QuadOp} (h : noPanic (im.write w).1 = true) (pn : Panic) :
    (im.write w).1 ≠ .error (.panic pn) := by
  intro hp
  rw [hp] at h
  cases h

/-- By induction on the writes: the quads are what the writes that were made leave. -/
theorem made_stands (ws : List QuadOp) : ∀ {σ : Spec} {im im' : Image} {r : Except Fault (List Bool)},
    Stands σ im → im.writes ws = (r, im') → noPanic r = true →
      ∃ σ', Stands σ' im' ∧ σ'.quads = (Machine.made Image.write im ws).foldl Spec.applyPlain σ.quads := by
  induction ws with
  | nil =>
    intro σ im im' r hst hr _
    cases hr
    exact ⟨σ, hst, rfl⟩
  | cons w ws ih =>
    intro σ im im' r hst hr hpanic
    rw [Image.writes, Machine.batch] at hr
    rw [Machine.made]
    rcases hw : im.write w with ⟨r₁, im₁⟩
    rw [hw] at hr
    have hquiet : ∀ pn, (im.write w).1 ≠ .error (.panic pn) := by
      intro pn hp
      rw [hw] at hp
      subst hp
      cases hr
      cases hpanic
    rcases hst.write w hquiet with ⟨hans, hnext⟩
    rw [hw] at hans hnext
    cases r₁ with
    | error f =>
      cases hr
      exact ⟨_, hnext, Spec.write_quads_of_error (by rw [← hans]; rfl)⟩
    | ok b =>
      simp only at hr
      rcases hb : Machine.batch Image.write im₁ ws with ⟨r₂, im₂⟩
      rw [hb] at hr
      have hrest : ∀ r₂' : Except Fault (List Bool), r₂ = r₂' → noPanic r₂' = true → ∃ σ',
          Stands σ' im₂ ∧ σ'.quads =
            (Machine.made Image.write im₁ ws).foldl Spec.applyPlain (Spec.applyPlain σ.quads w) := by
        intro r₂' hr₂ hp
        subst hr₂
        rcases ih hnext hb hp with ⟨σ', hst', hq⟩
        exact ⟨σ', hst', by rw [hq, Spec.write_quads (by rw [← hans]; rfl)]⟩
      cases r₂ with
      | error f =>
        cases hr
        exact hrest _ rfl hpanic
      | ok bs =>
        cases hr
        exact hrest _ rfl rfl

theorem answered_records (ws : List QuadOp) : ∀ {σ : Spec} {im : Image}, Stands σ im →
    Machine.Meets Image.write (fun im w => noPanic (im.write w).1 = true) im ws →
      (∃ im', im.replay (ws.map recordOf) = .ok im') ∧ (σ.records (ws.map recordOf)).quads =
        (Machine.answered Image.write im ws).foldl Spec.applyPlain σ.quads := by
  induction ws with
  | nil => exact fun _ _ => ⟨⟨_, rfl⟩, rfl⟩
  | cons w ws ih =>
    intro σ im hst hmeets
    have hquiet := quiet_of_noPanic hmeets.1
    rcases hst.write w hquiet with ⟨hans, hnext⟩
    rcases ih hnext hmeets.2 with ⟨⟨im', hrep⟩, hquads⟩
    refine ⟨⟨im', ?_⟩, ?_⟩
    · rw [map_cons, Image.replay_cons (quiet_recordOf hquiet), record_recordOf]
      exact hrep
    · show ((σ.record (recordOf w)).records (ws.map recordOf)).quads = _
      rw [spec_record_recordOf, hquads, Machine.answered]
      by_cases hok : (im.write w).1.isOk = true
      · rw [if_pos hok, foldl_cons, Spec.write_quads (by rw [← hans]; exact hok)]
      · rw [if_neg hok, Spec.write_quads_of_error (by rw [← hans]; simpa using hok)]

theorem replay_panics (ws : List QuadOp) : ∀ {im : Image},
    ¬Machine.Meets Image.write (fun im w => noPanic (im.write w).1 = true) im ws →
      ∃ pn, im.replay (ws.map recordOf) = .error pn := by
  induction ws with
  | nil => exact fun h => absurd trivial h
  | cons w ws ih =>
    intro im h
    rw [map_cons, Image.replay, record_recordOf]
    rw [Machine.Meets] at h
    rcases hw : im.write w with ⟨r, im₁⟩
    rw [hw] at h
    cases r with
    | ok b => exact ih fun hrest => h ⟨rfl, hrest⟩
    | error f =>
      cases f with
      | err e => exact ih fun hrest => h ⟨rfl, hrest⟩
      | panic pn => exact ⟨pn, rfl⟩

/-- The writes before the first failure leave the set as it is; none of the later
ones panics, and leaving out only the failing ones leaves it so too. -/
def Cancels (A : DictApi D) (s : LoudsStore D) (L : Finset Quad) (ws : List QuadOp) : Prop :=
  (Machine.made (applyOne A) s ws).foldl Spec.applyPlain L = L ∧
    Machine.Meets (applyOne A) (fun s w => noPanic (applyOne A s w).1 = true) s ws ∧
    (Machine.answered (applyOne A) s ws).foldl Spec.applyPlain L = L

theorem settle_ok (I : Implements A Knows CompactOk) (P : Persists A F Knows CompactOk Ready)
    (hs : Shows Knows im p.inner)
    (hready : c = .compact ∨ c.writes ≠ [] ∧ p.inner.autoDue = true → Ready p.inner.dict) :
    ∃ p' ops, settle A F p c = (.ok (), p', ops) := by
  rw [Persistent.settle]
  split
  · next hc =>
    rcases compactLocked_spec I P hs (hready hc) with ⟨d₂, file, b, hr, -⟩
    exact ⟨_, _, hr⟩
  · exact ⟨_, _, rfl⟩

theorem call_of_error {f : Fault} {s' : LoudsStore D} (h : applyWrites A p.inner c.writes = (.error f, s')) :
    call crc32 A F p c = (.error f, { p with inner := s' },
      [.append p.walSeq ((Wal.format crc32).log (c.writes.map recordOf))]) := by
  have hne : c.writes ≠ [] := by
    intro hnil
    rw [hnil] at h
    cases h
  rw [call_eq, logWrites, if_neg hne, walAppend]
  simp only [andThen, inMemory, h, append_nil]

/-- What a call that returned an error has done: its records are in the log, and a
write has failed. -/
theorem call_error (I : Implements A Knows CompactOk) (P : Persists A F Knows CompactOk Ready)
    (hs : Shows Knows im p.inner)
    (hready : ∀ d ∈ stepCompactsAt A p.inner (.call c), Ready d) {f : Fault} {p' : Persistent D}
    {ops : List (FsOp Rings S)} (hfail : call crc32 A F p c = (.error f, p', ops)) :
    (applyWrites A p.inner c.writes).1 = .error f ∧
      p' = { p with inner := (applyWrites A p.inner c.writes).2 } ∧
      ops = [.append p.walSeq ((Wal.format crc32).log (c.writes.map recordOf))] := by
  rcases applyWrites_spec I hs c.writes with ⟨s₁, hr, hs₁, -⟩
  rcases hres : im.writes c.writes with ⟨r, im₁⟩
  rw [hres] at hr hs₁
  cases r with
  | ok bs =>
    -- nothing fails after the writes
    exfalso
    have hready' : c = .compact ∨ c.writes ≠ [] ∧ s₁.autoDue = true → Ready s₁.dict := by
      intro hc
      refine hready _ ?_
      rw [stepCompactsAt, compactsAt, hr]
      simp only [if_pos hc, Option.mem_def]
    rcases settle_ok (S := S) (p := { p with inner := s₁ }) I P hs₁ hready' with ⟨p₂, ops₂, hset⟩
    have hlog : ∃ ops₀, logWrites (S := S) crc32 p c = (.ok (), p, ops₀) := by
      rw [logWrites]
      split <;> exact ⟨_, rfl⟩
    rcases hlog with ⟨ops₀, hlog⟩
    rw [call_eq, hlog] at hfail
    simp only [andThen, inMemory, hr, hset] at hfail
    cases hfail
  | error f' =>
    rw [call_of_error hr] at hfail
    cases hfail
    rw [hr]
    exact ⟨rfl, rfl, rfl⟩

/-- After a call that returned an error, memory is as before and the directory opens
to it exactly if the writes cancel. -/
theorem Serving.failed_iff (I : Implements A Knows CompactOk) (P : Persists A F Knows CompactOk Ready)
    (h : Serving crc32 F fresh Knows p dir σ) (hshort : ∀ w ∈ c.writes, PayloadShort (recordOf w))
    (hready : ∀ d ∈ stepCompactsAt A p.inner (.call c), Ready d) {e : Oxigraph} {p' : Persistent D}
    {ops : List (FsOp Rings S)} (hfail : call crc32 A F p c = (.error (.err e), p', ops)) :
    (LiveSet A p'.inner = LiveSet A p.inner ∧
      ∃ p'' ops'', openDir crc32 A F fresh (dir.steps ops) = (.ok p'', ops'') ∧
        LiveSet A p''.inner = LiveSet A p'.inner) ↔ Cancels A p.inner σ.quads c.writes := by
  rcases h.memory with ⟨im, hs, hst⟩
  rcases call_error I P hs hready hfail with ⟨herr, rfl, rfl⟩
  rcases applyWrites_spec I hs c.writes with ⟨s₁, hr, hs₁, -⟩
  rw [hr] at herr
  -- the store's writes are the image's
  have hsim := applyOne_simulates I p.inner.autoCompactThreshold
  unfold Cancels
  rw [Machine.made_sim hsim ⟨hs, rfl⟩, Machine.answered_sim hsim ⟨hs, rfl⟩,
    Machine.meets_sim hsim ⟨hs, rfl⟩ (fun r => noPanic r = true)]
  have hrun : im.writes c.writes = ((im.writes c.writes).1, (im.writes c.writes).2) := rfl
  rcases made_stands c.writes hst hrun
    (by rw [show (im.writes c.writes).1 = .error (.err e) from herr]; rfl) with ⟨σ₁, hst₁, hmade⟩
  have hmem : LiveSet A s₁ = LiveSet A p.inner ↔
      (Machine.made Image.write im c.writes).foldl Spec.applyPlain σ.quads = σ.quads := by
    rw [Site.liveSet_of_stands I ⟨_, hs₁, hst₁⟩, Site.liveSet_of_stands I ⟨im, hs, hst⟩,
      Set.image_eq_image Quad.stored_injective, ← hmade]
    exact Finset.coe_inj
  simp only [hr]
  rw [hmem]
  refine and_congr_right fun hsame => ?_
  have hshort' : ∀ r ∈ c.writes.map recordOf, PayloadShort r := by
    intro r hr'
    rcases mem_map.mp hr' with ⟨w, hwm, rfl⟩
    exact hshort w hwm
  by_cases hmeets : Machine.Meets Image.write (fun im w => noPanic (im.write w).1 = true) im c.writes
  · -- the directory opens
    rcases answered_records c.writes hst hmeets with ⟨⟨im', hrep⟩, hquads⟩
    rcases (h.append_held hshort' hst hrep).openDir I with ⟨s', hopen, hs'⟩
    have hreads : LiveSet A s' = LiveSet A s₁ ↔
        (Machine.answered Image.write im c.writes).foldl Spec.applyPlain σ.quads = σ.quads := by
      rw [Site.liveSet_of_stands I hs', hmem.mpr hsame, Site.liveSet_of_stands I ⟨im, hs, hst⟩,
        Set.image_eq_image Quad.stored_injective, ← hquads]
      exact Finset.coe_inj
    constructor
    · intro hex
      rcases hex with ⟨p'', ops'', hopen', hlive⟩
      have heq := hopen.symm.trans hopen'
      cases heq
      exact ⟨hmeets, hreads.mp hlive⟩
    · intro hboth
      exact ⟨_, _, hopen, hreads.mpr hboth.2⟩
  · -- it does not
    rcases replay_panics c.writes hmeets with ⟨pn, hrep⟩
    rcases h.append_panics I hshort' hst hrep with ⟨pn', ops', hopen⟩
    constructor
    · intro hex
      rcases hex with ⟨p'', ops'', hopen', -⟩
      have heq := hopen.symm.trans hopen'
      cases heq
    · intro hboth
      exact absurd hboth.1 hmeets

end Persistent

namespace Site

open LoudsStore Persistent Dictionary DictCompact

variable {crc32 : Bytes → UInt32} {bs : Nat}

/-- In every state that sound actions reach, opening a backup gives the quads that
the process shows. -/
theorem backup_opens_alike (hbs : 0 < bs) {actions : List Action}
    (h : Machine.Meets (tracked crc32 (api bs) dictFile (Dictionary.new bs))
      (Sound (api bs) (DictReady bs)) (.empty, ∅) actions)
    {dir : Dir Rings DictSnapshot} {p : Persistent Dictionary} {acknowledged : Finset Quad}
    (hrun : (Machine.run (tracked crc32 (api bs) dictFile (Dictionary.new bs)) (.empty, ∅) actions).2 =
      (⟨dir, some p⟩, acknowledged)) :
    ∃ p' ops, openDir crc32 (api bs) dictFile (Dictionary.new bs) (p.backup dir .empty) = (.ok p', ops) ∧
      LiveSet (api bs) p'.inner = LiveSet (api bs) p.inner := by
  have I := implements hbs
  have hsettled := settled_run I (persists hbs) (knows_new bs) h
  rw [hrun] at hsettled
  rcases hsettled with ⟨σ, -, hserv⟩
  rcases hserv.backup.openDir I with ⟨s', hr, hs'⟩
  refine ⟨_, _, hr, ?_⟩
  rw [liveSet_of_stands I hs', liveSet_of_stands I hserv.memory]

/-- A backup after a crash in a compaction and an opening, with a write in the log. -/
theorem backup_opens_alike_recovered :
    ∃ dir p, (Machine.run
        (tracked Wal.crc32 (api sourceBlockSize) dictFile (Dictionary.new sourceBlockSize)) (.empty, ∅)
        (crashes ++ [.openDir, .request (.call (.insert (sampleQuad "d")))])).2.1 = ⟨dir, some p⟩ ∧
      ∃ p' ops, openDir Wal.crc32 (api sourceBlockSize) dictFile (Dictionary.new sourceBlockSize)
          (p.backup dir .empty) = (.ok p', ops) ∧
        LiveSet (api sourceBlockSize) p'.inner = LiveSet (api sourceBlockSize) p.inner := by
  have hmeets : Machine.Meets
      (tracked Wal.crc32 (api sourceBlockSize) dictFile (Dictionary.new sourceBlockSize))
      (Sound (api sourceBlockSize) fun d => readyBlock sourceBlockSize d = true) (.empty, ∅)
      (crashes ++ [.openDir, .request (.call (.insert (sampleQuad "d")))]) := by
    decide +kernel
  have hsound := hmeets.imp (Q := Sound (api sourceBlockSize) (DictReady sourceBlockSize))
    fun st a ha => ha.imp fun d hd => dictReady_of_block hd
  have hup : (Machine.run
      (tracked Wal.crc32 (api sourceBlockSize) dictFile (Dictionary.new sourceBlockSize)) (.empty, ∅)
      (crashes ++ [.openDir, .request (.call (.insert (sampleQuad "d")))])).2.1.process.isSome =
        true := by
    decide +kernel
  generalize hrun : (Machine.run
    (tracked Wal.crc32 (api sourceBlockSize) dictFile (Dictionary.new sourceBlockSize)) (.empty, ∅)
    (crashes ++ [.openDir, .request (.call (.insert (sampleQuad "d")))])).2 = st at hup ⊢
  rcases st with ⟨⟨dir, process⟩, acknowledged⟩
  cases process with
  | none => cases hup
  | some p => exact ⟨dir, p, rfl, backup_opens_alike (by decide) hsound hrun⟩

/-- The store has recovered from two segments; the backup has the second one only. -/
theorem backup_misses_older_segment :
    ¬∀ (actions : List Action) (dir : Dir Rings DictSnapshot) (p : Persistent Dictionary)
        (acknowledged : Finset Quad),
      (Machine.run (tracked Wal.crc32 (api sourceBlockSize) dictFile (Dictionary.new sourceBlockSize))
        (.empty, ∅) actions).2 = (⟨dir, some p⟩, acknowledged) →
      ∃ p' ops, openDir Wal.crc32 (api sourceBlockSize) dictFile (Dictionary.new sourceBlockSize)
          (p.backup dir .empty) = (.ok p', ops) ∧
        LiveSet (api sourceBlockSize) p'.inner = LiveSet (api sourceBlockSize) p.inner := by
  intro hclaim
  generalize hrun : (Machine.run
    (tracked Wal.crc32 (api sourceBlockSize) dictFile (Dictionary.new sourceBlockSize)) (.empty, ∅)
    [.openDir, .request (.call (.insert (sampleQuad "a"))), .crash (.call .compact) 3 (fun _ => false),
      .openDir]).2 = st
  have hshown : (st.1.process.map fun p => readAll (api sourceBlockSize) p.inner) =
      some (some [(sampleQuad "a").stored]) := by
    rw [← hrun]
    decide +kernel
  have hread : (st.1.process.bind fun p => ((openDir Wal.crc32 (api sourceBlockSize) dictFile
      (Dictionary.new sourceBlockSize) (p.backup st.1.dir .empty)).1.toOption.map
        fun p => readAll (api sourceBlockSize) p.inner)) = some (some []) := by
    rw [← hrun]
    decide +kernel
  rcases st with ⟨⟨dir, process⟩, acknowledged⟩
  cases process with
  | none => cases hshown
  | some p =>
    rcases hclaim _ dir p acknowledged hrun with ⟨p', ops, hopen, hlive⟩
    simp only [hopen, Except.toOption, Option.map_some, Option.bind_some, Option.some.injEq]
      at hread hshown
    rw [liveSet_of_readAll hread, liveSet_of_readAll hshown] at hlive
    have hmem : (sampleQuad "a").stored ∈ { sq | sq ∈ ([] : List StoredQuad) } := by
      rw [hlive]
      exact mem_cons_self
    cases hmem

/-- A compaction and an opening keep the reported graphs exactly in the states in
which a graph is registered or has a ring if and only if it has quads. -/
theorem known_graphs_survive_iff (hbs : 0 < bs) {actions : List Action}
    (h : Machine.Meets (step crc32 (api bs) dictFile (Dictionary.new bs))
      (SoundCalls (api bs) (DictReady bs)) .empty actions)
    {dir : Dir Rings DictSnapshot} {p : Persistent Dictionary}
    (hrun : (Machine.run (step crc32 (api bs) dictFile (Dictionary.new bs)) .empty actions).2 =
      ⟨dir, some p⟩) (hready : DictReady bs p.inner.dict) :
    ∃ p₁ ops₁ p₂ ops₂, compact (api bs) dictFile p = (.ok (), p₁, ops₁) ∧
      openDir crc32 (api bs) dictFile (Dictionary.new bs) (dir.steps ops₁) = (.ok p₂, ops₂) ∧
      ((∀ g, g ∈ knownNamedGraphs (api bs) p₂.inner ↔ g ∈ knownNamedGraphs (api bs) p.inner) ↔
        GraphsHaveQuads (api bs) p.inner) := by
  have I := implements hbs
  have huncut := Machine.run_inv (J := Uncut crc32 dictFile (Dictionary.new bs) (Dictionary.Knows bs))
    (fun _ _ hs ha => hs.step I (persists hbs) ha) (uncut_empty (knows_new bs)) h
  rw [hrun] at huncut
  rcases huncut.settled with ⟨L, σ, -, hserv⟩
  rcases hserv.known_after_compact I (persists hbs) (fun d n hd => hd.graphs.default) hready
    with ⟨p₁, ops₁, p₂, ops₂, hr, hopen, hknown⟩
  refine ⟨p₁, ops₁, p₂, ops₂, hr, hopen, ?_⟩
  rcases hserv.memory with ⟨im, hs, -⟩
  rw [← known_iff_graphsHaveQuads I hs.inv]
  constructor
  · intro hall g
    rw [← hall, hknown]
  · intro hall g
    rw [hknown, hall]

/-- A graph with a pending quad and a graph with a compacted one. -/
def filledGraphs : List Action :=
  [.openDir, .request (.call (.insert { sampleQuad "a" with graphName := .namedNode ⟨"http://ex/g"⟩ })),
    .request (.call .compact), .close, .openDir,
    .request (.call (.insert { sampleQuad "a" with graphName := .namedNode ⟨"http://ex/h"⟩ }))]

/-- What the next process reports after the current one has compacted. -/
def knownAfterCompact (site : Site Dictionary DictSnapshot) : Option (List GraphName) :=
  site.process.bind fun p =>
    let (_, _, ops) := compact (api sourceBlockSize) dictFile p
    (openDir Wal.crc32 (api sourceBlockSize) dictFile (Dictionary.new sourceBlockSize)
      (site.dir.steps ops)).1.toOption.map fun p => knownNamedGraphs (api sourceBlockSize) p.inner

/-- Two graphs that have quads are known again after a reopening. -/
theorem known_graphs_survive_iff_filled :
    ∃ dir p, (Machine.run (step Wal.crc32 (api sourceBlockSize) dictFile (Dictionary.new sourceBlockSize))
        .empty filledGraphs).2 = ⟨dir, some p⟩ ∧
      knownNamedGraphs (api sourceBlockSize) p.inner =
        [.namedNode ⟨"http://ex/h"⟩, .namedNode ⟨"http://ex/g"⟩] ∧
      GraphsHaveQuads (api sourceBlockSize) p.inner := by
  have hmeets : Machine.Meets
      (step Wal.crc32 (api sourceBlockSize) dictFile (Dictionary.new sourceBlockSize))
      (SoundCalls (api sourceBlockSize) fun d => readyBlock sourceBlockSize d = true) .empty
      filledGraphs := by
    decide +kernel
  have hsound := hmeets.imp (Q := SoundCalls (api sourceBlockSize) (DictReady sourceBlockSize))
    fun st a ha => ha.imp fun d hd => dictReady_of_block hd
  generalize hrun : (Machine.run
    (step Wal.crc32 (api sourceBlockSize) dictFile (Dictionary.new sourceBlockSize)) .empty
    filledGraphs).2 = site
  have hready : (site.process.map fun p => readyBlock sourceBlockSize p.inner.dict) = some true := by
    rw [← hrun]
    decide +kernel
  have hbefore : (site.process.map fun p => knownNamedGraphs (api sourceBlockSize) p.inner) =
      some [.namedNode ⟨"http://ex/h"⟩, .namedNode ⟨"http://ex/g"⟩] := by
    rw [← hrun]
    decide +kernel
  have hafter : knownAfterCompact site =
      some [.namedNode ⟨"http://ex/g"⟩, .namedNode ⟨"http://ex/h"⟩] := by
    rw [← hrun]
    decide +kernel
  rcases site with ⟨dir, process⟩
  cases process with
  | none => cases hready
  | some p =>
    simp only [Option.map_some, Option.some.injEq] at hready hbefore
    refine ⟨dir, p, rfl, hbefore, ?_⟩
    rcases known_graphs_survive_iff (by decide) hsound hrun (dictReady_of_block hready)
      with ⟨p₁, ops₁, p₂, ops₂, hr, hopen, hiff⟩
    refine hiff.mp fun g => ?_
    simp only [knownAfterCompact, Option.bind_some, hr, hopen, Except.toOption, Option.map_some,
      Option.some.injEq] at hafter
    rw [hafter, hbefore]
    simp [or_comm]

/-- A registered graph without quads is in no ring, and the record that registered
it goes with its segment. -/
theorem registered_graph_is_lost :
    ¬∀ (actions : List Action) (dir : Dir Rings DictSnapshot) (p p₁ p₂ : Persistent Dictionary)
        (ops₁ ops₂ : List (FsOp Rings DictSnapshot)),
      (Machine.run (step Wal.crc32 (api sourceBlockSize) dictFile (Dictionary.new sourceBlockSize))
        .empty actions).2 = ⟨dir, some p⟩ →
      compact (api sourceBlockSize) dictFile p = (.ok (), p₁, ops₁) →
      openDir Wal.crc32 (api sourceBlockSize) dictFile (Dictionary.new sourceBlockSize)
        (dir.steps ops₁) = (.ok p₂, ops₂) →
      ∀ g, g ∈ knownNamedGraphs (api sourceBlockSize) p₂.inner ↔
        g ∈ knownNamedGraphs (api sourceBlockSize) p.inner := by
  intro hclaim
  generalize hrun : (Machine.run
    (step Wal.crc32 (api sourceBlockSize) dictFile (Dictionary.new sourceBlockSize)) .empty
    [.openDir, .request (.registerNamedGraph (.namedNode ⟨"http://ex/g"⟩))]).2 = site
  have hbefore : (site.process.map fun p => knownNamedGraphs (api sourceBlockSize) p.inner) =
      some [.namedNode ⟨"http://ex/g"⟩] := by
    rw [← hrun]
    decide +kernel
  have hok : (site.process.map fun p => (compact (api sourceBlockSize) dictFile p).1.isOk) =
      some true := by
    rw [← hrun]
    decide +kernel
  have hafter : knownAfterCompact site = some [] := by
    rw [← hrun]
    decide +kernel
  rcases site with ⟨dir, process⟩
  cases process with
  | none => cases hbefore
  | some p =>
    simp only [Option.map_some, Option.some.injEq] at hbefore hok
    rcases hr : compact (api sourceBlockSize) dictFile p with ⟨r, p₁, ops₁⟩
    rw [hr] at hok
    simp only [knownAfterCompact, Option.bind_some, hr] at hafter
    rcases hopen : openDir Wal.crc32 (api sourceBlockSize) dictFile (Dictionary.new sourceBlockSize)
      (dir.steps ops₁) with ⟨r₂, ops₂⟩
    rw [hopen] at hafter
    cases r with
    | error f => cases hok
    | ok u =>
      cases r₂ with
      | error f => cases hafter
      | ok p₂ =>
        simp only [Except.toOption, Option.map_some, Option.some.injEq] at hafter
        have hlost := hclaim _ dir p p₁ p₂ ops₁ ops₂ hrun hr hopen (.namedNode ⟨"http://ex/g"⟩)
        rw [hafter, hbefore] at hlost
        cases hlost.mpr mem_cons_self

/-- In every state that sound actions reach, a call that returns an error leaves
memory as it was and a directory that opens to it, exactly if its writes cancel. -/
theorem failed_batch_iff (hbs : 0 < bs) {actions : List Action}
    (h : Machine.Meets (tracked crc32 (api bs) dictFile (Dictionary.new bs))
      (Sound (api bs) (DictReady bs)) (.empty, ∅) actions)
    {dir : Dir Rings DictSnapshot} {p : Persistent Dictionary} {acknowledged : Finset Quad}
    (hrun : (Machine.run (tracked crc32 (api bs) dictFile (Dictionary.new bs)) (.empty, ∅) actions).2 =
      (⟨dir, some p⟩, acknowledged))
    {c : Call} (hshort : ∀ w ∈ c.writes, PayloadShort (recordOf w))
    (hready : ∀ d ∈ stepCompactsAt (api bs) p.inner (.call c), DictReady bs d)
    {e : Oxigraph} {p' : Persistent Dictionary} {ops : List (FsOp Rings DictSnapshot)}
    (hfail : call crc32 (api bs) dictFile p c = (.error (.err e), p', ops)) :
    (LiveSet (api bs) p'.inner = LiveSet (api bs) p.inner ∧
      ∃ p'' ops'', openDir crc32 (api bs) dictFile (Dictionary.new bs) (dir.steps ops) =
          (.ok p'', ops'') ∧
        LiveSet (api bs) p''.inner = LiveSet (api bs) p'.inner) ↔
      Cancels (api bs) p.inner acknowledged c.writes := by
  have I := implements hbs
  have hsettled := settled_run I (persists hbs) (knows_new bs) h
  rw [hrun] at hsettled
  rcases hsettled with ⟨σ, rfl, hserv⟩
  exact hserv.failed_iff I (persists hbs) hshort hready hfail

/-- A quad in a graph of its own. -/
def inGraph (i : Nat) : Quad :=
  { sampleQuad "a" with graphName := .namedNode ⟨String.ofList (List.replicate i 'g')⟩ }

theorem inGraph_graphName_injective : Function.Injective fun i => (inGraph i).graphName := by
  intro i j h
  have hlist := congrArg String.toList (NamedNode.mk.inj (GraphName.namedNode.inj h))
  simpa using congrArg List.length hlist

theorem length_utf8_replicate (i : Nat) :
    (utf8 (String.ofList (List.replicate i 'g'))).length = i := by
  show (List.replicate i 'g').utf8Encode.size = i
  induction i with
  | zero => rfl
  | succ i ih =>
    rw [replicate_succ, utf8Encode_cons, ByteArray.size_append, ih, Nat.add_comm]
    rfl

theorem payloadShort_inGraph {i : Nat} (h : i < 257) {w : QuadOp}
    (hw : w = .insert (inGraph i) ∨ w = .remove (inGraph i)) : PayloadShort (recordOf w) := by
  have hrest : (Wal.writeSubject (inGraph i).subject ++ (Wal.writeString (inGraph i).predicate.iri ++
      Wal.writeObjectTerm (inGraph i).object)).length < 100 :=
    show (Wal.writeSubject (sampleQuad "a").subject ++ (Wal.writeString (sampleQuad "a").predicate.iri ++
      Wal.writeObjectTerm (sampleQuad "a").object)).length < 100 by decide
  have hquad : (Wal.writeQuad (inGraph i)).length < 1000 := by
    rw [Wal.writeQuad, length_append]
    rw [show (Wal.writeGraphName (inGraph i).graphName).length = 1 + (4 + i) by
      simp [inGraph, Wal.writeGraphName, Wal.length_writeString, length_utf8_replicate, Nat.add_comm]]
    omega
  have hlen : (Wal.encodeRecord (recordOf w)).length = (Wal.writeQuad (inGraph i)).length + 1 := by
    rcases hw with rfl | rfl <;> rfl
  unfold PayloadShort
  omega

theorem le_write (σ : Spec) (w : QuadOp) : σ.names.Le (σ.write w).2.names := by
  cases w with
  | insert q =>
    have hle := (σ.names.internQuad_spec q).1
    rw [Spec.write]
    rcases hn : σ.names.internQuad q with ⟨r, n'⟩
    rw [hn] at hle
    cases r <;> exact hle
  | remove q => exact σ.names.le_refl

theorem graph_of_insert {σ : Spec} {q : Quad} (h : (σ.write (.insert q)).1.isOk = true) :
    ∃ gId, (σ.write (.insert q)).2.names.graph gId = some q.graphName := by
  have hids := (σ.names.internQuad_spec q).2
  rw [Spec.write] at h ⊢
  rcases hn : σ.names.internQuad q with ⟨r, n'⟩
  rw [hn] at h hids
  cases r with
  | error e => cases h
  | ok ids => exact ⟨ids.1, (Names.quadIds_eq_some.mp (hids ids rfl)).1⟩

theorem batch_graphs (ws : List QuadOp) : ∀ {σ : Spec}, (Machine.batch Spec.write σ ws).1.isOk = true →
    ∃ n : Names, σ.names.Le n ∧ ∀ q, .insert q ∈ ws → ∃ gId, n.graph gId = some q.graphName := by
  induction ws with
  | nil => exact fun {σ} _ => ⟨σ.names, σ.names.le_refl, fun q hq => by cases hq⟩
  | cons w ws ih =>
    intro σ h
    rw [Machine.batch] at h
    have hle := le_write σ w
    rcases hw : σ.write w with ⟨r, σ₁⟩
    rw [hw] at h hle
    cases r with
    | error f => cases h
    | ok b =>
      simp only at h
      have hrest : (Machine.batch Spec.write σ₁ ws).1.isOk = true := by
        rcases hb : Machine.batch Spec.write σ₁ ws with ⟨r', σ₂⟩
        rw [hb] at h
        cases r' with
        | error f => cases h
        | ok bs => rfl
      rcases ih hrest with ⟨n, hn, hall⟩
      refine ⟨n, hle.trans hn, ?_⟩
      intro q hq
      rcases mem_cons.mp hq with heq | hq
      · subst heq
        rcases graph_of_insert (σ := σ) (q := q) (by rw [hw]; rfl) with ⟨gId, hg⟩
        rw [hw] at hg
        exact ⟨gId, Names.graph_of_le hn hg⟩
      · exact hall q hq

theorem noPanic_write (σ : Spec) (w : QuadOp) : noPanic (σ.write w).1 = true := by
  cases w with
  | insert q =>
    rw [Spec.write]
    rcases σ.names.internQuad q with ⟨r, n'⟩
    cases r <;> rfl
  | remove q => rfl

theorem batch_noPanic (ws : List QuadOp) : ∀ {σ : Spec} {pn : Panic},
    (Machine.batch Spec.write σ ws).1 ≠ .error (.panic pn) := by
  induction ws with
  | nil => exact fun h => by cases h
  | cons w ws ih =>
    intro σ pn h
    have hquiet := noPanic_write σ w
    rw [Machine.batch] at h
    rcases hw : σ.write w with ⟨r, σ₁⟩
    rw [hw] at h hquiet
    cases r with
    | error f =>
      cases h
      cases hquiet
    | ok b =>
      simp only at h
      rcases hb : Machine.batch Spec.write σ₁ ws with ⟨r', σ₂⟩
      rw [hb] at h
      cases r' with
      | error f =>
        cases h
        exact ih (by rw [hb])
      | ok bs => cases h

theorem batch_exhausts {ws : List QuadOp} (hws : ∀ i < 257, .insert (inGraph i) ∈ ws) (σ : Spec) :
    ∃ e, (Machine.batch Spec.write σ ws).1 = .error (.err e) := by
  cases hr : (Machine.batch Spec.write σ ws).1 with
  | ok bs =>
    exfalso
    rcases batch_graphs ws (σ := σ) (by rw [hr]; rfl) with ⟨n, -, hall⟩
    choose gId hgId using fun i : Fin 257 => hall (inGraph i) (hws i i.isLt)
    have hinj : Function.Injective fun i => (gId i).toFin := by
      intro i j hij
      have hsame : gId i = gId j := UInt8.toFin_inj.mp hij
      have hname := hgId i
      rw [hsame, hgId j] at hname
      exact Fin.ext (inGraph_graphName_injective (Option.some.inj hname)).symm
    have hcard := Fintype.card_le_of_injective _ hinj
    rw [Fintype.card_fin, Fintype.card_fin] at hcard
    exact absurd hcard (by decide)
  | error f =>
    cases f with
    | err e => exact ⟨e, rfl⟩
    | panic pn => exact absurd hr (batch_noPanic ws)

/-- The process that has opened an empty directory. -/
def newcomer : Persistent Dictionary :=
  ⟨{ LoudsStore.new (Dictionary.new sourceBlockSize) with
    autoCompactThreshold := some defaultAutoCompactThreshold }, 0, 1⟩

theorem run_openDir : (Machine.run
    (tracked Wal.crc32 (api sourceBlockSize) dictFile (Dictionary.new sourceBlockSize)) (.empty, ∅)
    [.openDir]).2 = (⟨Dir.empty.steps [.createOrOpen 1, .cleanupOrphans 0 1], some newcomer⟩, ∅) := rfl

theorem meets_openDir : Machine.Meets
    (tracked Wal.crc32 (api sourceBlockSize) dictFile (Dictionary.new sourceBlockSize))
    (Sound (api sourceBlockSize) (DictReady sourceBlockSize)) (.empty, ∅) [.openDir] :=
  ⟨rfl, trivial⟩

/-- The store of the newcomer makes its writes as the set makes them. -/
theorem newcomer_simulates : Machine.Simulates
    (fun s σ => ∃ im, (Shows (Dictionary.Knows sourceBlockSize) im s ∧
      s.autoCompactThreshold = some defaultAutoCompactThreshold) ∧
      Stands σ im ∧ σ.names.isSealed = false)
    (applyOne (api sourceBlockSize)) Spec.write fun _ _ => True := by
  intro s σ w h _
  rcases h with ⟨im, hs, hst, hopen⟩
  rcases applyOne_simulates (implements (by decide)) _ s im w hs trivial with ⟨hans, hnext⟩
  have hquiet : Quiet im.names w := by
    cases w with
    | insert q => trivial
    | remove q => exact Names.lookupQuad_unsealed (hst.names ▸ hopen) q
  rcases hst.write w (Image.write_quiet hquiet) with ⟨hans', hnext'⟩
  exact ⟨hans.trans hans', _, hnext, hnext', (σ.write_isSealed w).trans hopen⟩

theorem newcomer_stands : ∃ im, (Shows (Dictionary.Knows sourceBlockSize) im newcomer.inner ∧
    newcomer.inner.autoCompactThreshold = some defaultAutoCompactThreshold) ∧
    Stands .empty im ∧ Spec.empty.names.isSealed = false :=
  ⟨.empty, ⟨shows_new (knows_new _) _, rfl⟩, stands_empty, rfl⟩

theorem newcomer_exhausts (hws : ∀ i < 257, .insert (inGraph i) ∈ c.writes) :
    ∃ e s', applyWrites (api sourceBlockSize) newcomer.inner c.writes = (.error (.err e), s') := by
  rcases batch_exhausts hws .empty with ⟨e, he⟩
  have hans := (Machine.batch_sim newcomer_simulates newcomer_stands c.writes).1
  exact ⟨e, _, Prod.ext (hans.trans he) rfl⟩

/-- Every quad is inserted and removed again. -/
def churn (is : List Nat) : List QuadOp := is.flatMap fun i => [.insert (inGraph i), .remove (inGraph i)]

theorem cancels_churn (is : List Nat) : ∀ {σ : Spec},
    (Machine.made Spec.write σ (churn is)).foldl Spec.applyPlain ∅ = ∅ ∧
      Machine.Meets Spec.write (fun σ w => noPanic (σ.write w).1 = true) σ (churn is) ∧
      (Machine.answered Spec.write σ (churn is)).foldl Spec.applyPlain ∅ = ∅ := by
  induction is with
  | nil => exact ⟨rfl, trivial, rfl⟩
  | cons i is ih =>
    intro σ
    rcases ih (σ := ((σ.write (.insert (inGraph i))).2.write (.remove (inGraph i))).2)
      with ⟨hmade, hmeets, hanswered⟩
    have hremove : ((σ.write (.insert (inGraph i))).2.write (.remove (inGraph i))).1.isOk = true := rfl
    have hpair : Spec.applyPlain (Spec.applyPlain ∅ (.insert (inGraph i))) (.remove (inGraph i)) = ∅ := by
      simp [Spec.applyPlain]
    refine ⟨?_, ⟨noPanic_write σ _, noPanic_write _ _, hmeets⟩, ?_⟩
    · show List.foldl _ _ (Machine.made Spec.write σ (_ :: _ :: churn is)) = ∅
      rw [Machine.made, Machine.made, if_pos hremove]
      split
      · rw [foldl_cons, foldl_cons, hpair]
        exact hmade
      · rfl
    · show List.foldl _ _ (Machine.answered Spec.write σ (_ :: _ :: churn is)) = ∅
      rw [Machine.answered, Machine.answered, if_pos hremove]
      split
      · rw [foldl_cons, foldl_cons, hpair]
        exact hanswered
      · exact hanswered

/-- Quads come and go in more graphs than there are ids: the error leaves nothing
behind, in memory or in the directory. -/
theorem failed_batch_iff_churn :
    ∃ p' e ops, call Wal.crc32 (api sourceBlockSize) dictFile newcomer
        (.applyBatch (churn (List.range 257))) = (.error (.err e), p', ops) ∧
      LiveSet (api sourceBlockSize) p'.inner = LiveSet (api sourceBlockSize) newcomer.inner ∧
      ∃ p'' ops'', openDir Wal.crc32 (api sourceBlockSize) dictFile (Dictionary.new sourceBlockSize)
          ((Dir.empty.steps [.createOrOpen 1, .cleanupOrphans 0 1]).steps ops) = (.ok p'', ops'') ∧
        LiveSet (api sourceBlockSize) p''.inner = LiveSet (api sourceBlockSize) p'.inner := by
  have hws : ∀ i < 257, .insert (inGraph i) ∈ (Call.applyBatch (churn (List.range 257))).writes := by
    intro i hi
    exact mem_flatMap.mpr ⟨i, mem_range.mpr hi, mem_cons_self⟩
  rcases newcomer_exhausts hws with ⟨e, s', hr⟩
  have hfail : call Wal.crc32 (api sourceBlockSize) dictFile _ _ = _ := call_of_error hr
  refine ⟨_, e, _, hfail, (failed_batch_iff (by decide) meets_openDir run_openDir ?_ ?_ hfail).mpr ?_⟩
  · intro w hw
    rcases mem_flatMap.mp hw with ⟨i, hi, hmem⟩
    refine payloadShort_inGraph (mem_range.mp hi) ?_
    simpa using hmem
  · intro d hd
    rw [stepCompactsAt, compactsAt, hr] at hd
    cases hd
  · rcases cancels_churn (List.range 257) (σ := .empty) with ⟨hmade, hmeets, hanswered⟩
    unfold Cancels
    rw [Machine.made_sim newcomer_simulates newcomer_stands,
      Machine.answered_sim newcomer_simulates newcomer_stands,
      Machine.meets_sim newcomer_simulates newcomer_stands (fun r => noPanic r = true)]
    exact ⟨hmade, hmeets, hanswered⟩

theorem subset_foldl_inserts {ws : List QuadOp} (h : ∀ w ∈ ws, ∃ q, w = .insert q) (L : Finset Quad) :
    L ⊆ ws.foldl Spec.applyPlain L := by
  induction ws generalizing L with
  | nil => exact Finset.Subset.refl L
  | cons w ws ih =>
    rcases h w mem_cons_self with ⟨q, rfl⟩
    have hrest := ih (fun w hw => h w (mem_cons_of_mem _ hw)) (insert q L)
    exact (Finset.subset_insert q L).trans hrest

theorem made_inserts_ne {D : Type} {A : DictApi D} {s : LoudsStore D} {q : Quad} {quads : List Quad}
    (h : (applyOne A s (.insert q)).1.isOk = true) :
    (Machine.made (applyOne A) s (.insert q :: quads.map .insert)).foldl Spec.applyPlain ∅ ≠ ∅ := by
  rw [Machine.made, if_pos h, foldl_cons]
  have hins : ∀ w ∈ Machine.made (applyOne A) (applyOne A s (.insert q)).2 (quads.map .insert),
      ∃ q', w = .insert q' := by
    intro w hw
    rcases mem_map.mp (Machine.mem_of_mem_made hw) with ⟨q', -, rfl⟩
    exact ⟨q', rfl⟩
  have hsub := subset_foldl_inserts hins (Spec.applyPlain ∅ (.insert q))
  exact Finset.ne_empty_of_mem (hsub (Finset.mem_insert_self q ∅))

/-- A batch of inserts into more graphs than there are ids: the error comes after
quads that stay. -/
theorem failed_batch_leaves_quads :
    ¬∀ (actions : List Action) (dir : Dir Rings DictSnapshot) (p p' : Persistent Dictionary)
        (acknowledged : Finset Quad) (c : Call) (e : Oxigraph) (ops : List (FsOp Rings DictSnapshot)),
      (Machine.run (tracked Wal.crc32 (api sourceBlockSize) dictFile (Dictionary.new sourceBlockSize))
        (.empty, ∅) actions).2 = (⟨dir, some p⟩, acknowledged) →
      call Wal.crc32 (api sourceBlockSize) dictFile p c = (.error (.err e), p', ops) →
      LiveSet (api sourceBlockSize) p'.inner = LiveSet (api sourceBlockSize) p.inner ∧
        ∃ p'' ops'', openDir Wal.crc32 (api sourceBlockSize) dictFile (Dictionary.new sourceBlockSize)
            (dir.steps ops) = (.ok p'', ops'') ∧
          LiveSet (api sourceBlockSize) p''.inner = LiveSet (api sourceBlockSize) p'.inner := by
  intro hclaim
  have hws : ∀ i < 257, .insert (inGraph i) ∈
      (Call.extendBoxed ((List.range 257).map inGraph)).writes := by
    intro i hi
    exact mem_map_of_mem (mem_map_of_mem (mem_range.mpr hi))
  rcases newcomer_exhausts hws with ⟨e, s', hr⟩
  have hfail : call Wal.crc32 (api sourceBlockSize) dictFile _ _ = _ := call_of_error hr
  have hkept := hclaim _ _ _ _ _ _ e _ run_openDir hfail
  have hsettled := settled_run (implements (by decide)) (persists (by decide))
    (knows_new sourceBlockSize) meets_openDir
  rcases hsettled with ⟨σ, hq, hserv⟩
  have hserv : Serving Wal.crc32 dictFile (Dictionary.new sourceBlockSize)
    (Dictionary.Knows sourceBlockSize) newcomer _ σ := hserv
  have hcancels := (hserv.failed_iff (implements (by decide)) (persists (by decide)) ?_ ?_ hfail).mp hkept
  · -- the first insert is made, and nothing is removed
    have hmade := hcancels.1
    rw [show σ.quads = ∅ from hq] at hmade
    have hfirst : (applyOne (api sourceBlockSize) newcomer.inner (.insert (inGraph 0))).1.isOk = true := by
      decide +kernel
    exact made_inserts_ne hfirst hmade
  · intro w hw
    rcases mem_map.mp hw with ⟨q, hq, rfl⟩
    rcases mem_map.mp hq with ⟨i, hi, rfl⟩
    exact payloadShort_inGraph (mem_range.mp hi) (.inl rfl)
  · intro d hd
    rw [stepCompactsAt, compactsAt, hr] at hd
    cases hd

end Site

end Nova
