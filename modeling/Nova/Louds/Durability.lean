import Nova.Core.DictSnapshot
import Nova.Louds.Recovery

/-!
# What survives in the data directory

Runs of a site: requests, crashes at any file-system step of a request or of an
opening, closing and opening again. `Settled` is the invariant over whole runs:
the directory recovers to the quads of the acknowledged writes, and a process
serves them.

It holds as long as every action is `Sound`, which leaves out the ways the code
loses data:

* an opening that finds several segments from the MANIFEST's on deletes all but
  the highest one, though the MANIFEST still asks for them
  (`reopening_loses_acknowledged`);
* a bulk load over pending writes starts a new segment without them
  (`reopen_after_bulkLoad_loses_pending`);
* a record or a dictionary that does not fit its file format, and a batch that
  fails part-way.

The main results are `open_recovers_acknowledged`, for runs with crashes, and
`reopen_keeps_live_set`, for runs without.
-/

namespace Nova

open Nova.Lib List
open Wal (WalRecord PayloadShort)

variable {quads : List Quad}

namespace LoudsStore

variable {D : Type} {Knows : D → Names → Prop} {σ : Spec} {im : Image}

/-! ## Images of snapshots and of bulk loads -/

variable {v : Overlay Nat}

theorem Shows.with_reloaded {s : LoudsStore D} {n : Names} {b b' : Bool}
    (h : Shows Knows ⟨n.withSealed b, v⟩ s) {d : D} (hd : Knows d (n.withSealed b')) :
    Shows Knows ⟨n.withSealed b', v⟩ { s with dict := d } :=
  ⟨h.inv.with_dict ((n.withSealed b).le_withSealed b') hd, h.view⟩

theorem Shows.of_snapshot {s : LoudsStore D} (h : Shows Knows im s) :
    Shows Knows ⟨im.names, ⟨im.view.base, ∅, ∅, Finset.disjoint_empty_left _⟩⟩
      { LoudsStore.new s.dict with graphs := s.graphs } where
  inv := by
    refine ⟨h.inv.knows, h.inv.rows, ?_⟩
    intro k b hk
    exact (inv_new h.inv.knows).keys k b hk
  view := by
    have hempty : ∀ b, Delta.new.marked b = ∅ := by
      intro b
      ext k
      simp [Delta.mem_marked]
    rw [← h.view]
    simp only [LoudsStore.view, LoudsStore.new, Overlay.mk.injEq]
    exact ⟨rfl, hempty true, hempty false⟩

theorem Stands.union (h : Stands σ im) {n' : Names} (hle : σ.names.Le n')
    (hkeys : ∀ q ∈ quads, ∃ k, n'.keyOf q = some k)
    (hlive : v.live = im.view.live ∪ keysOf n' quads) : Stands ⟨n', σ.quads ∪ quads.toFinset⟩ ⟨n', v⟩ where
  names := rfl
  known := by
    intro q hq
    rcases Finset.mem_union.mp hq with hq | hq
    · exact (h.of_le hle).known q hq
    · exact hkeys q (mem_toFinset.mp hq)
  live := by
    intro k
    have hold := (h.of_le hle).live k
    simp only [hlive, Finset.mem_union, hold, mem_keysOf, mem_toFinset]
    constructor
    · intro hor
      rcases hor with ⟨q, hq, hk⟩ | ⟨q, hq, hk⟩
      · exact ⟨q, .inl hq, hk⟩
      · exact ⟨q, .inr hq, hk⟩
    · intro hex
      rcases hex with ⟨q, hq | hq, hk⟩
      · exact .inl ⟨q, hq, hk⟩
      · exact .inr ⟨q, hq, hk⟩

/-- Where the delta is folded, a bulk load leaves the same live keys in memory and
in the snapshot. -/
theorem live_folded {ks : Finset Nat} (hins : v.inserted ⊆ v.base ∪ ks)
    (hrem : Disjoint v.removed (v.base ∪ ks)) :
    (v.load ks).live = v.live ∪ ks ∧ v.base ∪ ks = v.live ∪ ks := by
  have hrem' : ∀ k ∈ v.removed, k ∉ v.base ∧ k ∉ ks := by
    intro k hk
    have hout := Finset.disjoint_left.mp hrem hk
    rw [Finset.mem_union] at hout
    exact ⟨fun hb => hout (.inl hb), fun hl => hout (.inr hl)⟩
  constructor
  · rw [Overlay.live_load_eq_union_iff, Finset.disjoint_right]
    exact fun k hk => (hrem' k hk).2
  · ext k
    rw [Finset.mem_union, Finset.mem_union, Overlay.mem_live]
    constructor
    · intro hor
      rcases hor with hb | hl
      · exact .inl (.inr ⟨fun hr => (hrem' k hr).1 hb, hb⟩)
      · exact .inr hl
    · intro hor
      rcases hor with (hi | ⟨-, hb⟩) | hl
      · exact Finset.mem_union.mp (hins hi)
      · exact .inl hb
      · exact .inr hl

end LoudsStore

namespace Persistent

open LoudsStore

variable {D S α β γ : Type} {crc32 : Bytes → UInt32} {A : DictApi D} {F : DictFile D S} {fresh : D}
variable {Knows : D → Names → Prop} {CompactOk : Names → Prop} {Ready : D → Prop}
variable {dir : Dir Rings S} {p : Persistent D} {σ : Spec} {im : Image}

/-! ## One shape for every call -/

theorem andThen_assoc (x : Outcome D S α) (f : α → Persistent D → Outcome D S β)
    (k : β → Persistent D → Outcome D S γ) :
    andThen (andThen x f) k = andThen x fun a p => andThen (f a p) k := by
  rcases x with ⟨r, p, ops⟩
  cases r with
  | error e => rfl
  | ok a =>
    simp only [andThen]
    rcases f a p with ⟨r', p', ops'⟩
    cases r' with
    | error e => rfl
    | ok b => simp [append_assoc]

theorem inMemory_andThen (p : Persistent D) (x : LoudsStore.Outcome D α)
    (k : α → LoudsStore D → LoudsStore.Outcome D β) :
    (inMemory p (LoudsStore.andThen x k) : Outcome D S β) =
      andThen (inMemory p x) fun a p => inMemory p (k a p.inner) := by
  rcases x with ⟨r, s⟩
  cases r <;> rfl

theorem andThen_ok (a : α) (p : Persistent D) (k : α → Persistent D → Outcome D S β) :
    andThen (.ok a, p, []) k = k a p := by
  simp [andThen]

/-- The end of a call: compact or not. -/
def settle (A : DictApi D) (F : DictFile D S) (p : Persistent D) (c : Call) : Outcome D S Unit :=
  if c = .compact ∨ c.writes ≠ [] ∧ p.inner.autoDue = true then compactLocked A F p else (.ok (), p, [])

/-- The beginning of a call: its records go to the log, if it has any. -/
def logWrites (crc32 : Bytes → UInt32) (p : Persistent D) (c : Call) : Outcome D S Unit :=
  if c.writes = [] then (.ok (), p, []) else walAppend crc32 p (c.writes.map recordOf)

theorem maybeAutoCompact_eq (p : Persistent D) :
    maybeAutoCompact A F p = if p.inner.autoDue = true then compactLocked A F p else (.ok (), p, []) := by
  unfold maybeAutoCompact autoDue
  cases p.inner.autoCompactThreshold with
  | none => rfl
  | some threshold => simp

/-- A call that logs its writes, makes them and looks at the delta. -/
theorem logged_eq {c : Call} (hw : c.writes ≠ []) {result : Type}
    (apply : LoudsStore D → LoudsStore.Outcome D result) (f : List Bool → result)
    (g : result → Reply) (hreply : ∀ bs, c.reply bs = g (f bs))
    (happly : ∀ s, apply s = LoudsStore.andThen (applyWrites A s c.writes) fun bs s => (.ok (f bs), s)) :
    (andThen (logged crc32 A F p (c.writes.map recordOf) apply) fun a p => (.ok (g a), p, [])) =
      andThen (logWrites crc32 p c) fun _ p =>
      andThen (inMemory p (applyWrites A p.inner c.writes)) fun bs p =>
      andThen (settle A F p c) fun _ p => (.ok (c.reply bs), p, []) := by
  have hc : c ≠ .compact := by
    rintro rfl
    exact hw rfl
  unfold logged logWrites
  rw [if_neg hw]
  simp only [andThen_assoc, happly, inMemory_andThen]
  refine congrArg (andThen (walAppend crc32 p _)) ?_
  funext _ p
  refine congrArg (andThen (inMemory p _)) ?_
  funext bs p
  have hsettle : maybeAutoCompact A F p = settle A F p c := by
    rw [maybeAutoCompact_eq, settle]
    simp only [hc, hw, false_or, ne_eq, not_false_eq_true, true_and]
  simp only [inMemory, andThen_ok, hsettle, hreply]

theorem call_eq (p : Persistent D) (c : Call) :
    call crc32 A F p c =
      andThen (logWrites crc32 p c) fun _ p =>
      andThen (inMemory p (applyWrites A p.inner c.writes)) fun bs p =>
      andThen (settle A F p c) fun _ p => (.ok (c.reply bs), p, []) := by
  cases c with
  | insert q =>
    exact logged_eq (c := .insert q) (by simp [Call.writes]) _ (fun bs => bs.headD false) .changed
      (fun _ => rfl) fun s => applyOne_eq s (.insert q)
  | remove q =>
    exact logged_eq (c := .remove q) (by simp [Call.writes]) _ (fun bs => bs.headD false) .changed
      (fun _ => rfl) fun s => applyOne_eq s (.remove q)
  | extendBoxed quads =>
    cases quads with
    | nil => rfl
    | cons q quads =>
      have hmap : ((Call.extendBoxed (q :: quads)).writes.map recordOf) =
          (q :: quads).map .insertQuad := by
        simp [Call.writes, recordOf]
      rw [call, extendBoxed, if_neg (by simp), ← hmap]
      refine logged_eq (c := .extendBoxed (q :: quads)) (by simp [Call.writes]) _
        (fun bs => bs.count true) .count (fun _ => rfl) ?_
      intro s
      rw [insertAll_eq]
      simp [Call.writes]
  | applyBatch ops =>
    cases ops with
    | nil => rfl
    | cons w ops =>
      refine logged_eq (c := .applyBatch (w :: ops)) (by simp [Call.writes])
        (fun s => applyAll A s 0 0 (w :: ops)) (fun bs => tally (w :: ops) bs)
        (fun c => .counts c.1 c.2) (fun _ => rfl) ?_
      intro s
      rw [applyAll_eq]
      simp [Call.writes]
  | compact =>
    rfl

/-! ## Compactions and bulk loads -/

/-- A dictionary that is ready can be compacted, and what is written of it then
comes back with its names. -/
structure Persists (A : DictApi D) (F : DictFile D S) (Knows : D → Names → Prop)
    (CompactOk : Names → Prop) (Ready : D → Prop) : Prop where
  compactOk : ∀ d n, Knows d n → Ready d → CompactOk n
  reload : ∀ d n, Knows d n → Ready d → ∃ d₁ d₂ b, A.compact d = .ok (.ok (), d₁) ∧
    F.load (F.save d₁) = .ok d₂ ∧ Knows d₂ (n.withSealed b)

/-- The rings of a compaction. -/
def mergedGraphs (s : LoudsStore D) : Rings :=
  buildGraphsFromTriples (s.delta.iter.foldl mergeEntry s.perGraph)

section

variable (I : Implements A Knows CompactOk) (P : Persists A F Knows CompactOk Ready)
include I P

theorem compactLocked_spec (h : Shows Knows im p.inner) (hready : Ready p.inner.dict) :
    ∃ d₂ file b, compactLocked A F p =
        (.ok (), ⟨{ p.inner with dict := d₂ }.commitCompaction (mergedGraphs p.inner) true,
          p.snapshotGen + 1, p.walSeq + 1⟩, commitOps p (mergedGraphs p.inner) file) ∧
      F.load file = .ok d₂ ∧
      Shows Knows (im.compact b)
        ({ p.inner with dict := d₂ }.commitCompaction (mergedGraphs p.inner) true) ∧
      Shows Knows (im.compact b) { LoudsStore.new d₂ with graphs := mergedGraphs p.inner } := by
  rcases P.reload _ _ h.inv.knows hready with ⟨d₁, d₂, b, hcomp, hload, hd₂⟩
  have hdict : compactDict A p.inner = (.ok (), { p.inner with dict := d₁ }) := by
    rw [compactDict, hcomp]
  -- the compaction of the store in memory
  have hmem : LoudsStore.compactLocked A p.inner =
      (.ok (), { p.inner with dict := d₁ }.commitCompaction (mergedGraphs p.inner) true) := by
    rw [LoudsStore.compactLocked, hdict]
    rfl
  rcases compactLocked_shows I h (P.compactOk _ _ h.inv.knows hready) with ⟨s', b', hr, hs', -⟩
  rw [hmem] at hr
  cases hr
  have hshows : Shows Knows (im.compact b)
      ({ p.inner with dict := d₂ }.commitCompaction (mergedGraphs p.inner) true) :=
    Shows.with_reloaded hs' hd₂
  refine ⟨d₂, F.save d₁, b, ?_, hload, hshows, Shows.of_snapshot hshows⟩
  rw [compactLocked, hdict]
  simp only [inMemory, andThen_ok, commitCompaction, hload]
  rfl

/-- A bulk load whose names fit. -/
theorem bulkLoad_spec (h : Shows Knows im p.inner)
    (hfits : (loadQuads A p.inner p.inner.perGraph quads).1.isOk = true)
    (hready : ∀ d, stepCompactsAt A p.inner (.bulkLoad quads) = some d → Ready d) :
    ∃ s' file b, bulkLoad A F p quads =
        (.ok quads.length, ⟨s', p.snapshotGen + 1, p.walSeq + 1⟩, commitOps p s'.graphs file) ∧
      F.load file = .ok s'.dict ∧ Shows Knows (im.load quads b) s' ∧
      im.names.Le (im.names.internQuads quads).2 ∧
      ∀ q ∈ quads, ∃ k, (im.names.internQuads quads).2.keyOf q = some k := by
  rcases loadQuads_spec I quads h.inv h.inv.perGraph_known with ⟨hle, hsame, h₁, hres⟩
  rcases hrun : loadQuads A p.inner p.inner.perGraph quads with ⟨r, s₁⟩
  rw [hrun] at hfits h₁ hres
  cases r with
  | error f => cases hfits
  | ok m =>
    have hnames : (im.names.internQuads quads).1 = .ok () := by
      rw [LoadResult] at hres
      split at hres
      · cases hres
      · next heq => exact heq
    rw [LoadResult, hnames] at hres
    rcases hres with ⟨m', hm, hloaded⟩
    cases hm
    have hr : Ready s₁.dict := hready _ (by rw [stepCompactsAt, hrun])
    rcases P.reload _ _ h₁.knows hr with ⟨d₁, d₂, b, hcomp, hload, hd₂⟩
    have hdict : compactDict A s₁ = (.ok (), { s₁ with dict := d₁ }) := by
      rw [compactDict, hcomp]
    -- the bulk load of the store in memory
    have hmem : LoudsStore.bulkLoad A p.inner quads =
        (.ok quads.length, { s₁ with dict := d₁ }.commitCompaction (buildGraphsFromTriples m) false) := by
      rw [LoudsStore.bulkLoad, hrun]
      simp only [LoudsStore.andThen, hdict]
    rcases bulkLoad_ok I h.inv hnames (P.compactOk _ _ h₁.knows hr) with ⟨s', b', hr', hnext⟩
    rw [hmem] at hr'
    cases hr'
    rw [h.view] at hnext
    have hshows : Shows Knows (im.load quads b)
        ({ s₁ with dict := d₂ }.commitCompaction (buildGraphsFromTriples m) false) :=
      Shows.with_reloaded hnext.shows hd₂
    refine ⟨_, F.save d₁, b, ?_, hload, hshows, hle, hloaded.keys⟩
    rw [bulkLoad, hrun]
    simp only [inMemory, hdict, commitCompaction, hload, andThen, append_nil]
    rfl

end

/-- Every pending write is an insert exactly if its quad is in the rings or among
the loaded quads: then the delta says nothing that the rings of the load do not. -/
def folded (A : DictApi D) (s : LoudsStore D) (quads : List Quad) : Bool :=
  s.delta.iter.all fun e =>
    let (gId, sId, pId, oId) := unpackQuad e.1
    e.2 == (s.ringContains gId sId pId oId || quads.any fun q =>
      match lookupQuad A s.dict q with
      | .ok (some (gId, sId, pId, oId)) => packQuad gId sId pId oId == e.1
      | _ => false)

/-- The insertions of a folded delta are in the new base, its removals are not. -/
theorem folded_spec (I : Implements A Knows CompactOk) {n n' : Names} {s : LoudsStore D}
    (h : Inv Knows n s) (hle : n.Le n') (hf : folded A s quads = true) :
    s.view.inserted ⊆ s.view.base ∪ keysOf n' quads ∧
      Disjoint s.view.removed (s.view.base ∪ keysOf n' quads) := by
  have hlook : ∀ k q₀, n.keyOf q₀ = some k → ((quads.any fun q =>
      match lookupQuad A s.dict q with
      | .ok (some (gId, sId, pId, oId)) => packQuad gId sId pId oId == k
      | _ => false) = true ↔ k ∈ keysOf n' quads) := by
    intro k q₀ hq₀
    rw [any_eq_true, mem_keysOf]
    constructor
    · intro hex
      rcases hex with ⟨q, hq, hmatch⟩
      refine ⟨q, hq, Names.keyOf_of_le hle ?_⟩
      rw [lookupQuad_spec I h.knows] at hmatch
      split at hmatch
      · next g sId pId oId hl =>
        rcases n.lookupQuad_cases q with hr | ⟨-, -, p, hr⟩
        · rw [hl] at hr
          exact Names.keyOf_eq_some.mpr ⟨g, sId, pId, oId, (Except.ok.inj hr).symm, eq_of_beq hmatch⟩
        · rw [hl] at hr
          cases hr
      · cases hmatch
    · intro hex
      rcases hex with ⟨q, hq, hk⟩
      refine ⟨q, hq, ?_⟩
      -- a loaded quad with a pending key is known already
      rw [← Names.keyOf_inj hk (Names.keyOf_of_le hle hq₀)] at hq₀
      rcases Names.keyOf_eq_some.mp hq₀ with ⟨g, sId, pId, oId, hids, hpack⟩
      rw [lookupQuad_spec I h.knows, Names.lookupQuad_known hids]
      simp [hpack]
  have hentry : ∀ k b, s.delta.get k = some b → (b = true ↔ k ∈ s.view.base ∪ keysOf n' quads) := by
    intro k b hk
    rcases h.keys k b hk with ⟨q₀, hq₀⟩
    have hall := all_eq_true.mp hf (k, b) (Delta.mem_iter.mpr hk)
    have hiff := hlook k q₀ hq₀
    rcases Names.keyOf_eq_some.mp hq₀ with ⟨g, sId, pId, oId, -, rfl⟩
    simp only [unpackQuad_packQuad, beq_iff_eq] at hall
    rw [hall, Bool.or_eq_true, Finset.mem_union, h.mem_base, hiff]
  constructor
  · intro k hk
    exact (hentry k true (Delta.mem_marked.mp hk)).mp rfl
  · rw [Finset.disjoint_left]
    intro k hk hin
    have hfalse := (hentry k false (Delta.mem_marked.mp hk)).mpr hin
    cases hfalse

/-! ## The log says what was done -/

/-- The writes are made or skipped as a replay of their records makes or skips
them: all of them succeed, or there is only one. -/
def whole (A : DictApi D) (s : LoudsStore D) (ws : List QuadOp) : Bool :=
  match applyWrites A s ws with
  | (.ok _, _) => true
  | (.error (.err _), _) => decide (ws.length ≤ 1)
  | (.error (.panic _), _) => false

theorem record_recordOf (im : Image) (w : QuadOp) :
    im.record (recordOf w) = ((im.write w).1.map fun _ => (), (im.write w).2) := by
  cases w <;> rfl

theorem spec_record_recordOf (σ : Spec) (w : QuadOp) : σ.record (recordOf w) = (σ.write w).2 := by
  cases w <;> rfl

theorem quiet_recordOf {w : QuadOp} (h : ∀ p, (im.write w).1 ≠ .error (.panic p)) :
    im.Quiet (recordOf w) := by
  intro p hp
  rw [record_recordOf] at hp
  cases hw : (im.write w).1 with
  | ok b =>
    rw [hw] at hp
    cases hp
  | error f =>
    rw [hw] at hp
    cases hp
    exact h p hw

/-- Replaying the records of writes makes the writes. -/
theorem replay_of_writes (ws : List QuadOp) : ∀ {σ : Spec} {im im' : Image} {bs : List Bool},
    Stands σ im → im.writes ws = (.ok bs, im') →
      im.replay (ws.map recordOf) = .ok im' ∧
        (σ.records (ws.map recordOf)).quads = ws.foldl Spec.applyPlain σ.quads := by
  induction ws with
  | nil =>
    intro σ im im' bs _ h
    cases h
    exact ⟨rfl, rfl⟩
  | cons w ws ih =>
    intro σ im im' bs hst h
    rw [Image.writes, Machine.batch] at h
    rcases hw : im.write w with ⟨r, im₁⟩
    rw [hw] at h
    cases r with
    | error f => cases h
    | ok b =>
      have hquiet : ∀ p, (im.write w).1 ≠ .error (.panic p) := by
        intro p hp
        rw [hw] at hp
        cases hp
      rcases hst.write w hquiet with ⟨hans, hnext⟩
      rw [hw] at hans hnext
      simp only at h
      rcases hb : Machine.batch Image.write im₁ ws with ⟨r', im₂⟩
      rw [hb] at h
      cases r' with
      | error f => cases h
      | ok bs' =>
        cases h
        rcases ih hnext hb with ⟨hrep, hquads⟩
        constructor
        · rw [map_cons, Image.replay_cons (quiet_recordOf hquiet), record_recordOf, hw]
          exact hrep
        · show ((σ.record (recordOf w)).records (ws.map recordOf)).quads = _
          rw [spec_record_recordOf, hquads, Spec.write_quads (by rw [← hans]; rfl)]
          rfl

/-- What the log says of a call's writes. -/
theorem replay_of_whole (I : Implements A Knows CompactOk) {s : LoudsStore D} (h : Shows Knows im s)
    (hst : Stands σ im) {ws : List QuadOp} (hw : whole A s ws = true) :
    im.replay (ws.map recordOf) = .ok (im.writes ws).2 ∧
      (σ.records (ws.map recordOf)).quads =
        if (im.writes ws).1.isOk = true then ws.foldl Spec.applyPlain σ.quads else σ.quads := by
  rcases applyWrites_spec I h ws with ⟨s', hr, -⟩
  rw [whole, hr] at hw
  rcases hres : im.writes ws with ⟨r, im'⟩
  rw [hres] at hw
  cases r with
  | ok bs =>
    rcases replay_of_writes ws hst hres with ⟨hrep, hquads⟩
    exact ⟨hrep, by rw [hquads]; rfl⟩
  | error f =>
    cases f with
    | panic p => cases hw
    | err e =>
      -- a single write that fails is skipped
      cases ws with
      | nil => cases hres
      | cons w ws =>
        have hnil : ws = [] := length_eq_zero_iff.mp (by simpa using hw)
        subst hnil
        rw [Image.writes, Machine.batch] at hres
        rcases hone : im.write w with ⟨r₁, im₁⟩
        rw [hone] at hres
        cases r₁ with
        | ok b => cases hres
        | error f =>
          cases hres
          have hquiet : ∀ p, (im.write w).1 ≠ .error (.panic p) := by
            intro p hp
            rw [hone] at hp
            cases hp
          have hans := (hst.write w hquiet).1
          rw [hone] at hans
          constructor
          · rw [map_cons, Image.replay_cons (quiet_recordOf hquiet), record_recordOf, hone]
            rfl
          · show (σ.record (recordOf w)).quads = σ.quads
            rw [spec_record_recordOf]
            exact Spec.write_quads_of_error (by rw [← hans]; rfl)

/-! ## Requests -/

/-- The single writes of a request. -/
def Request.writes : Request → List QuadOp
  | .call c => c.writes
  | .bulkLoad quads => quads.map .insert
  | _ => []

/-- The number of file-system steps after which the writes of a request are in the
directory: the append to the log, or the rename of the MANIFEST. -/
def Request.commitPoint : Request → Nat
  | .bulkLoad _ => 5
  | _ => 1

/-- The request keeps directory and memory together: its records fit the log, its
writes are made as a whole, a bulk load finds nothing pending that it would leave
out, and the dictionary it compacts is ready. -/
def RequestOk (A : DictApi D) (Ready : D → Prop) (p : Persistent D) : Request → Prop
  | .call c => (∀ w ∈ c.writes, PayloadShort (recordOf w)) ∧ whole A p.inner c.writes = true ∧
      ∀ d ∈ stepCompactsAt A p.inner (.call c), Ready d
  | .bulkLoad quads => folded A p.inner quads = true ∧
      (loadQuads A p.inner p.inner.perGraph quads).1.isOk = true ∧
      ∀ d ∈ stepCompactsAt A p.inner (.bulkLoad quads), Ready d
  | .registerNamedGraph g => PayloadShort (.registerGraph g)
  | .setAutoCompactThreshold _ => True

instance [DecidablePred Ready] : (r : Request) → Decidable (RequestOk A Ready p r)
  | .call _ => inferInstanceAs (Decidable (_ ∧ _ ∧ _))
  | .bulkLoad _ => inferInstanceAs (Decidable (_ ∧ _ ∧ _))
  | .registerNamedGraph _ => inferInstanceAs (Decidable (PayloadShort _))
  | .setAutoCompactThreshold _ => inferInstanceAs (Decidable True)

variable {r : Request}

theorem RequestOk.imp {Ready' : D → Prop} (himp : ∀ d, Ready d → Ready' d)
    (h : RequestOk A Ready p r) : RequestOk A Ready' p r := by
  cases r with
  | call c => exact ⟨h.1, h.2.1, fun d hd => himp d (h.2.2 d hd)⟩
  | bulkLoad quads => exact ⟨h.1, h.2.1, fun d hd => himp d (h.2.2 d hd)⟩
  | registerNamedGraph g => exact h
  | setAutoCompactThreshold t => exact h

/-- The set after a request. -/
def Request.after (r : Request) (ok : Bool) (L : Finset Quad) : Finset Quad :=
  if ok = true then r.writes.foldl Spec.applyPlain L else L

/-- A request has done its work on memory and directory, and a crash in it leaves
the directory with the old set or the new one. -/
structure Lands (crc32 : Bytes → UInt32) (F : DictFile D S) (fresh : D) (Knows : D → Names → Prop)
    (dir : Dir Rings S) (σ : Spec) (r : Request) (x : Outcome D S Reply) : Prop where
  serving : ∃ σ', Serving crc32 F fresh Knows x.2.1 (dir.steps x.2.2) σ' ∧
    σ'.quads = r.after x.1.isOk σ.quads
  cut : ∀ k gone, ∃ σ', Held crc32 F fresh Knows (dir.cut x.2.2 k gone) σ' ∧
    σ'.quads = r.after (x.1.isOk && decide (r.commitPoint ≤ k)) σ.quads

theorem foldl_insert (quads : List Quad) (L : Finset Quad) :
    (quads.map QuadOp.insert).foldl Spec.applyPlain L = L ∪ quads.toFinset := by
  induction quads generalizing L with
  | nil => simp
  | cons q quads ih =>
    rw [map_cons, foldl_cons, ih, Spec.applyPlain]
    ext x
    simp only [Finset.mem_union, Finset.mem_insert, mem_toFinset, mem_cons]
    tauto

/-- Steps that change nothing a reader could see, wherever they are cut. -/
structure Steady (crc32 : Bytes → UInt32) (F : DictFile D S) (fresh : D) (Knows : D → Names → Prop)
    (dir : Dir Rings S) (σ : Spec) (p : Persistent D) (ops : List (FsOp Rings S)) : Prop where
  serving : ∃ σ', Serving crc32 F fresh Knows p (dir.steps ops) σ' ∧ σ'.quads = σ.quads
  cut : ∀ k gone, ∃ σ', Held crc32 F fresh Knows (dir.cut ops k gone) σ' ∧ σ'.quads = σ.quads

theorem Serving.steady (h : Serving crc32 F fresh Knows p dir σ) :
    Steady crc32 F fresh Knows dir σ p [] where
  serving := ⟨σ, h, rfl⟩
  cut := by
    intro k gone
    rw [Dir.cut_nil]
    exact ⟨σ, h.held, rfl⟩

theorem Steady.lands_idle {ops : List (FsOp Rings S)} (h : Steady crc32 F fresh Knows dir σ p ops)
    (hw : r.writes = []) (res : Except Fault Reply) : Lands crc32 F fresh Knows dir σ r (res, p, ops) := by
  have hsame : ∀ ok L, r.after ok L = L := by
    intro ok L
    simp [Request.after, hw]
  constructor
  · rw [hsame]
    exact h.serving
  · intro k gone
    rw [hsame]
    exact h.cut k gone

/-- A request that appends its records and then does what changes nothing. -/
theorem Steady.lands_logged {seq : Nat} {bytes : Bytes} {σ₁ : Spec} {ops : List (FsOp Rings S)}
    (h : Steady crc32 F fresh Knows (dir.step (.append seq bytes)) σ₁ p ops)
    (hbefore : Held crc32 F fresh Knows dir σ) (hpoint : r.commitPoint = 1)
    {res : Except Fault Reply} (hquads : σ₁.quads = r.after res.isOk σ.quads) :
    Lands crc32 F fresh Knows dir σ r (res, p, .append seq bytes :: ops) where
  serving := by
    rcases h.serving with ⟨σ', hserv, hq⟩
    exact ⟨σ', hserv, hq.trans hquads⟩
  cut := by
    intro k gone
    match k with
    | 0 => exact ⟨σ, hbefore, by simp [Request.after, hpoint]⟩
    | k + 1 =>
      rcases h.cut k gone with ⟨σ', hheld, hq⟩
      exact ⟨σ', hheld, by simpa [hpoint] using hq.trans hquads⟩

section

variable (I : Implements A Knows CompactOk) (P : Persists A F Knows CompactOk Ready)
include I P

section

variable (h : Serving crc32 F fresh Knows p dir σ)
include h

theorem Serving.compactLocked (hready : Ready p.inner.dict) :
    ∃ p' ops, compactLocked A F p = (.ok (), p', ops) ∧ Steady crc32 F fresh Knows dir σ p' ops := by
  rcases h.memory with ⟨im, hs, hst⟩
  rcases compactLocked_spec I P hs hready with ⟨d₂, file, b, hr, hload, hmem, hbase⟩
  have hst' := hst.compact b
  rcases h.commit_steps hload hbase hst' with ⟨hheld, -, hman, hentries⟩
  refine ⟨_, _, hr, ⟨_, ⟨⟨_, hmem, hst'⟩, hheld, ?_, ?_, _, hentries⟩, rfl⟩, ?_⟩
  · rw [hman]
  · rw [hman]
  · intro k gone
    refine ⟨_, h.commit_cut hload hbase hst' k gone, ?_⟩
    split <;> rfl

theorem Serving.settle {c : Call}
    (hready : c = .compact ∨ c.writes ≠ [] ∧ p.inner.autoDue = true → Ready p.inner.dict) :
    ∃ p' ops, settle A F p c = (.ok (), p', ops) ∧ Steady crc32 F fresh Knows dir σ p' ops := by
  rw [Persistent.settle]
  by_cases hc : c = .compact ∨ c.writes ≠ [] ∧ p.inner.autoDue = true
  · rw [if_pos hc]
    exact h.compactLocked I P (hready hc)
  · rw [if_neg hc]
    exact ⟨p, [], rfl, h.steady⟩

/-- The log of a call replays to the quads that the call leaves in memory. -/
theorem Serving.call_lands {c : Call} (hok : RequestOk A Ready p (.call c)) :
    Lands crc32 F fresh Knows dir σ (.call c) (call crc32 A F p c) := by
  rcases hok with ⟨hshort, hwhole, hready⟩
  rcases h.memory with ⟨im, hs, hst⟩
  rcases applyWrites_spec I hs c.writes with ⟨s₁, hr, hs₁, -⟩
  rcases replay_of_whole I hs hst hwhole with ⟨hrep, hquads⟩
  rw [stepCompactsAt, compactsAt, hr] at hready
  rw [call_eq]
  by_cases hw : c.writes = []
  · -- nothing is logged: a compaction, or a batch without elements
    have hready' : c = .compact ∨ c.writes ≠ [] ∧ p.inner.autoDue = true → Ready p.inner.dict := by
      intro hc
      rw [hw] at hr
      cases hr
      have him : im.writes c.writes = (.ok [], im) := by rw [hw]; rfl
      simp only [him, if_pos hc] at hready
      exact hready _ rfl
    rcases h.settle I P hready' with ⟨p', ops, hset, hsteady⟩
    rw [logWrites, if_pos hw, andThen_ok, hw, applyWrites_nil, inMemory, andThen_ok, hset]
    simp only [andThen, append_nil]
    exact hsteady.lands_idle (r := .call c) hw _
  · -- the records are logged, then applied
    have hshort' : ∀ r ∈ c.writes.map recordOf, PayloadShort r := by
      intro r hr'
      rcases mem_map.mp hr' with ⟨w, hwm, rfl⟩
      exact hshort w hwm
    have happ := h.append hshort' hst hrep hs₁
    rw [logWrites, if_neg hw, walAppend, andThen]
    simp only [inMemory, hr]
    rcases hres : im.writes c.writes with ⟨r, im₁⟩
    rw [hres] at hquads hready
    cases r with
    | error f => exact happ.steady.lands_logged h.held rfl hquads
    | ok bs =>
      have hready' : c = .compact ∨ c.writes ≠ [] ∧ s₁.autoDue = true → Ready s₁.dict := by
        intro hc
        simp only [if_pos hc] at hready
        exact hready _ rfl
      rcases happ.settle I P hready' with ⟨p', ops, hset, hsteady⟩
      simp only [andThen, hset, append_nil]
      exact hsteady.lands_logged h.held rfl hquads

theorem Serving.bulkLoad_lands
    (hok : RequestOk A Ready p (.bulkLoad quads)) : Lands crc32 F fresh Knows dir σ (.bulkLoad quads)
      (andThen (bulkLoad A F p quads) fun c p => (.ok (.count c), p, [])) := by
  rcases hok with ⟨hfold, hfits, hready⟩
  rcases h.memory with ⟨im, hs, hst⟩
  rcases bulkLoad_spec I P hs hfits hready with ⟨s', file, b, hr, hload, hmem, hle, hkeys⟩
  rcases folded_spec I hs.inv hle hfold with ⟨hins, hrem⟩
  rw [hs.view] at hins hrem
  rcases live_folded hins hrem with ⟨hlive, hbase⟩
  -- memory and snapshot stand for the same set
  have hnames : σ.names.Le ((im.names.internQuads quads).2.withSealed b) := by
    rw [← hst.names]
    exact hle.trans (Names.le_withSealed _ b)
  have hst₁ : Stands ⟨(im.names.internQuads quads).2.withSealed b, σ.quads ∪ quads.toFinset⟩
      (im.load quads b) := hst.union hnames hkeys hlive
  have hsnap := hmem.of_snapshot
  have hst₂ : Stands ⟨(im.names.internQuads quads).2.withSealed b, σ.quads ∪ quads.toFinset⟩
      ⟨(im.load quads b).names, ⟨(im.load quads b).view.base, ∅, ∅, Finset.disjoint_empty_left _⟩⟩ := by
    apply hst.union hnames hkeys
    rw [Overlay.live, Finset.union_empty, Finset.sdiff_empty]
    exact hbase
  rcases h.commit_steps hload hsnap hst₂ with ⟨hheld, -, hman, hentries⟩
  rw [hr]
  simp only [andThen, append_nil]
  constructor
  · refine ⟨_, ⟨⟨_, hmem, hst₁⟩, hheld, ?_, ?_, _, hentries⟩, ?_⟩
    · rw [hman]
    · rw [hman]
    · exact (foldl_insert quads σ.quads).symm
  · intro k gone
    refine ⟨_, h.commit_cut hload hsnap hst₂ k gone, ?_⟩
    by_cases hk : k < 5
    · rw [if_pos hk, decide_eq_false (show ¬(Request.bulkLoad quads).commitPoint ≤ k from Nat.not_le.mpr hk),
        Bool.and_false]
      rfl
    · rw [if_neg hk, decide_eq_true (show (Request.bulkLoad quads).commitPoint ≤ k from Nat.not_lt.mp hk),
        Bool.and_true]
      exact (foldl_insert quads σ.quads).symm

end

omit P in
theorem Serving.register_lands (h : Serving crc32 F fresh Knows p dir σ) {g : GraphName}
    (hok : RequestOk A Ready p (.registerNamedGraph g)) :
    Lands crc32 F fresh Knows dir σ (.registerNamedGraph g)
      (andThen (registerNamedGraph crc32 A p g) fun _ p => (.ok .done, p, [])) := by
  cases g with
  | defaultGraph => exact h.steady.lands_idle rfl _
  | blankNode b => exact h.steady.lands_idle rfl _
  | namedNode n =>
    rcases h.memory with ⟨im, hs, hst⟩
    rcases applyRecord_spec I hs (.registerGraph (.namedNode n)) with ⟨s', hr, hs'⟩
    have hquiet : im.Quiet (.registerGraph (.namedNode n)) := by
      intro pn hp
      rw [Image.record] at hp
      cases hg : (im.names.internGraph (.namedNode n)).1 with
      | ok g =>
        rw [hg] at hp
        cases hp
      | error e =>
        rw [hg] at hp
        cases hp
    have hrep : im.replay [.registerGraph (.namedNode n)] =
        .ok (im.record (.registerGraph (.namedNode n))).2 := by
      rw [Image.replay_cons hquiet]
      rfl
    have hshort : ∀ r ∈ [WalRecord.registerGraph (.namedNode n)], PayloadShort r := by
      intro r hr'
      rw [mem_singleton.mp hr']
      exact hok
    have happ := h.append hshort hst hrep hs'
    rw [applyRecord] at hr
    rw [registerNamedGraph, walAppend, andThen]
    simp only [inMemory, hr]
    have hquads : ∀ res : Except Fault Reply,
        (σ.records [.registerGraph (.namedNode n)]).quads =
          (Request.registerNamedGraph (.namedNode n)).after res.isOk σ.quads := by
      intro res
      rw [Request.after]
      split <;> rfl
    cases (im.record (.registerGraph (.namedNode n))).1 with
    | ok _ =>
      simp only [andThen, append_nil]
      exact happ.steady.lands_logged h.held rfl (hquads _)
    | error f =>
      simp only [andThen, append_nil]
      exact happ.steady.lands_logged h.held rfl (hquads _)

theorem Serving.request_lands (h : Serving crc32 F fresh Knows p dir σ) (hok : RequestOk A Ready p r) :
    Lands crc32 F fresh Knows dir σ r (request crc32 A F p r) := by
  cases r with
  | call c => exact h.call_lands I P hok
  | bulkLoad quads => exact h.bulkLoad_lands I P hok
  | registerNamedGraph g => exact h.register_lands I hok
  | setAutoCompactThreshold t =>
    rcases h.memory with ⟨im, hs, hst⟩
    have hserv : Serving crc32 F fresh Knows
        { p with inner := { p.inner with autoCompactThreshold := some t } } dir σ :=
      ⟨⟨im, hs.with_auto _, hst⟩, h.held, h.gen, h.seq, h.segment⟩
    exact hserv.steady.lands_idle rfl _

end

end Persistent

namespace Site

open LoudsStore Persistent

variable {D S : Type} {crc32 : Bytes → UInt32} {A : DictApi D} {F : DictFile D S} {fresh : D}
variable {Knows : D → Names → Prop} {CompactOk : Names → Prop} {Ready : D → Prop}

/-! ## Runs of a site -/

/-- The quads of the acknowledged writes. A request that a crash cuts is never
acknowledged; it counts if its writes had reached the log, or its bulk load the
MANIFEST. -/
def account (crc32 : Bytes → UInt32) (A : DictApi D) (F : DictFile D S) (site : Site D S) (a : Action)
    (L : Finset Quad) : Finset Quad :=
  match site.process, a with
  | some p, .request r => r.after (request crc32 A F p r).1.isOk L
  | some p, .crash r k _ => r.after ((request crc32 A F p r).1.isOk && decide (r.commitPoint ≤ k)) L
  | _, _ => L

/-- A site together with the quads of its acknowledged writes. -/
def tracked (crc32 : Bytes → UInt32) (A : DictApi D) (F : DictFile D S) (fresh : D) :
    Machine (Site D S × Finset Quad) Action Fault (Option Reply) := fun st a =>
  ((step crc32 A F fresh st.1 a).1, (step crc32 A F fresh st.1 a).2, account crc32 A F st.1 a st.2)

/-- The action keeps the acknowledged writes: a request as in `RequestOk`, and an
opening whose cleanup deletes no records that the MANIFEST asks for. -/
def Sound (A : DictApi D) (Ready : D → Prop) (st : Site D S × Finset Quad) (a : Action) : Prop :=
  match st.1.process, a with
  | some p, .request r => RequestOk A Ready p r
  | some p, .crash r _ _ => RequestOk A Ready p r
  | none, .openDir => openKeepsLog st.1.dir = true
  | none, .crashOpening k _ => 0 < k → openKeepsLog st.1.dir = true
  | _, _ => True

instance [DecidablePred Ready] : (st : Site D S × Finset Quad) → (a : Action) →
    Decidable (Sound A Ready st a)
  | (⟨_, some p⟩, _), .request r => inferInstanceAs (Decidable (RequestOk A Ready p r))
  | (⟨_, some p⟩, _), .crash r _ _ => inferInstanceAs (Decidable (RequestOk A Ready p r))
  | (⟨_, some _⟩, _), .close => inferInstanceAs (Decidable True)
  | (⟨_, some _⟩, _), .openDir => inferInstanceAs (Decidable True)
  | (⟨_, some _⟩, _), .crashOpening _ _ => inferInstanceAs (Decidable True)
  | (⟨_, none⟩, _), .request _ => inferInstanceAs (Decidable True)
  | (⟨_, none⟩, _), .crash _ _ _ => inferInstanceAs (Decidable True)
  | (⟨_, none⟩, _), .close => inferInstanceAs (Decidable True)
  | (⟨dir, none⟩, _), .openDir => inferInstanceAs (Decidable (openKeepsLog dir = true))
  | (⟨dir, none⟩, _), .crashOpening k _ => inferInstanceAs (Decidable (0 < k → openKeepsLog dir = true))

variable {st : Site D S × Finset Quad}

variable {a : Action}

theorem Sound.imp {Ready' : D → Prop} (himp : ∀ d, Ready d → Ready' d)
    (h : Sound A Ready st a) : Sound A Ready' st a := by
  rcases st with ⟨⟨dir, process⟩, L⟩
  cases process with
  | some p => cases a <;> first | exact RequestOk.imp himp h | trivial
  | none => cases a <;> exact h

/-- The directory recovers to these quads, and a process serves them. -/
def Settled (crc32 : Bytes → UInt32) (F : DictFile D S) (fresh : D) (Knows : D → Names → Prop)
    (st : Site D S × Finset Quad) : Prop :=
  ∃ σ : Spec, σ.quads = st.2 ∧
    match st.1.process with
    | some p => Serving crc32 F fresh Knows p st.1.dir σ
    | none => Held crc32 F fresh Knows st.1.dir σ

theorem held_empty (h : Knows fresh .empty) : Held crc32 F fresh Knows (.empty : Dir Rings S) .empty :=
  ⟨LoudsStore.new fresh, .empty, [], .empty, rfl, shows_new h none, rfl, by simp, rfl, stands_empty⟩

theorem settled_empty (h : Knows fresh .empty) :
    Settled crc32 F fresh Knows ((.empty : Site D S), ∅) :=
  ⟨.empty, rfl, held_empty h⟩

section

variable (I : Implements A Knows CompactOk) (P : Persists A F Knows CompactOk Ready)
include I P

theorem Settled.step (h : Settled crc32 F fresh Knows st)
    (ha : Sound A Ready st a) : Settled crc32 F fresh Knows (tracked crc32 A F fresh st a).2 := by
  rcases st with ⟨⟨dir, process⟩, L⟩
  rcases h with ⟨σ, rfl, h⟩
  cases process with
  | some p =>
    have hlands : ∀ r, RequestOk A Ready p r →
        Lands crc32 F fresh Knows dir σ r (request crc32 A F p r) := fun r hr =>
      Serving.request_lands I P h hr
    cases a with
    | request r =>
      rcases (hlands r ha).serving with ⟨σ', hserv, hq⟩
      exact ⟨σ', hq, hserv⟩
    | crash r k gone =>
      rcases (hlands r ha).cut k gone with ⟨σ', hheld, hq⟩
      exact ⟨σ', hq, hheld⟩
    | close => exact ⟨σ, rfl, h.held⟩
    | openDir => exact ⟨σ, rfl, h⟩
    | crashOpening k gone => exact ⟨σ, rfl, h⟩
  | none =>
    cases a with
    | request r => exact ⟨σ, rfl, h⟩
    | crash r k gone => exact ⟨σ, rfl, h⟩
    | close => exact ⟨σ, rfl, h⟩
    | openDir =>
      rcases h.serving I ha with ⟨p, hr, hserv⟩
      refine ⟨σ, rfl, ?_⟩
      simp only [tracked, Site.step, hr]
      exact hserv
    | crashOpening k gone =>
      rcases h.openDir I with ⟨s', hr, -⟩
      refine ⟨σ, rfl, ?_⟩
      simp only [tracked, Site.step, hr]
      exact h.openDir_cut k gone ha

theorem settled_run {actions : List Action} (hfresh : Knows fresh .empty)
    (h : Machine.Meets (tracked crc32 A F fresh) (Sound A Ready) ((.empty : Site D S), ∅) actions) :
    Settled crc32 F fresh Knows
      (Machine.run (tracked crc32 A F fresh) ((.empty : Site D S), ∅) actions).2 :=
  Machine.run_inv (J := Settled crc32 F fresh Knows) (fun _ _ hs ha => hs.step I P ha)
    (settled_empty hfresh) h

end

theorem Settled.held (h : Settled crc32 F fresh Knows st) :
    ∃ σ : Spec, σ.quads = st.2 ∧ Held crc32 F fresh Knows st.1.dir σ := by
  rcases st with ⟨⟨dir, process⟩, L⟩
  rcases h with ⟨σ, hq, h⟩
  cases process with
  | some p => exact ⟨σ, hq, h.held⟩
  | none => exact ⟨σ, hq, h⟩

theorem liveSet_of_stands (I : Implements A Knows CompactOk) {s : LoudsStore D} {σ : Spec}
    (h : ∃ im, Shows Knows im s ∧ Stands σ im) : LiveSet A s = Quad.stored '' { q | q ∈ σ.quads } := by
  rcases h with ⟨im, hs, hst⟩
  rw [liveSet_eq I hs.inv]
  simp only [hst.live_iff hs]

section Source

open Dictionary DictCompact

variable {bs : Nat}

/-- The dictionary file of the source. -/
def dictFile : DictFile Dictionary DictSnapshot := ⟨toSnapshot, fromSnapshot⟩

/-- The dictionary can be compacted, and its graph names fit their offsets. -/
def DictReady (bs : Nat) (d : Dictionary) : Prop := CompactSafe bs d ∧ d.GraphsFit

theorem persists (hbs : 0 < bs) :
    Persists (api bs) dictFile (Dictionary.Knows bs) (NamesSafe bs) (DictReady bs) where
  compactOk := fun d n h hr => h.namesSafe hbs hr.1
  reload := by
    intro d n h hr
    rcases h.terms.compact_spec hbs hr.1 with ⟨d₁, hcomp, hrep, hsame, hfresh⟩
    have hknows : Dictionary.Knows bs d₁ (n.withSealed (decide (d₁.compacted.encodedCount ≠ 0))) :=
      ⟨hrep, hsame.graphsOf h.graphs, rfl⟩
    have hfit : d₁.GraphsFit := by
      unfold GraphsFit graphStrs
      rw [hsame.2.1]
      exact hr.2
    rcases fromSnapshot_toSnapshot hknows hbs hfresh hfit with ⟨d₂, hload, hd₂⟩
    exact ⟨d₁, d₂, _, hcomp, hload, hd₂⟩

/-- A decidable way to be ready: at most one block of entries. -/
def readyBlock (bs : Nat) (d : Dictionary) : Bool :=
  fitsBlock bs d && decide (d.graphStrs.flatten.length < 2 ^ 32)

theorem dictReady_of_block {d : Dictionary} (h : readyBlock bs d = true) : DictReady bs d := by
  rw [readyBlock, Bool.and_eq_true, decide_eq_true_iff] at h
  exact ⟨compactSafe_of_fitsBlock h.1, h.2⟩

/-- After every run of sound actions, whatever was cut and however often it was
opened in between, the directory opens to the quads of the acknowledged writes. -/
theorem open_recovers_acknowledged (hbs : 0 < bs) {actions : List Action}
    (h : Machine.Meets (tracked crc32 (api bs) dictFile (Dictionary.new bs))
      (Sound (api bs) (DictReady bs)) (.empty, ∅) actions)
    {site : Site Dictionary DictSnapshot} {acknowledged : Finset Quad}
    (hrun : (Machine.run (tracked crc32 (api bs) dictFile (Dictionary.new bs)) (.empty, ∅) actions).2 =
      (site, acknowledged)) :
    ∃ p ops, openDir crc32 (api bs) dictFile (Dictionary.new bs) site.dir = (.ok p, ops) ∧
      LiveSet (api bs) p.inner = Quad.stored '' { q | q ∈ acknowledged } := by
  have hsettled := settled_run (implements hbs) (persists hbs) (knows_new bs) h
  rw [hrun] at hsettled
  rcases hsettled.held with ⟨σ, hq, hheld⟩
  rcases hheld.openDir (implements hbs) with ⟨s', hr, hs'⟩
  refine ⟨_, _, hr, ?_⟩
  rw [liveSet_of_stands (implements hbs) hs', hq]

/-- A compaction is cut before it creates a segment, a later one in its cleanup,
and the opening after that in its own. -/
def crashes : List Action :=
  [.openDir, .request (.call (.insert (sampleQuad "a"))), .crash (.call .compact) 2 (fun _ => false),
    .openDir, .request (.call (.remove (sampleQuad "a"))),
    .request (.call (.extendBoxed [sampleQuad "b", sampleQuad "c"])),
    .crash (.call .compact) 5 (fun f => f = .snapshot 0), .crashOpening 1 (fun _ => true)]

/-- Over a run with crashes. -/
theorem open_recovers_acknowledged_crashes :
    ∃ p ops, openDir Wal.crc32 (api sourceBlockSize) dictFile (Dictionary.new sourceBlockSize)
        (Machine.run (tracked Wal.crc32 (api sourceBlockSize) dictFile (Dictionary.new sourceBlockSize))
          (.empty, ∅) crashes).2.1.dir = (.ok p, ops) ∧
      LiveSet (api sourceBlockSize) p.inner =
        Quad.stored '' { q | q ∈ ({sampleQuad "b", sampleQuad "c"} : Finset Quad) } := by
  have hmeets : Machine.Meets
      (tracked Wal.crc32 (api sourceBlockSize) dictFile (Dictionary.new sourceBlockSize))
      (Sound (api sourceBlockSize) fun d => readyBlock sourceBlockSize d = true) (.empty, ∅) crashes := by
    decide +kernel
  have hsound := hmeets.imp (Q := Sound (api sourceBlockSize) (DictReady sourceBlockSize))
    fun st a ha => ha.imp fun d hd => dictReady_of_block hd
  have hquads : (Machine.run
      (tracked Wal.crc32 (api sourceBlockSize) dictFile (Dictionary.new sourceBlockSize))
      (.empty, ∅) crashes).2.2 = {sampleQuad "b", sampleQuad "c"} := by
    decide +kernel
  generalize hrun : (Machine.run
    (tracked Wal.crc32 (api sourceBlockSize) dictFile (Dictionary.new sourceBlockSize))
    (.empty, ∅) crashes).2 = st at hquads ⊢
  rcases st with ⟨site, acknowledged⟩
  rw [← show acknowledged = {sampleQuad "b", sampleQuad "c"} from hquads]
  exact open_recovers_acknowledged (by decide) hsound hrun

/-- A crash between the new segment and the MANIFEST: the next opening replays both
segments and deletes the first, which the MANIFEST still asks for. The opening
after that finds nothing. -/
theorem reopening_loses_acknowledged :
    ¬∀ (actions : List Action) (site : Site Dictionary DictSnapshot) (acknowledged : Finset Quad),
      (Machine.run (tracked Wal.crc32 (api sourceBlockSize) dictFile (Dictionary.new sourceBlockSize))
        (.empty, ∅) actions).2 = (site, acknowledged) →
      ∃ p ops, openDir Wal.crc32 (api sourceBlockSize) dictFile (Dictionary.new sourceBlockSize)
          site.dir = (.ok p, ops) ∧
        LiveSet (api sourceBlockSize) p.inner = Quad.stored '' { q | q ∈ acknowledged } := by
  intro hclaim
  generalize hrun : (Machine.run
    (tracked Wal.crc32 (api sourceBlockSize) dictFile (Dictionary.new sourceBlockSize)) (.empty, ∅)
    [.openDir, .request (.call (.insert (sampleQuad "a"))), .crash (.call .compact) 3 (fun _ => false),
      .openDir, .close]).2 = st
  have hack : st.2 = {sampleQuad "a"} := by
    rw [← hrun]
    decide +kernel
  have hread : ((openDir Wal.crc32 (api sourceBlockSize) dictFile (Dictionary.new sourceBlockSize)
      st.1.dir).1.toOption.map fun p => readAll (api sourceBlockSize) p.inner) = some (some []) := by
    rw [← hrun]
    decide +kernel
  rcases hclaim _ st.1 st.2 hrun with ⟨p, ops, hopen, hlive⟩
  simp only [hopen, Except.toOption, Option.map_some, Option.some.injEq] at hread
  rw [liveSet_of_readAll hread, hack] at hlive
  have hmem : (sampleQuad "a").stored ∈ { sq | sq ∈ ([] : List StoredQuad) } := by
    rw [hlive]
    apply Set.mem_image_of_mem
    rw [Set.mem_ofPred_eq, Finset.mem_singleton]
  cases hmem

end Source

/-! ## Runs without crashes -/

/-- No crash, and every request keeps directory and memory together. -/
def SoundCalls (A : DictApi D) (Ready : D → Prop) (site : Site D S) (a : Action) : Prop :=
  match site.process, a with
  | some p, .request r => RequestOk A Ready p r
  | _, .crash _ _ _ => False
  | _, .crashOpening _ _ => False
  | _, _ => True

instance [DecidablePred Ready] : (site : Site D S) → (a : Action) → Decidable (SoundCalls A Ready site a)
  | ⟨_, some p⟩, .request r => inferInstanceAs (Decidable (RequestOk A Ready p r))
  | ⟨_, some _⟩, .crash _ _ _ => inferInstanceAs (Decidable False)
  | ⟨_, some _⟩, .close => inferInstanceAs (Decidable True)
  | ⟨_, some _⟩, .openDir => inferInstanceAs (Decidable True)
  | ⟨_, some _⟩, .crashOpening _ _ => inferInstanceAs (Decidable False)
  | ⟨_, none⟩, .request _ => inferInstanceAs (Decidable True)
  | ⟨_, none⟩, .crash _ _ _ => inferInstanceAs (Decidable False)
  | ⟨_, none⟩, .close => inferInstanceAs (Decidable True)
  | ⟨_, none⟩, .openDir => inferInstanceAs (Decidable True)
  | ⟨_, none⟩, .crashOpening _ _ => inferInstanceAs (Decidable False)

theorem SoundCalls.imp {Ready' : D → Prop} (himp : ∀ d, Ready d → Ready' d) {site : Site D S}
    (h : SoundCalls A Ready site a) : SoundCalls A Ready' site a := by
  rcases site with ⟨dir, process⟩
  cases process with
  | some p => cases a <;> first | exact RequestOk.imp himp h | exact h
  | none => cases a <;> exact h

/-- A site that was never cut: the next opening deletes nothing that is needed. -/
structure Uncut (crc32 : Bytes → UInt32) (F : DictFile D S) (fresh : D) (Knows : D → Names → Prop)
    (site : Site D S) : Prop where
  settled : ∃ L, Settled crc32 F fresh Knows (site, L)
  keepsLog : openKeepsLog site.dir = true

theorem uncut_empty (h : Knows fresh .empty) : Uncut crc32 F fresh Knows (.empty : Site D S) :=
  ⟨⟨∅, settled_empty h⟩, rfl⟩

section

variable (I : Implements A Knows CompactOk) (P : Persists A F Knows CompactOk Ready)
include I P

theorem Uncut.step {site : Site D S} (h : Uncut crc32 F fresh Knows site)
    (ha : SoundCalls A Ready site a) : Uncut crc32 F fresh Knows (step crc32 A F fresh site a).2 := by
  rcases h with ⟨⟨L, hset⟩, hkeeps⟩
  rcases site with ⟨dir, process⟩
  have hsound : Sound A Ready (⟨dir, process⟩, L) a := by
    cases process with
    | some p => cases a <;> first | exact ha | trivial
    | none => cases a <;> first | exact hkeeps | exact ha.elim | trivial
  have hnext := hset.step I P hsound
  refine ⟨⟨_, hnext⟩, ?_⟩
  -- after a request or an opening there is a process; otherwise nothing has changed
  cases process with
  | some p =>
    cases a with
    | request r =>
      rcases hnext with ⟨σ, -, hserv⟩
      exact hserv.keepsLog
    | crash r k gone => exact ha.elim
    | crashOpening k gone => exact ha.elim
    | close => exact hkeeps
    | openDir => exact hkeeps
  | none =>
    cases a with
    | request r => exact hkeeps
    | crash r k gone => exact ha.elim
    | crashOpening k gone => exact ha.elim
    | close => exact hkeeps
    | openDir =>
      rcases hset with ⟨σ, -, hheld⟩
      rcases Held.serving I hheld hkeeps with ⟨p, hr, hserv⟩
      simp only [Site.step, hr]
      exact hserv.keepsLog

end

section Source

open Dictionary DictCompact

variable {bs : Nat}

/-- In every run without crashes whose requests keep directory and memory
together, opening the directory again gives the quads that the process shows. -/
theorem reopen_keeps_live_set (hbs : 0 < bs) {actions : List Action}
    (h : Machine.Meets (step crc32 (api bs) dictFile (Dictionary.new bs))
      (SoundCalls (api bs) (DictReady bs)) .empty actions)
    {dir : Dir Rings DictSnapshot} {p : Persistent Dictionary}
    (hrun : (Machine.run (step crc32 (api bs) dictFile (Dictionary.new bs)) .empty actions).2 =
      ⟨dir, some p⟩) :
    ∃ p' ops, openDir crc32 (api bs) dictFile (Dictionary.new bs) dir = (.ok p', ops) ∧
      LiveSet (api bs) p'.inner = LiveSet (api bs) p.inner := by
  have I := implements hbs
  have huncut := Machine.run_inv (J := Uncut crc32 dictFile (Dictionary.new bs) (Dictionary.Knows bs))
    (fun _ _ hs ha => hs.step I (persists hbs) ha) (uncut_empty (knows_new bs)) h
  rw [hrun] at huncut
  rcases huncut.settled with ⟨L, σ, -, hserv⟩
  rcases hserv.held.openDir I with ⟨s', hr, hs'⟩
  refine ⟨_, _, hr, ?_⟩
  rw [liveSet_of_stands I hs', liveSet_of_stands I hserv.memory]

/-- A bulk load that brings a pending quad with it, and a second process. -/
def sessions : List Action :=
  [.openDir, .request (.call (.insert (sampleQuad "a"))), .request (.call .compact),
    .request (.call (.insert (sampleQuad "b"))), .request (.bulkLoad [sampleQuad "b", sampleQuad "c"]),
    .request (.call (.remove (sampleQuad "c"))), .close, .openDir,
    .request (.registerNamedGraph (.namedNode ⟨"http://ex/g"⟩)),
    .request (.call (.insert (sampleQuad "d")))]

/-- Over two sessions. -/
theorem reopen_keeps_live_set_sessions :
    ∃ dir p, (Machine.run (step Wal.crc32 (api sourceBlockSize) dictFile (Dictionary.new sourceBlockSize))
        .empty sessions).2 = ⟨dir, some p⟩ ∧
      ∃ p' ops, openDir Wal.crc32 (api sourceBlockSize) dictFile (Dictionary.new sourceBlockSize) dir =
          (.ok p', ops) ∧
        LiveSet (api sourceBlockSize) p'.inner = LiveSet (api sourceBlockSize) p.inner := by
  have hmeets : Machine.Meets
      (step Wal.crc32 (api sourceBlockSize) dictFile (Dictionary.new sourceBlockSize))
      (SoundCalls (api sourceBlockSize) fun d => readyBlock sourceBlockSize d = true) .empty
      sessions := by
    decide +kernel
  have hsound := hmeets.imp (Q := SoundCalls (api sourceBlockSize) (DictReady sourceBlockSize))
    fun st a ha => ha.imp fun d hd => dictReady_of_block hd
  have hup : (Machine.run
      (step Wal.crc32 (api sourceBlockSize) dictFile (Dictionary.new sourceBlockSize)) .empty
      sessions).2.process.isSome = true := by
    decide +kernel
  generalize hrun : (Machine.run
    (step Wal.crc32 (api sourceBlockSize) dictFile (Dictionary.new sourceBlockSize)) .empty
    sessions).2 = site at hup
  rcases site with ⟨dir, process⟩
  cases process with
  | none => cases hup
  | some p => exact ⟨dir, p, rfl, reopen_keeps_live_set (by decide) hsound hrun⟩

/-- A quad is pending, another one is bulk loaded: the new segment does not have the
first one and neither has the snapshot. -/
theorem reopen_after_bulkLoad_loses_pending :
    ¬∀ (actions : List Action) (dir : Dir Rings DictSnapshot) (p : Persistent Dictionary),
      (Machine.run (step Wal.crc32 (api sourceBlockSize) dictFile (Dictionary.new sourceBlockSize))
        .empty actions).2 = ⟨dir, some p⟩ →
      ∃ p' ops, openDir Wal.crc32 (api sourceBlockSize) dictFile (Dictionary.new sourceBlockSize) dir =
          (.ok p', ops) ∧
        LiveSet (api sourceBlockSize) p'.inner = LiveSet (api sourceBlockSize) p.inner := by
  intro hclaim
  generalize hrun : (Machine.run
    (step Wal.crc32 (api sourceBlockSize) dictFile (Dictionary.new sourceBlockSize)) .empty
    [.openDir, .request (.call (.insert (sampleQuad "a"))),
      .request (.bulkLoad [sampleQuad "b"])]).2 = site
  have hshown : (site.process.map fun p => readAll (api sourceBlockSize) p.inner) =
      some (some [(sampleQuad "a").stored, (sampleQuad "b").stored]) := by
    rw [← hrun]
    decide +kernel
  have hread : ((openDir Wal.crc32 (api sourceBlockSize) dictFile (Dictionary.new sourceBlockSize)
      site.dir).1.toOption.map fun p => readAll (api sourceBlockSize) p.inner) =
        some (some [(sampleQuad "b").stored]) := by
    rw [← hrun]
    decide +kernel
  rcases site with ⟨dir, process⟩
  cases process with
  | none => cases hshown
  | some p =>
    rcases hclaim _ dir p hrun with ⟨p', ops, hopen, hlive⟩
    simp only [hopen, Except.toOption, Option.map_some, Option.some.injEq] at hread hshown
    rw [liveSet_of_readAll hread, liveSet_of_readAll hshown] at hlive
    have hmem : (sampleQuad "a").stored ∈ { sq | sq ∈ [(sampleQuad "b").stored] } := by
      rw [hlive]
      exact mem_cons_self
    exact absurd hmem (by decide)

end Source

end Site

end Nova
