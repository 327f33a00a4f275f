import Nova.Louds.Durability
import Nova.Ring.Persist
import Nova.Storage.Segments

/-!
# What a directory of the ring store recovers to

`Held dir σ`: opening the directory gives a store that stands for `σ`. It depends on the
MANIFEST, on the files of the generation it names and on the segments from its segment on
(`Held.congr`). The operations of a compaction before the rename of the MANIFEST change
none of these (`Waiting.step`), however many there are and in whatever order the graphs
come, so a compaction can be cut or give up there (`Serving.gaveUp`).

From the rename on, opening finds whatever images the new generation has. These are the
images just written (`Staged.commit`), unless an unfinished compaction has left one of a
graph that has no triples any more: `leftoversLive` excludes that. `Serving.compactLocked`
puts the parts together.

`Serving p dir σ` is the invariant of a process. A compaction that gave up leaves a
segment behind, which is empty; the active one need not be the last.
-/

namespace Nova

open Nova.Lib Nova.Ring List
open Wal (WalRecord PayloadShort Logged)

/-! ## Replays over dictionaries that are not sealed -/

theorem Spec.record_sealedAs (σ : Spec) (b : Bool) (rec : WalRecord) :
    (σ.sealedAs b).record rec = (σ.record rec).sealedAs b := by
  cases rec with
  | insertQuad q =>
    rw [Spec.record, Spec.record, Spec.write_sealedAs]
  | removeQuad q => rfl
  | registerGraph g =>
    cases g with
    | namedNode n =>
      simp only [Spec.record, Spec.sealedAs, Names.internGraph_withSealed]
    | defaultGraph => rfl
    | blankNode b => rfl

theorem Spec.record_isSealed (σ : Spec) (rec : WalRecord) : (σ.record rec).names.isSealed = σ.names.isSealed := by
  cases rec with
  | insertQuad q =>
    have hsame := σ.names.internQuad_isSealed q
    rw [Spec.record, Spec.write]
    rcases hn : σ.names.internQuad q with ⟨_ | ids, n⟩
    · rw [hn] at hsame
      exact hsame
    · rw [hn] at hsame
      exact hsame
  | removeQuad q => rfl
  | registerGraph g =>
    cases g with
    | namedNode n => exact σ.names.internGraph_isSealed (.namedNode n)
    | defaultGraph => rfl
    | blankNode b => rfl

theorem Spec.records_isSealed (rs : List WalRecord) (σ : Spec) :
    (σ.records rs).names.isSealed = σ.names.isSealed := by
  induction rs generalizing σ with
  | nil => rfl
  | cons rec rs ih => exact (ih _).trans (σ.record_isSealed rec)

variable {b : Bool}

theorem Spec.sealedAs_self {σ : Spec} (h : σ.names.isSealed = b) : σ.sealedAs b = σ := by
  subst h
  rfl

theorem Image.quiet_of_unsealed {im : Image} (h : im.names.isSealed = false) (rec : WalRecord) : im.Quiet rec := by
  intro p hp
  cases rec with
  | insertQuad q =>
    rw [Image.record, Image.write] at hp
    rcases hn : im.names.internQuad q with ⟨_ | ids, n⟩
    · rw [hn] at hp
      cases hp
    · rw [hn] at hp
      cases hp
  | removeQuad q =>
    rw [Image.record, Image.write, Names.lookupQuad_unsealed h] at hp
    cases hids : im.names.quadIds q with
    | none =>
      rw [hids] at hp
      cases hp
    | some ids =>
      rw [hids] at hp
      cases hp
  | registerGraph g =>
    cases g with
    | namedNode n =>
      rw [Image.record] at hp
      rcases hn : im.names.internGraph (.namedNode n) with ⟨_ | id, n'⟩
      · rw [hn] at hp
        cases hp
      · rw [hn] at hp
        cases hp
    | defaultGraph => cases hp
    | blankNode b => cases hp

/-- Records that are replayed on one image of a set are replayed on another one whose
dictionary is not sealed, or sealed as well. -/
theorem LoudsStore.Stands.replay_looser {σ : Spec} (rs : List WalRecord) {im im₀ im' : Image}
    (h : LoudsStore.Stands σ im) (h₀ : LoudsStore.Stands (σ.sealedAs b) im₀)
    (hb : b = true → σ.names.isSealed = true) (hrep : im.replay rs = .ok im') :
    ∃ im₁, im₀.replay rs = .ok im₁ ∧ LoudsStore.Stands ((σ.records rs).sealedAs b) im₁ := by
  cases b with
  | true =>
    rw [Spec.sealedAs_self (hb rfl)] at h₀
    rw [Spec.sealedAs_self ((Spec.records_isSealed rs σ).trans (hb rfl))]
    exact (h.replay rs h₀ hrep).2
  | false =>
    clear h hrep hb
    induction rs generalizing σ im₀ with
    | nil => exact ⟨im₀, rfl, h₀⟩
    | cons rec rs ih =>
      have hquiet : im₀.Quiet rec := by
        apply Image.quiet_of_unsealed
        rw [h₀.names]
        rfl
      have hnext := h₀.record hquiet
      rw [Spec.record_sealedAs] at hnext
      rcases ih hnext with ⟨im₁, hr, h₁⟩
      exact ⟨im₁, (Image.replay_cons hquiet rs).trans hr, h₁⟩

variable {m : GraphMap (List Row)}

namespace RingStore

open LoudsStore (Shows Stands)

variable {D S : Type} {A : DictApi D} {Knows : D → Names → Prop} {CompactOk : Names → Prop}
variable {r : RingStore D} {s : LoudsStore D} {im im' : Image}

/-! ## Stores and images -/

/-- The ring store runs in step with a LOUDS store that shows the image. -/
def Shown (Knows : D → Names → Prop) (im : Image) (r : RingStore D) : Prop := ∃ s, Mirrors r s ∧ Shows Knows im s

theorem shown_new {d : D} (h : Knows d .empty) : Shown Knows .empty (new d) := by
  refine ⟨{ LoudsStore.new d with autoCompactThreshold := none }, ⟨rfl, rfl, ?_, rfl⟩, LoudsStore.shows_new h none⟩
  intro g
  simp [new, LoudsStore.new, SameGraph]

theorem Shown.knows (h : Shown Knows im r) : Knows r.dict im.names := by
  rcases h with ⟨s, hmir, hs⟩
  rw [← hmir.dict]
  exact hs.inv.knows

theorem Shown.follows {σ : Spec} (h : Shown Knows im r) (hst : Stands σ im) : Follows Knows r σ := by
  rcases h with ⟨s, hmir, hs⟩
  have hsealed : σ.sealedAs im.names.isSealed = σ := by
    rw [hst.names]
    rfl
  exact ⟨s, hmir, im, hs, by rw [hsealed]; exact hst⟩

/-! ## Records -/

theorem applyRegisterGraph_alike (h : Mirrors r s) (g : GraphName) :
    Alike (applyRegisterGraph A r g) (LoudsStore.applyRegisterGraph A s g) := by
  cases g with
  | namedNode n =>
    refine (internGraph_alike h (.namedNode n)).andThen ?_
    intro gId r' s' h'
    refine ⟨rfl, h'.dict, h'.delta, h'.graphs, ?_⟩
    rw [h'.named]
  | defaultGraph => exact ⟨rfl, h⟩
  | blankNode b => exact ⟨rfl, h⟩

theorem applyRecord_alike (h : Mirrors r s) (rec : WalRecord) :
    Alike (applyRecord A r rec) (LoudsStore.applyRecord A s rec) := by
  cases rec with
  | insertQuad q => exact (applyInsert_alike h q).andThen fun _ r' s' h' => ⟨rfl, h'⟩
  | removeQuad q => exact (applyRemove_alike h q).andThen fun _ r' s' h' => ⟨rfl, h'⟩
  | registerGraph g => exact applyRegisterGraph_alike h g

section

variable (I : Implements A Knows CompactOk)
include I

theorem Shown.applyRecord (h : Shown Knows im r) (rec : WalRecord) :
    ∃ r', applyRecord A r rec = ((im.record rec).1, r') ∧ Shown Knows (im.record rec).2 r' := by
  rcases h with ⟨s, hmir, hs⟩
  rcases LoudsStore.applyRecord_spec I hs rec with ⟨s', hrun, hs'⟩
  have halike := applyRecord_alike (A := A) hmir rec
  rw [hrun] at halike
  exact ⟨_, Prod.ext halike.1 rfl, s', halike.2, hs'⟩

theorem Shown.replayRecords (rs : List WalRecord) : ∀ {im im' : Image} {r : RingStore D}, Shown Knows im r →
    im.replay rs = .ok im' → ∃ r', replayRecords A r rs = .ok r' ∧ Shown Knows im' r' := by
  induction rs with
  | nil =>
    intro im im' r h hrep
    cases hrep
    exact ⟨r, rfl, h⟩
  | cons rec rs ih =>
    intro im im' r h hrep
    rcases h.applyRecord I rec with ⟨r₁, hrun, h₁⟩
    rw [Image.replay] at hrep
    rw [RingStore.replayRecords, hrun]
    rcases him : im.record rec with ⟨res, im₁⟩
    rw [him] at hrep h₁
    cases res with
    | ok _ => exact ih h₁ hrep
    | error f =>
      cases f with
      | err e => exact ih h₁ hrep
      | panic p => cases hrep

theorem Shown.applyWrites (h : Shown Knows im r) (ws : List QuadOp) :
    ∃ r', applyWrites A r ws = ((im.writes ws).1, r') ∧ Shown Knows (im.writes ws).2 r' := by
  rcases h with ⟨s, hmir, hs⟩
  rcases LoudsStore.applyWrites_spec I hs ws with ⟨s', hrun, hs', -⟩
  rcases Machine.batch_sim applyOne_mirrors hmir ws with ⟨hans, hend⟩
  rw [show Machine.batch (LoudsStore.applyOne A) s ws = _ from hrun] at hans hend
  exact ⟨_, Prod.ext hans rfl, s', hend, hs'⟩

end

/-! ## Compactions -/

/-- A dictionary that is ready can be compacted, and what is written of it then comes back
with its names. Neither breaks its seal. -/
structure Keeps (A : DictApi D) (F : DictFile D S) (Knows : D → Names → Prop) (CompactOk : Names → Prop)
    (Ready : D → Prop) : Prop where
  compactOk : ∀ d n, Knows d n → Ready d → CompactOk n
  reload : ∀ d n, Knows d n → Ready d → ∃ d₁ d₂ b, A.compact d = .ok (.ok (), d₁) ∧ F.load (F.save d₁) = .ok d₂ ∧
    Knows d₁ (n.withSealed b) ∧ Knows d₂ (n.withSealed b) ∧ (n.isSealed = true → b = true)

/-- The state after a compaction, here or in a process that opens what it has written. -/
structure Compacted (Knows : D → Names → Prop) (huff : Bool) (im : Image) (b : Bool) (m : GraphMap (List Row))
    (r : RingStore D) : Prop where
  knows : Knows r.dict (im.names.withSealed b)
  delta : r.delta = .new
  graphs : ∀ g : GraphId, r.graphs[g]? = (buildGraphs (fun _ => some huff) m)[g]?

theorem Shown.merged (h : Shown Knows im r) : ∃ m, r.merged = some m := by
  rcases h with ⟨s, hmir, -⟩
  rcases hmir.merged with ⟨m, hm, -⟩
  exact ⟨m, hm⟩

theorem Compacted.shown (I : Implements A Knows CompactOk) {huff : Bool}
    {r' : RingStore D} (hr' : Compacted Knows huff im b m r') (h : Shown Knows im r) (hok : CompactOk im.names)
    (hm : r.merged = some m) (hfits : RingStore.Fits r) : Shown Knows (im.compact b) r' := by
  rcases h with ⟨s, hmir, hs⟩
  rcases hmir.merged with ⟨m', hm', hget⟩
  rw [hm] at hm'
  cases hm'
  -- the LOUDS store after its own compaction, over the dictionary and the names of `r'`
  rcases LoudsStore.compactLocked_shows I hs hok with ⟨s₁, b₁, hrun, hs₁, -⟩
  have hgraphs : s₁.graphs = Persistent.mergedGraphs s ∧ s₁.delta = .new := by
    rw [LoudsStore.compactLocked, LoudsStore.compactDict] at hrun
    rcases hcomp : A.compact s.dict with p | ⟨e | _, d⟩
    · rw [hcomp] at hrun
      cases hrun
    · rw [hcomp] at hrun
      cases hrun
    · rw [hcomp] at hrun
      cases hrun
      exact ⟨rfl, rfl⟩
  have hshows : Shows Knows (im.compact b) { s₁ with dict := r'.dict, namedGraphIds := r'.namedGraphIds } := by
    have hreloaded : Shows Knows ⟨im.names.withSealed b, im.view.merge⟩ { s₁ with dict := r'.dict } :=
      LoudsStore.Shows.with_reloaded hs₁ hr'.knows
    exact ⟨hreloaded.inv.with_named _, hreloaded.view⟩
  refine ⟨_, ⟨rfl, ?_, ?_, rfl⟩, hshows⟩
  · rw [hr'.delta]
    exact hgraphs.2
  · intro g
    rw [hr'.graphs g]
    rw [hgraphs.1]
    exact sameGraph_build hget (hfits m hm) _ g

/-! ## Images of a generation -/

theorem openMappedWithRemap_buildImage {triples : List Row} (hne : triples.isEmpty = false)
    (hfits : FitsU32 triples)
    (huff : Bool) :
    BraidedGraphImage.openMappedWithRemap (buildImage (some huff) triples).imageFile
        (some (buildImage (some huff) triples).remap.writeToPath) = some (buildImage (some huff) triples) := by
  rcases triples with _ | ⟨t, ts⟩
  · cases hne
  · have hload := IdRemap.loadFromPath_writeToPath hfits.symbols
    have hpos : 0 < (symbolsOf (t :: ts)).length :=
      length_pos_of_mem (mem_symbolsOf.mpr ⟨t, mem_cons_self, .inl rfl⟩)
    have huniv : (IdRemap.fromTriples (t :: ts)).universeSize = (symbolsOf (t :: ts)).length := by
      rw [IdRemap.universeSize, externals_fromTriples, u32_of_lt hfits.symbols]
    have hagree : max (IdRemap.fromTriples (t :: ts)).universeSize 1 = (IdRemap.fromTriples (t :: ts)).universeSize := by
      rw [huniv]
      exact Nat.max_eq_left hpos
    show BraidedGraphImage.openMappedWithRemap
      ⟨buildShared (BraidedGraphImage.denseOf (t :: ts))
        (max (IdRemap.fromTriples (t :: ts)).universeSize 1), huff⟩
      (some (IdRemap.fromTriples (t :: ts)).writeToPath) = _
    simp only [BraidedGraphImage.openMappedWithRemap, Option.bind_eq_bind, Option.bind_some, hload]
    rw [if_neg]
    · rfl
    · rintro ⟨-, hdiffer⟩
      exact hdiffer hagree

end RingStore

namespace PersistentRing

open RingStore
open LoudsStore (Stands)

variable {D S : Type} {crc32 : Bytes → UInt32} {A : DictApi D} {F : DictFile D S} {fresh : D}
variable {Knows : D → Names → Prop} {CompactOk : Names → Prop} {Ready : D → Prop}
variable {dir dir' : RingDir S} {p : PersistentRing D} {σ : Spec} {im : Image}

theorem andThen_assoc {α β γ : Type} (x : Outcome D S α) (f : α → PersistentRing D → Outcome D S β)
    (k : β → PersistentRing D → Outcome D S γ) : andThen (andThen x f) k = andThen x fun a p =>
      andThen (f a p) k := by
  rcases x with ⟨f | a, p, ops⟩
  · rfl
  · simp only [andThen]
    rcases f a p with ⟨f | b, p', ops'⟩
    · rfl
    · simp [append_assoc]

theorem andThen_ok {α β : Type} (a : α) (p : PersistentRing D) (k : α → PersistentRing D → Outcome D S β) :
    andThen (.ok a, p, []) k = k a p := by
  simp [andThen]

/-- Opening images one after another: the graphs that are listed get theirs. -/
theorem openImages_spec {remaps : Files RemapFile} {want : GraphId → Option BraidedGraphImage}
    {l : List (Nat × ImageFile)}
    (h : ∀ e ∈ l, ∃ (g : GraphId) (img : BraidedGraphImage), e.1 = g.toNat ∧ want g = some img ∧
      BraidedGraphImage.openMappedWithRemap e.2 (remaps.get e.1) = some img) :
    ∀ r : RingStore D, ∃ r', openImages remaps r l = some r' ∧ r'.dict = r.dict ∧ r'.delta = r.delta ∧
      ∀ g : GraphId, r'.graphs[g]? = if ∃ e ∈ l, e.1 = g.toNat then want g else r.graphs[g]? := by
  induction l with
  | nil => exact fun r => ⟨r, rfl, rfl, rfl, fun g => by simp⟩
  | cons e l ih =>
    intro r
    rcases e with ⟨n, image⟩
    rcases h (n, image) mem_cons_self with ⟨gId, img, hn, hwant, hopen⟩
    subst hn
    have hlt : ¬256 ≤ gId.toNat := Nat.not_le.mpr gId.toNat_lt
    rcases ih (fun e he => h e (mem_cons_of_mem _ he)) { r with
        graphs := r.graphs.insert gId img
        namedGraphIds := if gId = graphDefault then r.namedGraphIds else r.namedGraphIds.insert gId }
      with ⟨r', hrun, hdict, hdelta, hget⟩
    refine ⟨r', ?_, hdict, hdelta, ?_⟩
    · rw [openImages, if_neg hlt]
      simp only [hopen, UInt8.ofNat_toNat]
      exact hrun
    · intro g
      rw [hget g]
      by_cases hlisted : ∃ e ∈ l, e.1 = g.toNat
      · rcases hlisted with ⟨e, he, heq⟩
        rw [if_pos ⟨e, he, heq⟩, if_pos ⟨e, mem_cons_of_mem _ he, heq⟩]
      · rw [if_neg hlisted]
        by_cases hg : gId = g
        · subst hg
          have hhere : ∃ e ∈ (gId.toNat, image) :: l, e.1 = gId.toNat := ⟨_, mem_cons_self, rfl⟩
          rw [if_pos hhere, hwant]
          simp
        · have hno : ¬∃ e ∈ (gId.toNat, image) :: l, e.1 = g.toNat := by
            rintro ⟨e, he, heq⟩
            rcases mem_cons.mp he with rfl | he
            · exact hg (UInt8.toNat_inj.mp heq)
            · exact hlisted ⟨e, he, heq⟩
          rw [if_neg hno]
          simp [Std.TreeMap.getElem?_insert, hg]

theorem steps_imageOps_cons (gen : Nat) (e : GraphId × BraidedGraphImage)
    (graphs : List (GraphId × BraidedGraphImage))
    (dir : RingDir S) : dir.steps (imageOps gen (e :: graphs)) =
      ((dir.step (.writeImage gen e.1 e.2.imageFile)).step (.writeRemap gen e.1 e.2.remap.writeToPath)).steps
        (imageOps gen graphs) := rfl

/-- After the files of a generation are written: the files of the graphs, and what was
there of others. -/
structure Written (gen : Nat) (graphs : List (GraphId × BraidedGraphImage)) (dir dir' : RingDir S) : Prop where
  image : ∀ x ∈ graphs, (dir'.imagesOf gen).get x.1.toNat = some x.2.imageFile
  remap : ∀ x ∈ graphs, (dir'.remapsOf gen).get x.1.toNat = some x.2.remap.writeToPath
  listed : ∀ e ∈ (dir'.imagesOf gen).entries,
    (∃ e' ∈ (dir.imagesOf gen).entries, e'.1 = e.1) ∨ ∃ x ∈ graphs, x.1.toNat = e.1
  otherImage : ∀ n, (∀ x ∈ graphs, x.1.toNat ≠ n) → (dir'.imagesOf gen).get n = (dir.imagesOf gen).get n
  otherRemap : ∀ n, (∀ x ∈ graphs, x.1.toNat ≠ n) → (dir'.remapsOf gen).get n = (dir.remapsOf gen).get n

/-- The files of the graphs are written one after the other and touch no other. -/
theorem written_imageOps (gen : Nat) {graphs : List (GraphId × BraidedGraphImage)}
    (hnodup : (graphs.map Prod.fst).Nodup) (dir : RingDir S) :
    Written gen graphs dir (dir.steps (imageOps gen graphs)) := by
  induction graphs generalizing dir with
  | nil =>
    exact ⟨nofun, nofun,
      fun e he => .inl ⟨e, he, rfl⟩, fun n _ => rfl, fun n _ => rfl⟩
  | cons x graphs ih =>
    rw [map_cons, nodup_cons] at hnodup
    rw [steps_imageOps_cons]
    -- the directory with the files of the first graph
    generalize hone : (dir.step (.writeImage gen x.1 x.2.imageFile)).step
      (.writeRemap gen x.1 x.2.remap.writeToPath) = one
    have hrest := ih hnodup.2 one
    have himages : one.imagesOf gen = (dir.imagesOf gen).put x.1.toNat x.2.imageFile := by
      subst hone
      simp [RingDir.step, RingDir.imagesOf, Files.get_put]
    have hremaps : one.remapsOf gen = (dir.remapsOf gen).put x.1.toNat x.2.remap.writeToPath := by
      subst hone
      simp [RingDir.step, RingDir.remapsOf, Files.get_put]
    -- no later graph has this number
    have hlast : ∀ y ∈ graphs, y.1.toNat ≠ x.1.toNat := by
      intro y hy heq
      exact hnodup.1 (mem_map.mpr ⟨y, hy, UInt8.toNat_inj.mp heq⟩)
    constructor
    · intro y hy
      rcases mem_cons.mp hy with rfl | hy
      · rw [hrest.otherImage _ hlast, himages, Files.get_put, if_pos rfl]
      · exact hrest.image y hy
    · intro y hy
      rcases mem_cons.mp hy with rfl | hy
      · rw [hrest.otherRemap _ hlast, hremaps, Files.get_put, if_pos rfl]
      · exact hrest.remap y hy
    · intro e he
      rcases hrest.listed e he with ⟨e', he', heq⟩ | ⟨y, hy, heq⟩
      · rw [himages] at he'
        rcases Files.mem_put he' with rfl | he'
        · exact .inr ⟨x, mem_cons_self, heq⟩
        · exact .inl ⟨e', he', heq⟩
      · exact .inr ⟨y, mem_cons_of_mem _ hy, heq⟩
    · intro n hn
      have hx := hn x mem_cons_self
      rw [hrest.otherImage n fun y hy => hn y (mem_cons_of_mem _ hy), himages, Files.get_put,
        if_neg (Ne.symm hx)]
    · intro n hn
      have hx := hn x mem_cons_self
      rw [hrest.otherRemap n fun y hy => hn y (mem_cons_of_mem _ hy), hremaps, Files.get_put,
        if_neg (Ne.symm hx)]

variable {rank : GraphId → Nat}

theorem mem_inOrder {graphs : GraphMap BraidedGraphImage} {x : GraphId × BraidedGraphImage} :
    x ∈ inOrder rank graphs ↔ graphs[x.1]? = some x.2 := by
  rw [inOrder, (perm_insertionSort _ _).mem_iff]
  exact Std.TreeMap.mem_toList_iff_getElem?_eq_some

theorem nodup_inOrder (rank : GraphId → Nat) (graphs : GraphMap BraidedGraphImage) :
    ((inOrder rank graphs).map Prod.fst).Nodup := by
  rw [inOrder, ((perm_insertionSort _ _).map Prod.fst).nodup_iff]
  rw [List.Nodup, pairwise_map]
  refine graphs.distinct_keys_toList.imp ?_
  intro a b hab heq
  exact hab (by rw [heq]; simp)

/-- Every image that an unfinished compaction has left under the next generation is of a
graph that still has triples. -/
def leftoversLive (dir : RingDir S) (gen : Nat) (r : RingStore D) : Bool :=
  (dir.imagesOf (gen + 1)).entries.all fun e =>
    decide (e.1 < 256) && r.merged.any fun m => (m[UInt8.ofNat e.1]?).any fun triples => !triples.isEmpty

theorem getElem?_buildGraphs (huff : Bool) (m : GraphMap (List Row)) (g : GraphId) :
    (buildGraphs (fun _ => some huff) m)[g]? = (m[g]?).bind fun triples =>
      if triples.isEmpty then none else some (buildImage (some huff) triples) := by
  rw [buildGraphs, Std.TreeMap.getElem?_filterMap']

/-- Opening the generation that a compaction has written gives the compacted graphs, if
nothing else was left there. -/
theorem openImages_written {r : RingStore D} {huff : Bool} {gen : Nat}
    (hm : r.merged = some m) (hfits : RingStore.Fits r) (hleft : leftoversLive dir gen r = true)
    (hw : Written (gen + 1) (inOrder rank (buildGraphs (fun _ => some huff) m)) dir dir') (d : D) :
    ∃ r', openImages (dir'.remapsOf (gen + 1)) (.new d) (dir'.imagesOf (gen + 1)).entries = some r' ∧
      r'.dict = d ∧ r'.delta = .new ∧ ∀ g : GraphId, r'.graphs[g]? = (buildGraphs (fun _ => some huff) m)[g]? := by
  -- every listed image is of a graph that was written
  have hnew : ∀ e ∈ (dir'.imagesOf (gen + 1)).entries, ∃ (g : GraphId) (img : BraidedGraphImage),
      e.1 = g.toNat ∧ (buildGraphs (fun _ => some huff) m)[g]? = some img := by
    intro e he
    rcases hw.listed e he with ⟨e', he', heq⟩ | ⟨x, hx, heq⟩
    · have hlive := all_eq_true.mp hleft e' he'
      rw [hm, Option.any_some, Bool.and_eq_true, decide_eq_true_iff, heq] at hlive
      rcases hlive with ⟨hlt, hlive⟩
      rcases htriples : m[UInt8.ofNat e.1]? with _ | triples
      · rw [htriples] at hlive
        cases hlive
      · rw [htriples, Option.any_some] at hlive
        have hne : triples.isEmpty = false := by simpa using hlive
        refine ⟨UInt8.ofNat e.1, buildImage (some huff) triples, (UInt8.toNat_ofNat_of_lt' hlt).symm, ?_⟩
        rw [getElem?_buildGraphs, htriples, Option.bind_some, hne]
        rfl
    · exact ⟨x.1, x.2, heq.symm, mem_inOrder.mp hx⟩
  have hopen : ∀ e ∈ (dir'.imagesOf (gen + 1)).entries, ∃ (g : GraphId) (img : BraidedGraphImage), e.1 = g.toNat ∧
      (buildGraphs (fun _ => some huff) m)[g]? = some img ∧
        BraidedGraphImage.openMappedWithRemap e.2 ((dir'.remapsOf (gen + 1)).get e.1) = some img := by
    intro e he
    rcases hnew e he with ⟨g, img, heq, hget⟩
    have hx : (g, img) ∈ inOrder rank (buildGraphs (fun _ => some huff) m) := mem_inOrder.mpr hget
    have hfile := hw.image _ hx
    have hremap := hw.remap _ hx
    have hsame : e.2 = img.imageFile := by
      have hhere := Files.get_of_mem he
      rw [heq, hfile] at hhere
      exact (Option.some.inj hhere).symm
    refine ⟨g, img, heq, hget, ?_⟩
    rw [hsame, heq, hremap]
    rw [getElem?_buildGraphs] at hget
    rcases htriples : m[g]? with _ | triples
    · rw [htriples] at hget
      cases hget
    · rw [htriples, Option.bind_some] at hget
      by_cases hempty : triples.isEmpty = true
      · rw [if_pos hempty] at hget
        cases hget
      · rw [if_neg hempty] at hget
        cases hget
        exact openMappedWithRemap_buildImage (by simpa using hempty) (hfits m hm g triples htriples) huff
  rcases openImages_spec (D := D) hopen (.new d) with ⟨r', hrun, hdict, hdelta, hget⟩
  refine ⟨r', hrun, hdict, hdelta, ?_⟩
  intro g
  rw [hget g]
  by_cases hlisted : ∃ e ∈ (dir'.imagesOf (gen + 1)).entries, e.1 = g.toNat
  · rw [if_pos hlisted]
  · rw [if_neg hlisted]
    rcases hg : (buildGraphs (fun _ => some huff) m)[g]? with _ | img
    · simp [RingStore.new]
    · have hx : (g, img) ∈ inOrder rank (buildGraphs (fun _ => some huff) m) := mem_inOrder.mpr hg
      exact absurd ⟨_, Files.mem_of_get (hw.image _ hx), rfl⟩ hlisted

/-! ## What opening reads -/

/-- Opening finds the snapshot `r₀`, replays `rs` on it and ends with the image `im` of the
set. -/
structure HeldBy (crc32 : Bytes → UInt32) (F : DictFile D S) (fresh : D) (Knows : D → Names → Prop)
    (dir : RingDir S) (σ : Spec) (r₀ : RingStore D) (im₀ : Image) (rs : List WalRecord) (im : Image) : Prop where
  base : loadSnapshot F fresh dir = .ok r₀
  image : Shown Knows im₀ r₀
  log : Logged crc32 dir.segments dir.loadManifest.walSeq rs
  replay : im₀.replay rs = .ok im
  stands : Stands σ im

/-- The directory recovers to the set. -/
def Held (crc32 : Bytes → UInt32) (F : DictFile D S) (fresh : D) (Knows : D → Names → Prop) (dir : RingDir S)
    (σ : Spec) : Prop :=
  ∃ r₀ im₀ rs im, HeldBy crc32 F fresh Knows dir σ r₀ im₀ rs im

/-- The MANIFEST and the files of its generation are the same. -/
structure SameSnapshot (dir dir' : RingDir S) : Prop where
  manifest : dir'.loadManifest = dir.loadManifest
  images : dir'.images.get dir.loadManifest.snapshotGen = dir.images.get dir.loadManifest.snapshotGen
  remaps : dir'.remaps.get dir.loadManifest.snapshotGen = dir.remaps.get dir.loadManifest.snapshotGen
  dict : dir'.dicts.get dir.loadManifest.snapshotGen = dir.dicts.get dir.loadManifest.snapshotGen

theorem SameSnapshot.loadSnapshot_eq (h : SameSnapshot dir dir') :
    loadSnapshot F fresh dir' = loadSnapshot F fresh dir := by
  simp only [loadSnapshot, RingDir.imagesOf, RingDir.remapsOf, h.manifest, h.images, h.remaps, h.dict]

theorem Held.congr (h : Held crc32 F fresh Knows dir σ) (hsame : SameSnapshot dir dir')
    (hlog : ∀ rs, Logged crc32 dir.segments dir.loadManifest.walSeq rs →
      Logged crc32 dir'.segments dir.loadManifest.walSeq rs) : Held crc32 F fresh Knows dir' σ := by
  rcases h with ⟨r₀, im₀, rs, im, h⟩
  refine ⟨r₀, im₀, rs, im, hsame.loadSnapshot_eq.trans h.base, h.image, ?_, h.replay, h.stands⟩
  rw [hsame.manifest]
  exact hlog rs h.log

variable {gone : RingFile → Bool}

/-- Deleting files leaves the directory's set alone if the files of the MANIFEST's
generation stay and the deleted segments it needs are empty. -/
theorem Held.delete (h : Held crc32 F fresh Knows dir σ)
    (himages : ∀ gId, gone (.image dir.loadManifest.snapshotGen gId) = false)
    (hremaps : ∀ gId, gone (.remap dir.loadManifest.snapshotGen gId) = false)
    (hdict : gone (.dict dir.loadManifest.snapshotGen) = false)
    (hseg : ∀ e ∈ dir.segments.since dir.loadManifest.walSeq, gone (.wal e.1) = true → e.2 = []) :
    Held crc32 F fresh Knows (dir.delete gone) σ := by
  have hsame : SameSnapshot dir (dir.delete gone) :=
    ⟨rfl, RingDir.delete_images himages, RingDir.delete_remaps hremaps, RingDir.delete_dicts hdict⟩
  apply h.congr hsame
  intro rs hlog
  apply hlog.keep
  intro e he hgone
  exact hseg e he (by simpa using hgone)

/-! ## Opening -/

/-- The operations of an opening that finds no torn segment. -/
def openOps (dir : RingDir S) : List (RingOp S) :=
  [.createOrOpen (activeSeq dir), .cleanupOrphans dir.loadManifest.snapshotGen (activeSeq dir)]

theorem replaySegments_spec (I : Implements A Knows CompactOk) {l : List (Nat × Bytes)} {rs : List WalRecord}
    (hl : Wal.Holds crc32 l rs) : ∀ {im im' : Image} {r : RingStore D}, Shown Knows im r → im.replay rs = .ok im' →
      ∃ r', replaySegments (S := S) crc32 A r l = (.ok r', []) ∧ Shown Knows im' r' := by
  induction hl with
  | nil =>
    intro im im' r h hrep
    cases hrep
    exact ⟨r, rfl, h⟩
  | @cons e rest rs rs' hfile _ ih =>
    intro im im' r h hrep
    rcases e with ⟨seq, file⟩
    rcases Image.replay_of_append rs hrep with ⟨im₁, hfirst, hlater⟩
    rcases h.replayRecords I rs hfirst with ⟨r₁, hrun, h₁⟩
    rcases ih h₁ hlater with ⟨r', hrest, h'⟩
    refine ⟨r', ?_, h'⟩
    rw [replaySegments]
    simp only [hfile.replay.1, hfile.replay.2, hrun, hrest, Nat.lt_irrefl, if_false, append_nil]

theorem Held.openDir (I : Implements A Knows CompactOk) (h : Held crc32 F fresh Knows dir σ) :
    ∃ r', openDir crc32 A F fresh dir = (.ok ⟨r', dir.loadManifest.snapshotGen, activeSeq dir,
        Persistent.defaultAutoCompactThreshold⟩, openOps dir) ∧
      ∃ im, Shown Knows im r' ∧ Stands σ im := by
  rcases h with ⟨r₀, im₀, rs, im, h⟩
  rcases replaySegments_spec (S := S) I h.log h.image h.replay with ⟨r', hrep, hr'⟩
  refine ⟨r', ?_, im, hr', h.stands⟩
  rw [PersistentRing.openDir]
  simp only [h.base, hrep, nil_append, openOps]

/-- No segment that an opening deletes holds a record the MANIFEST still asks for. -/
def openKeepsLog (dir : RingDir S) : Bool :=
  (dir.segments.since dir.loadManifest.walSeq).all fun e => decide (activeSeq dir ≤ e.1) || e.2.isEmpty

variable {seq : Nat}

theorem Held.created (h : Held crc32 F fresh Knows dir σ) (hseq : dir.loadManifest.walSeq ≤ seq) :
    Held crc32 F fresh Knows (dir.step (.createOrOpen seq)) σ :=
  h.congr ⟨rfl, rfl, rfl, rfl⟩ fun _ hlog => hlog.create hseq

theorem orphans_older {gen : Nat} (hgone : ∀ f, gone f = true → RingDir.isOrphan gen seq f = true) :
    (∀ gId, gone (.image gen gId) = false) ∧ (∀ gId, gone (.remap gen gId) = false) ∧
      gone (.dict gen) = false := by
  refine ⟨fun gId => ?_, fun gId => ?_, ?_⟩
  · by_contra hne
    have hold := hgone (.image gen gId) (by simpa using hne)
    simp [RingDir.isOrphan] at hold
  · by_contra hne
    have hold := hgone (.remap gen gId) (by simpa using hne)
    simp [RingDir.isOrphan] at hold
  · by_contra hne
    have hold := hgone (.dict gen) (by simpa using hne)
    simp [RingDir.isOrphan] at hold

theorem Held.openDelete (h : Held crc32 F fresh Knows dir σ) (hkeeps : openKeepsLog dir = true)
    (hgone : ∀ f, gone f = true → RingDir.isOrphan dir.loadManifest.snapshotGen (activeSeq dir) f = true) :
    Held crc32 F fresh Knows ((dir.step (.createOrOpen (activeSeq dir))).delete gone) σ := by
  have hle : dir.loadManifest.walSeq ≤ activeSeq dir := dir.segments.le_top _
  rcases orphans_older hgone with ⟨himages, hremaps, hdict⟩
  apply (h.created hle).delete himages hremaps hdict
  intro e he hdel
  have hold : e.1 < activeSeq dir := by simpa [RingDir.isOrphan] using hgone _ hdel
  rcases Files.mem_since.mp he with ⟨he, hfrom⟩
  rcases Files.mem_put he with rfl | he
  · exact absurd hold (Nat.lt_irrefl _)
  · have hall := all_eq_true.mp hkeeps e (Files.mem_since.mpr ⟨he, hfrom⟩)
    rw [Bool.or_eq_true, decide_eq_true_iff] at hall
    rcases hall with hge | hempty
    · omega
    · exact List.isEmpty_iff.mp hempty

theorem Held.openDir_cut (h : Held crc32 F fresh Knows dir σ) (k : Nat) (gone : RingFile → Bool)
    (hkeeps : 0 < k → openKeepsLog dir = true) : Held crc32 F fresh Knows (dir.cut (openOps dir) k gone) σ := by
  match k with
  | 0 => exact h
  | 1 =>
    show Held crc32 F fresh Knows ((dir.step (.createOrOpen (activeSeq dir))).delete fun f =>
      RingDir.isOrphan dir.loadManifest.snapshotGen (activeSeq dir) f && gone f) σ
    refine h.openDelete (hkeeps Nat.one_pos) ?_
    intro f hf
    exact (Bool.and_eq_true_iff.mp hf).1
  | k + 2 =>
    rw [RingDir.cut, openOps, Device.cut_cons_succ, Device.cut_cons_succ, Device.cut_nil]
    exact h.openDelete (hkeeps (Nat.succ_pos _)) fun f hf => hf

/-! ## A process and its directory -/

/-- A process that has the directory open: its store stands for the set, and the directory
recovers to the set, perhaps over a dictionary that is not sealed yet. The segments after
the active one are empty. -/
structure Serving (crc32 : Bytes → UInt32) (F : DictFile D S) (fresh : D) (Knows : D → Names → Prop)
    (p : PersistentRing D) (dir : RingDir S) (σ : Spec) : Prop where
  memory : ∃ im, Shown Knows im p.inner ∧ Stands σ im
  held : ∃ b, (b = true → σ.names.isSealed = true) ∧ Held crc32 F fresh Knows dir (σ.sealedAs b)
  gen : p.snapshotGen = dir.loadManifest.snapshotGen
  seq : dir.loadManifest.walSeq ≤ p.walSeq
  later : ∀ e ∈ dir.segments.entries, p.walSeq < e.1 → e.2 = []

theorem Held.serving (I : Implements A Knows CompactOk) (h : Held crc32 F fresh Knows dir σ)
    (hkeeps : openKeepsLog dir = true) :
    ∃ p, PersistentRing.openDir crc32 A F fresh dir = (.ok p, openOps dir) ∧
      Serving crc32 F fresh Knows p (dir.steps (openOps dir)) σ := by
  rcases h.openDir I with ⟨r', hr, hr'⟩
  have hheld : Held crc32 F fresh Knows (dir.steps (openOps dir)) σ := h.openDelete hkeeps fun f hf => hf
  refine ⟨_, hr, hr', ⟨σ.names.isSealed, fun hb => hb, ?_⟩, rfl, dir.segments.le_top _, ?_⟩
  · rw [Spec.sealedAs_self rfl]
    exact hheld
  · -- the active segment is the last one
    intro e he hlt
    have he : e ∈ (dir.step (.createOrOpen (activeSeq dir))).segments.entries := mem_of_mem_filter he
    rcases Files.mem_put he with rfl | he
    · exact absurd hlt (Nat.lt_irrefl _)
    · exact absurd hlt (Nat.not_lt.mpr (Files.entries_le_top he _))

theorem Serving.append (h : Serving crc32 F fresh Knows p dir σ) {rs : List WalRecord}
    (hshort : ∀ rec ∈ rs, PayloadShort rec) {im' : Image} (him : Stands σ im) (hrep : im.replay rs = .ok im')
    {r' : RingStore D} (hr' : Shown Knows im' r') :
    Serving crc32 F fresh Knows { p with inner := r' }
      (dir.step (.append p.walSeq ((Wal.format crc32).log rs))) (σ.records rs) where
  memory := ⟨im', hr', (him.replay rs him hrep).1⟩
  held := by
    rcases h.held with ⟨b, hb, r₀, im₀, rs₀, imd, hd⟩
    rcases him.replay_looser rs hd.stands hb hrep with ⟨imd', hrepd, hstd⟩
    refine ⟨b, ?_, r₀, im₀, rs₀ ++ rs, imd', hd.base, hd.image, ?_, ?_, hstd⟩
    · rw [Spec.records_isSealed]
      exact hb
    · exact hd.log.append h.seq h.later hshort
    · rw [Image.replay_append rs₀ rs hd.replay]
      exact hrepd
  gen := h.gen
  seq := h.seq
  later := by
    intro e he hlt
    rcases Files.mem_put he with rfl | he
    · exact absurd hlt (Nat.lt_irrefl _)
    · exact h.later e he hlt

/-! ## Compactions -/

/-- The operation does not touch what opening reads while the MANIFEST is `m`, but for a
new segment. -/
def Harmless (m : Manifest) : RingOp S → Prop
  | .writeImage g _ _ => g ≠ m.snapshotGen
  | .writeRemap g _ _ => g ≠ m.snapshotGen
  | .writeDict g _ => g ≠ m.snapshotGen
  | .loadDict _ => True
  | .createOrOpen seq => m.walSeq ≤ seq
  | .writeManifestTmp _ => True
  | _ => False

/-- What harmless operations keep: the set, the MANIFEST and that the segments after the
active one are empty. -/
structure Waiting (crc32 : Bytes → UInt32) (F : DictFile D S) (fresh : D) (Knows : D → Names → Prop) (m : Manifest)
    (seq : Nat) (σ : Spec) (dir : RingDir S) : Prop where
  held : Held crc32 F fresh Knows dir σ
  manifest : dir.loadManifest = m
  later : ∀ e ∈ dir.segments.entries, seq < e.1 → e.2 = []

theorem Waiting.step {m : Manifest} (h : Waiting crc32 F fresh Knows m seq σ dir) {op : RingOp S}
    (hop : Harmless m op) : Waiting crc32 F fresh Knows m seq σ (dir.step op) := by
  rcases h with ⟨hheld, rfl, hlater⟩
  cases op with
  | writeImage g gId file =>
    have hsame : SameSnapshot dir (dir.step (.writeImage g gId file)) := by
      refine ⟨rfl, ?_, rfl, rfl⟩
      show (dir.images.put _ _).get _ = _
      rw [Files.get_put, if_neg (Ne.symm hop)]
    exact ⟨hheld.congr hsame fun _ hlog => hlog, rfl, hlater⟩
  | writeRemap g gId file =>
    have hsame : SameSnapshot dir (dir.step (.writeRemap g gId file)) := by
      refine ⟨rfl, rfl, ?_, rfl⟩
      show (dir.remaps.put _ _).get _ = _
      rw [Files.get_put, if_neg (Ne.symm hop)]
    exact ⟨hheld.congr hsame fun _ hlog => hlog, rfl, hlater⟩
  | writeDict g file =>
    have hsame : SameSnapshot dir (dir.step (.writeDict g file)) := by
      refine ⟨rfl, rfl, rfl, ?_⟩
      show (dir.dicts.put _ _).get _ = _
      rw [Files.get_put, if_neg (Ne.symm hop)]
    exact ⟨hheld.congr hsame fun _ hlog => hlog, rfl, hlater⟩
  | loadDict g => exact ⟨hheld, rfl, hlater⟩
  | createOrOpen n =>
    refine ⟨hheld.created hop, rfl, ?_⟩
    intro e he hlt
    rcases Files.mem_put he with rfl | he
    · -- a segment that was there is empty as well
      cases hfile : dir.segments.get n with
      | none => exact Option.getD_none
      | some file => exact hlater (n, file) (Files.mem_of_get hfile) hlt
    · exact hlater e he hlt
  | writeManifestTmp m => exact ⟨hheld.congr ⟨rfl, rfl, rfl, rfl⟩ fun _ hlog => hlog, rfl, hlater⟩
  | append seq bytes => exact hop.elim
  | truncate seq len => exact hop.elim
  | renameManifest => exact hop.elim
  | cleanupOrphans keepGen keepSeq => exact hop.elim

theorem Waiting.partly {m : Manifest} (h : Waiting crc32 F fresh Knows m seq σ dir) {op : RingOp S}
    (hop : Harmless m op) (gone : RingFile → Bool) :
    Waiting crc32 F fresh Knows m seq σ (dir.stepPartly gone op) := by
  cases op with
  | cleanupOrphans keepGen keepSeq => exact hop.elim
  | _ => exact h

variable {ops : List (RingOp S)}

theorem Waiting.steps {m : Manifest} (h : Waiting crc32 F fresh Knows m seq σ dir)
    (hops : ∀ op ∈ ops, Harmless m op) : Waiting crc32 F fresh Knows m seq σ (dir.steps ops) :=
  Device.steps_inv (fun op hop _ hs => hs.step (hops op hop)) h

theorem Waiting.cut {m : Manifest} (h : Waiting crc32 F fresh Knows m seq σ dir)
    (hops : ∀ op ∈ ops, Harmless m op) (k : Nat) (gone : RingFile → Bool) :
    Waiting crc32 F fresh Knows m seq σ (dir.cut ops k gone) :=
  Device.cut_inv (fun op hop _ hs => hs.step (hops op hop)) (fun op hop _ hs => hs.partly (hops op hop) gone) h


/-- What a compaction writes of a generation. -/
def generationOps (p : PersistentRing D) (F : DictFile D S) (d : D) (graphs : List (GraphId × BraidedGraphImage)) :
    List (RingOp S) :=
  imageOps (p.snapshotGen + 1) graphs ++ [.writeDict (p.snapshotGen + 1) (F.save d), .loadDict (p.snapshotGen + 1)]

/-- What a compaction does before it renames the MANIFEST. -/
def beforeRename (p : PersistentRing D) (F : DictFile D S) (d : D) (graphs : List (GraphId × BraidedGraphImage)) :
    List (RingOp S) :=
  generationOps p F d graphs ++
    [.createOrOpen (p.walSeq + 1), .writeManifestTmp ⟨p.snapshotGen + 1, p.walSeq + 1⟩]

/-- A compaction gives up with a part of its files written, or installs the new generation. -/
theorem compactLocked_cases (I : Implements A Knows CompactOk) (K : Keeps A F Knows CompactOk Ready)
    (h : Shown Knows im p.inner) (hready : Ready p.inner.dict) (len : D → Nat) (huff : Bool) (c : Course) :
    ∃ m d₁ d₂ b, p.inner.merged = some m ∧ F.load (F.save d₁) = .ok d₂ ∧ Knows d₂ (im.names.withSealed b) ∧
      (im.names.isSealed = true → b = true) ∧
      let graphs := buildGraphs (fun _ => some huff) m
      let before := beforeRename p F d₁ (inOrder c.rank graphs)
      (∃ f d k, compactLocked A F len huff c p = (.error f,
        { p with inner := { p.inner with dict := d } }, before.take k) ∧
        Knows d (im.names.withSealed b)) ∨
      ∃ d, compactLocked A F len huff c p = (.ok (), { p with
          inner := { p.inner with
            dict := d, graphs := graphs, delta := .new, compactionCount := p.inner.compactionCount + 1 }
          snapshotGen := p.snapshotGen + 1
          walSeq := p.walSeq + 1 },
          before ++ [.renameManifest, .cleanupOrphans (p.snapshotGen + 1) (p.walSeq + 1)]) ∧
        Knows d (im.names.withSealed b) := by
  rcases h.merged with ⟨m, hm⟩
  rcases K.reload _ _ h.knows hready with ⟨d₁, d₂, b, hcomp, hload, hd₁, hd₂, hseal⟩
  refine ⟨m, d₁, d₂, b, hm, hload, hd₂, hseal, ?_⟩
  have hdict : RingStore.compactDict A p.inner = (.ok (), { p.inner with dict := d₁ }) := by
    rw [RingStore.compactDict, hcomp]
  intro graphs before
  have hgen : imageOps (p.snapshotGen + 1) (inOrder c.rank graphs) ++
      [.writeDict (p.snapshotGen + 1) (F.save d₁), .loadDict (p.snapshotGen + 1)] =
      generationOps p F d₁ (inOrder c.rank graphs) := rfl
  have hops : generationOps p F d₁ (inOrder c.rank graphs) ++ [.createOrOpen (p.walSeq + 1),
      .writeManifestTmp ⟨p.snapshotGen + 1, p.walSeq + 1⟩, .renameManifest,
      .cleanupOrphans (p.snapshotGen + 1) (p.walSeq + 1)] =
      before ++ [.renameManifest, .cleanupOrphans (p.snapshotGen + 1) (p.walSeq + 1)] := by
    simp [before, beforeRename]
  have hlen : before.length = (generationOps p F d₁ (inOrder c.rank graphs)).length + 2 := by
    simp [before, beforeRename]
  rcases buildDecodeSnapshot_spec I (List.range (len d₂)) hd₂ with ⟨table, d₃, hsnap, hd₃⟩
  have hrun := compactLocked.eq_1 A F len huff c p
  simp only [hm, hdict, inMemory, andThen_ok, hload, hsnap] at hrun
  rw [hrun]
  rw [show buildGraphs (fun _ => some huff) m = graphs from rfl, hgen, hops]
  by_cases hearly : (c.stop.any fun k => decide (k < (generationOps p F d₁ (inOrder c.rank graphs)).length)) = true
  · -- among the files of the generation
    rw [if_pos hearly]
    refine .inl ⟨.err (.storage "I/O error"), d₁, c.stop.getD 0, ?_, hd₁⟩
    rcases hstop : c.stop with _ | k
    · rw [hstop] at hearly
      cases hearly
    · rw [hstop, Option.any_some, decide_eq_true_iff] at hearly
      have hprefix : before.take k = (generationOps p F d₁ (inOrder c.rank graphs)).take k :=
        take_append_of_le_length (Nat.le_of_lt hearly)
      rw [Option.getD_some, hprefix]
  · rw [if_neg hearly]
    by_cases hlate : (c.stop.any fun k =>
      decide (k < (generationOps p F d₁ (inOrder c.rank graphs)).length + 3)) = true
    · -- before the rename
      rw [if_pos hlate]
      refine .inl ⟨.err (.storage "I/O error"), d₂, c.stop.getD 0, ?_, hd₂⟩
      rcases hstop : c.stop with _ | k
      · rw [hstop] at hlate
        cases hlate
      · rw [hstop, Option.any_some, decide_eq_true_iff] at hlate
        rw [Option.getD_some, take_append_of_le_length (by omega)]
    · rw [if_neg hlate]
      exact .inr ⟨d₃, rfl, hd₃⟩

theorem harmless_beforeRename (hgen : p.snapshotGen = dir.loadManifest.snapshotGen)
    (hseq : dir.loadManifest.walSeq ≤ p.walSeq) (F : DictFile D S) (d : D)
    (graphs : List (GraphId × BraidedGraphImage)) : ∀ op ∈ beforeRename p F d graphs,
      Harmless dir.loadManifest op := by
  have hnext : p.snapshotGen + 1 ≠ dir.loadManifest.snapshotGen := by omega
  intro op hop
  rw [beforeRename, generationOps, imageOps, append_assoc, mem_append] at hop
  rcases hop with hop | hop
  · rcases mem_flatMap.mp hop with ⟨e, -, hop⟩
    simp only [mem_cons, not_mem_nil, or_false] at hop
    rcases hop with rfl | rfl
    · exact hnext
    · exact hnext
  · simp only [mem_cons, mem_append, not_mem_nil, or_false] at hop
    rcases hop with (rfl | rfl) | rfl | rfl
    · exact hnext
    · trivial
    · exact Nat.le_succ_of_le hseq
    · trivial

/-- What the rename finds. -/
structure Staged (p : PersistentRing D) (file : S) (graphs : List (GraphId × BraidedGraphImage))
    (dir dir' : RingDir S) :
    Prop where
  tmp : dir'.manifestTmp = some ⟨p.snapshotGen + 1, p.walSeq + 1⟩
  dict : dir'.dicts.get (p.snapshotGen + 1) = some file
  graphs : Written (p.snapshotGen + 1) graphs dir dir'

theorem staged_beforeRename (p : PersistentRing D) (F : DictFile D S) (d : D)
    {graphs : List (GraphId × BraidedGraphImage)} (hnodup : (graphs.map Prod.fst).Nodup) (dir : RingDir S) :
    Staged p (F.save d) graphs dir (dir.steps (beforeRename p F d graphs)) := by
  have hw : Written (p.snapshotGen + 1) graphs dir
      ((RingDir.device S).steps dir (imageOps (p.snapshotGen + 1) graphs)) := written_imageOps _ hnodup dir
  rw [beforeRename, generationOps, append_assoc]
  show Staged p (F.save d) graphs dir ((RingDir.device S).steps dir _)
  rw [Device.steps_append]
  -- the operations behind the images leave them alone
  generalize (RingDir.device S).steps dir (imageOps (p.snapshotGen + 1) graphs) = written at hw ⊢
  refine ⟨rfl, ?_, hw.image, hw.remap, hw.listed, hw.otherImage, hw.otherRemap⟩
  show (written.dicts.put _ _).get _ = _
  rw [Files.get_put, if_pos rfl]

/-- The directory that the MANIFEST has been renamed in holds the compacted set, and its
cleanup deletes nothing of it. -/
theorem Staged.commit (I : Implements A Knows CompactOk) (crc32 : Bytes → UInt32) (fresh : D) {d₁ d₂ : D}
    {huff : Bool} (hs : Staged p (F.save d₁) (inOrder rank (buildGraphs (fun _ => some huff) m)) dir dir')
    (hlater : ∀ e ∈ dir'.segments.entries, p.walSeq < e.1 → e.2 = [])
    (hleft : leftoversLive dir p.snapshotGen p.inner = true)
    (h : Shown Knows im p.inner) (hst : Stands σ im) (hok : CompactOk im.names) (hfits : RingStore.Fits p.inner)
    (hm : p.inner.merged = some m) (hload : F.load (F.save d₁) = .ok d₂) (hd₂ : Knows d₂ (im.names.withSealed b)) :
    Held crc32 F fresh Knows (dir'.step .renameManifest) ⟨σ.names.withSealed b, σ.quads⟩ ∧
      ∀ gone : RingFile → Bool, (∀ f, gone f = true →
        RingDir.isOrphan (p.snapshotGen + 1) (p.walSeq + 1) f = true) →
        Held crc32 F fresh Knows ((dir'.step .renameManifest).delete gone) ⟨σ.names.withSealed b, σ.quads⟩ := by
  rcases openImages_written hm hfits hleft hs.graphs d₂ with ⟨r', hopen, hdict, hdelta, hgraphs⟩
  have hman : (dir'.step .renameManifest).loadManifest = ⟨p.snapshotGen + 1, p.walSeq + 1⟩ := by
    show dir'.manifestTmp.getD _ = _
    rw [hs.tmp]
    rfl
  have hbase : loadSnapshot F fresh (dir'.step .renameManifest) = .ok r' := by
    have hpos : p.snapshotGen + 1 > 0 := Nat.succ_pos _
    have hopen' : openImages ((dir'.step .renameManifest).remapsOf (p.snapshotGen + 1)) (.new d₂)
        ((dir'.step .renameManifest).imagesOf (p.snapshotGen + 1)).entries = some r' := hopen
    have hfile : (dir'.step .renameManifest).dicts.get (p.snapshotGen + 1) = some (F.save d₁) := hs.dict
    rw [loadSnapshot, hman]
    simp only [if_pos hpos, hfile, hload, hopen', ok_bind]
  have hcompacted : Compacted Knows huff im b m r' := by
    refine ⟨?_, hdelta, hgraphs⟩
    rw [hdict]
    exact hd₂
  have hempty : ∀ e ∈ (dir'.step .renameManifest).segments.since (p.walSeq + 1), e.2 = [] := by
    intro e he
    rcases Files.mem_since.mp he with ⟨he, hfrom⟩
    exact hlater e he hfrom
  have hheld : Held crc32 F fresh Knows (dir'.step .renameManifest) ⟨σ.names.withSealed b, σ.quads⟩ := by
    refine ⟨r', im.compact b, [], im.compact b, hbase, hcompacted.shown I h hok hm hfits, ?_, rfl, hst.compact b⟩
    rw [hman]
    exact Logged.empty hempty
  refine ⟨hheld, ?_⟩
  intro gone hgone
  rcases orphans_older hgone with ⟨himages, hremaps, hdicts⟩
  apply hheld.delete
  · rw [hman]
    exact himages
  · rw [hman]
    exact hremaps
  · rw [hman]
    exact hdicts
  · rw [hman]
    exact fun e he _ => hempty e he

/-- The operation makes the next generation the one that opening reads. -/
def isRename : RingOp S → Bool
  | .renameManifest => true
  | _ => false

/-- Operations that change nothing a reader could see, wherever they are cut, if the
MANIFEST is only renamed when that is `clean`. -/
structure Steady (crc32 : Bytes → UInt32) (F : DictFile D S) (fresh : D) (Knows : D → Names → Prop)
    (dir : RingDir S) (σ : Spec) (clean : Bool) (p : PersistentRing D) (ops : List (RingOp S)) : Prop where
  serving : (ops.any isRename = true → clean = true) →
    ∃ σ', Serving crc32 F fresh Knows p (dir.steps ops) σ' ∧ σ'.quads = σ.quads
  cut : ∀ k gone, ((ops.take k).any isRename = true → clean = true) →
    ∃ σ', Held crc32 F fresh Knows (dir.cut ops k gone) σ' ∧ σ'.quads = σ.quads

theorem Serving.steady (h : Serving crc32 F fresh Knows p dir σ) (clean : Bool) :
    Steady crc32 F fresh Knows dir σ clean p [] where
  serving := fun _ => ⟨σ, h, rfl⟩
  cut := by
    intro k gone _
    rcases h.held with ⟨b, -, hheld⟩
    rw [RingDir.cut, Device.cut_nil]
    exact ⟨_, hheld, rfl⟩

/-- A compaction that has given up: the directory waits, the dictionary in memory may be a
compacted one. -/
theorem Serving.gaveUp (h : Serving crc32 F fresh Knows p dir σ)
    (hops : ∀ op ∈ ops, Harmless dir.loadManifest op) {d : D} (hd : Knows d (σ.names.withSealed b))
    (hb : σ.names.isSealed = true → b = true) (clean : Bool) :
    Steady crc32 F fresh Knows dir σ clean { p with inner := { p.inner with dict := d } } ops := by
  rcases h.held with ⟨b₀, hb₀, hheld⟩
  have hwait : Waiting crc32 F fresh Knows dir.loadManifest p.walSeq (σ.sealedAs b₀) dir := ⟨hheld, rfl, h.later⟩
  constructor
  · intro _
    rcases hwait.steps hops with ⟨hheld', hman, hlater⟩
    rcases h.memory with ⟨im, ⟨s, hmir, hs⟩, hst⟩
    have hshown : Shown Knows ⟨σ.names.withSealed b, im.view⟩ { p.inner with dict := d } := by
      refine ⟨{ s with dict := d }, hmir.with_dict d, ?_, hs.view⟩
      exact hs.inv.with_dict (by rw [hst.names]; exact Names.le_withSealed _ b) hd
    refine ⟨⟨σ.names.withSealed b, σ.quads⟩,
      ⟨⟨_, hshown, hst.of_le (Names.le_withSealed _ b)⟩, ?_, ?_, ?_, hlater⟩, rfl⟩
    · exact ⟨b₀, fun hb' => hb (hb₀ hb'), hheld'⟩
    · rw [hman]
      exact h.gen
    · rw [hman]
      exact h.seq
  · intro k gone _
    exact ⟨_, (hwait.cut hops k gone).held, rfl⟩

/-- A compaction leaves the set alone, wherever it gives up or is cut. -/
theorem Serving.compactLocked (I : Implements A Knows CompactOk) (K : Keeps A F Knows CompactOk Ready)
    (h : Serving crc32 F fresh Knows p dir σ) (hready : Ready p.inner.dict)
      (hfits : RingStore.Fits p.inner) (len : D → Nat)
    (huff : Bool) (c : Course) :
    Steady crc32 F fresh Knows dir σ (leftoversLive dir p.snapshotGen p.inner)
      (compactLocked A F len huff c p).2.1 (compactLocked A F len huff c p).2.2 := by
  rcases h.memory with ⟨im, hshown, hst⟩
  rcases compactLocked_cases I K hshown hready len huff c with ⟨m, d₁, d₂, b, hm, hload, hd₂, hseal, hcases⟩
  have hharmless := harmless_beforeRename h.gen h.seq F d₁ (inOrder c.rank (buildGraphs (fun _ => some huff) m))
  have hstaged := staged_beforeRename p F d₁ (nodup_inOrder c.rank (buildGraphs (fun _ => some huff) m)) dir
  simp only at hcases
  generalize beforeRename p F d₁ (inOrder c.rank (buildGraphs (fun _ => some huff) m)) = before at *
  -- it gives up before the rename, or the new generation is complete
  rcases hcases with ⟨f, d, k, hrun, hd⟩ | ⟨d, hrun, hd⟩
  · rw [hrun]
    rw [hst.names] at hd hseal
    exact h.gaveUp (fun op hop => hharmless op (mem_of_mem_take hop)) hd hseal _
  · rw [hrun]
    rcases h.held with ⟨b₀, -, hheld⟩
    have hwait : Waiting crc32 F fresh Knows dir.loadManifest p.walSeq (σ.sealedAs b₀) dir := ⟨hheld, rfl, h.later⟩
    have hwait' := hwait.steps hharmless
    have hok := K.compactOk _ _ hshown.knows hready
    have hcommit := fun hleft => hstaged.commit I crc32 fresh hwait'.later hleft hshown hst hok hfits
      hm hload hd₂
    have hman : ∀ gone, (((dir.steps before).step .renameManifest).delete gone).loadManifest =
        ⟨p.snapshotGen + 1, p.walSeq + 1⟩ := by
      intro gone
      show (dir.steps before).manifestTmp.getD _ = _
      rw [hstaged.tmp]
      rfl
    constructor
    · intro hclean
      have hsteps : dir.steps (before ++ [.renameManifest, .cleanupOrphans (p.snapshotGen + 1) (p.walSeq + 1)]) =
          ((dir.steps before).step .renameManifest).delete (RingDir.isOrphan (p.snapshotGen + 1) (p.walSeq + 1)) :=
        Device.steps_append _ _ _
      rw [hsteps]
      rcases hcommit (hclean (by simp [isRename])) with ⟨-, hdelete⟩
      have hheld' := hdelete _ fun _ hf => hf
      have hcompacted : Compacted Knows huff im b m { p.inner with
          dict := d
          graphs := buildGraphs (fun _ => some huff) m
          delta := .new
          compactionCount := p.inner.compactionCount + 1 } := ⟨hd, rfl, fun _ => rfl⟩
      refine ⟨_, ⟨⟨_, hcompacted.shown I hshown hok hm hfits, hst.compact b⟩,
        ⟨_, fun hb => hb, ?_⟩, ?_, ?_, ?_⟩, rfl⟩
      · rw [Spec.sealedAs_self rfl]
        exact hheld'
      · rw [hman]
      · rw [hman]
      · intro e he hlt
        exact hwait'.later e (mem_of_mem_filter he) (Nat.lt_of_succ_lt hlt)
    · intro k gone hclean
      rw [RingDir.cut, Device.cut_append]
      by_cases hk : k < before.length
      · -- the directory still waits
        rw [if_pos hk]
        exact ⟨_, (hwait.cut hharmless k gone).held, rfl⟩
      · rw [if_neg hk]
        rcases Nat.exists_eq_add_of_le (Nat.not_lt.mp hk) with ⟨j, rfl⟩
        rw [Nat.add_sub_cancel_left]
        -- cut before the rename, right behind it, or within the clean-up
        match j with
        | 0 => exact ⟨_, hwait'.held, rfl⟩
        | 1 =>
          rcases hcommit (hclean (by simp [take_append, isRename])) with ⟨-, hdelete⟩
          refine ⟨_, hdelete (fun f => RingDir.isOrphan (p.snapshotGen + 1) (p.walSeq + 1) f && gone f) ?_, rfl⟩
          intro f hf
          exact (Bool.and_eq_true_iff.mp hf).1
        | j + 2 =>
          rcases hcommit (hclean (by simp [take_append, isRename])) with ⟨-, hdelete⟩
          refine ⟨⟨σ.names.withSealed b, σ.quads⟩, ?_, rfl⟩
          rw [Device.cut_cons_succ, Device.cut_cons_succ, Device.cut_nil]
          exact hdelete _ fun _ hf => hf

end PersistentRing

end Nova
