import Nova.Louds.Writers
import Nova.Ring.PlanCache
import Nova.Ring.Refine

/-!
# Writers and the snapshot of the images

`RingStore` is a mutex around the store and, beside it, a snapshot of the graph images
that leapfrog joins read without the mutex. A writer drops the snapshot and the plans
made from it first, then works under the mutex; a compaction publishes its images after
it has let go of it. `RingShared.step` interleaves the single assignments of any number
of writers in any order.

Two orders of steps are wrong: a publication between the clear of another writer and its
lock section, and the lock section of a write between the lock section of another writer
that has compacted and its publication. `snapshot_current` says that without them a
published snapshot is always the current one; compactions may overlap in any way, since
one that finds nothing pending builds its images from the same triples. In
`late_publication_hides_write` a compaction publishes between the two steps of an insertion.

The file-system part of a compaction is left out; a poisoned lock does not exist in the
source's mutex.
-/

namespace Nova

open Nova.Lib Nova.Ring

namespace RingShared

/-- What a writer does in one step. -/
inductive Action where
  | clearDecode
  | clearGraphsSnap
  | clearPhysicalOpCache
  | clearSpAdjCache
  | fetchAdd
  | lockSection (e : LoudsStore.Event)
  | fetchAddFor (decode : DecodeSnapshot) (graphs : GraphMap BraidedGraphImage)
  | publishDecode (decode : DecodeSnapshot)
  | publishGraphs (graphs : GraphMap BraidedGraphImage)

/-- `clear_compact_snaps`. -/
def clearCompactSnaps : List Action :=
  [.clearDecode, .clearGraphsSnap, .clearPhysicalOpCache, .clearSpAdjCache, .fetchAdd]

/-- `publish_after_compact`, up to the version; the publications follow it. -/
def publishAfterCompact (decode : DecodeSnapshot) (graphs : GraphMap BraidedGraphImage) : List Action :=
  [.clearPhysicalOpCache, .clearSpAdjCache, .fetchAddFor decode graphs]

/-- The steps of a call, to the end of its lock section. -/
def program : LoudsStore.Event → List Action
  | .call (.extendBoxed []) | .call (.applyBatch []) => []
  | .call .compact => [.lockSection (.call .compact)]
  | e => clearCompactSnaps ++ [.lockSection e]

end RingShared

/-- `RingStore`, with its writers and what they still have to do. The history, which is
not in the source, has the images of every publication with the version it has set; the
latest is first. -/
structure RingShared (D : Type) where
  inner : RingStore D
  decodeSnap : Option DecodeSnapshot
  plans : PlanStore
  history : List (Nat × GraphMap BraidedGraphImage)
  writers : List (List RingShared.Action)

namespace RingStore

variable {D : Type} (A : DictApi D) (len : D → Nat) (files : Residency) (threshold : Option Nat)

/-! ## Lock sections -/

/-- `maybe_auto_compact`; a store without a data directory has no threshold. -/
def maybeAutoCompact (s : RingStore D) : Outcome D (Option DecodeSnapshot) :=
  match threshold with
  | none => (.ok none, s)
  | some t =>
    if t ≤ s.delta.len then andThen (compactLocked A len files s) fun table s => (.ok (some table), s)
    else (.ok none, s)

/-- What a writer does under the lock; a compaction hands out the decode snapshot. -/
def lockSection (s : RingStore D) : LoudsStore.Event → Outcome D (Option DecodeSnapshot)
  | .call (.insert q) => andThen (applyInsert A s q) fun _ s => maybeAutoCompact A len files threshold s
  | .call (.remove q) => andThen (applyRemove A s q) fun _ s => maybeAutoCompact A len files threshold s
  | .call (.extendBoxed quads) =>
    andThen (insertAll A s 0 quads) fun _ s => maybeAutoCompact A len files threshold s
  | .call (.applyBatch ops) => andThen (applyAll A s 0 0 ops) fun _ s => maybeAutoCompact A len files threshold s
  | .call .compact => andThen (compactLocked A len files s) fun table s => (.ok (some table), s)
  | .bulkLoad quads =>
    andThen (insertAll A s 0 quads) fun newInserts s =>
      if 0 < newInserts ∨ s.delta.isEmpty = false then
        andThen (compactLocked A len files s) fun table s => (.ok (some table), s)
      else (.ok none, s)

end RingStore

namespace RingShared

variable {D : Type} (A : DictApi D) (len : D → Nat) (files : Residency) (threshold : Option Nat)

/-! ## Interleavings -/

/-- `fetch_add(1)` on 64 bits. -/
def nextVersion (v : Nat) : Nat := (v + 1) % 2 ^ 64

/-- One step of a writer, and the steps it adds to do next. -/
def act (st : RingShared D) : Action → Except Fault (List Action) × RingShared D
  | .clearDecode => (.ok [], { st with decodeSnap := none })
  | .clearGraphsSnap => (.ok [], { st with plans := { st.plans with graphsSnap := none } })
  | .clearPhysicalOpCache =>
    (.ok [], { st with plans := { st.plans with physicalOpCache := st.plans.physicalOpCache.clear } })
  | .clearSpAdjCache => (.ok [], { st with plans := { st.plans with spAdjCache := st.plans.spAdjCache.clear } })
  | .fetchAdd =>
    (.ok [], { st with plans := { st.plans with snapshotVersion := nextVersion st.plans.snapshotVersion } })
  | .lockSection e =>
    match RingStore.lockSection A len files threshold st.inner e with
    | (.error f, s) => (.error f, { st with inner := s })
    | (.ok none, s) => (.ok [], { st with inner := s })
    | (.ok (some decode), s) => (.ok (publishAfterCompact decode s.graphs), { st with inner := s })
  | .fetchAddFor decode graphs =>
    let version := nextVersion st.plans.snapshotVersion
    (.ok [.publishDecode decode, .publishGraphs graphs],
      { st with
        plans := { st.plans with snapshotVersion := version }
        history := (version, graphs) :: st.history })
  | .publishDecode decode => (.ok [], { st with decodeSnap := some decode })
  | .publishGraphs graphs => (.ok [], { st with plans := { st.plans with graphsSnap := some graphs } })

/-- A call starts a writer; any writer does its next step. -/
inductive Input where
  | call (e : LoudsStore.Event)
  | run (i : Nat)

def step : Machine (RingShared D) Input Fault Unit
  | st, .call e => (.ok (), { st with writers := st.writers ++ [program e] })
  | st, .run i =>
    match st.writers[i]? with
    | some (a :: rest) =>
      match act A len files threshold st a with
      | (.error f, st) => (.error f, { st with writers := st.writers.set i [] })
      | (.ok next, st) => (.ok (), { st with writers := st.writers.set i (next ++ rest) })
    | _ => (.ok (), st)

/-- `RingStore::new`. -/
def new (d : D) : RingShared D := ⟨.new d, none, .new none 0, [], []⟩

/-- The end of `RingStore::open`: a snapshot is published at once if nothing is pending. -/
def opened (s : RingStore D) : Except Panic (RingShared D) :=
  if s.delta.isEmpty ∧ ¬s.graphs.isEmpty then do
    let (table, d) ← RingStore.buildDecodeSnapshot A s.dict (List.range (len s.dict))
    return ⟨{ s with dict := d }, some table, .new (some s.graphs) 1, [(1, s.graphs)], []⟩
  else .ok ⟨s, none, .new none 0, [], []⟩

/-- How a store comes into being. -/
inductive Start : RingShared D → Prop where
  | new (d : D) : Start (.new d)
  | opened {s : RingStore D} {st : RingShared D} (h : opened A len s = .ok st) : Start st

/-! ## What the joins see -/

/-- `graph_from_snap`. -/
def graphFromSnap (st : RingShared D) (g : GraphId) : Option BraidedGraphImage :=
  st.plans.graphsSnap.bind (·[g]?)

/-- `lftj_has_delta`. -/
def lftjHasDelta (st : RingShared D) : Bool := st.plans.graphsSnap.isNone && !st.inner.delta.isEmpty

/-- The triples of a graph; without an image it has none. -/
def listed (graphs : GraphMap BraidedGraphImage) (g : GraphId) : Option (List Row) :=
  match graphs[g]? with
  | none => some []
  | some img => img.enumerateSpoExternal

/-- The published images list the triples of the store's own, and nothing is pending. -/
def Current (st : RingShared D) : Prop :=
  ∀ graphs ∈ st.plans.graphsSnap,
    (∀ g, listed graphs g = listed st.inner.graphs g) ∧ st.inner.delta.isEmpty = true

/-- Whoever reads the snapshot alone sees what the store holds. -/
def SeesWrites (st : RingShared D) : Prop :=
  st.plans.graphsSnap.isSome = true →
    ∀ q, RingStore.contains A { st.inner with graphs := st.plans.graphsSnap.getD ∅, delta := .new } q =
      RingStore.contains A st.inner q

/-! ## The order of the steps -/

namespace Action

/-- A lock section that writes; the snapshot has to be dropped before it. -/
def writes : Action → Bool
  | .lockSection (.call .compact) => false
  | .lockSection _ => true
  | _ => false

def clears : Action → Bool
  | .clearGraphsSnap => true
  | _ => false

def publishes : Action → Bool
  | .publishGraphs _ => true
  | _ => false

/-- The images the step publishes or is on the way to publish. -/
def images : Action → Option (GraphMap BraidedGraphImage)
  | .fetchAddFor _ graphs | .publishGraphs graphs => some graphs
  | _ => none

end Action

/-- The writer has dropped the snapshot, and its lock section is still to come. -/
def between (todo : List Action) : Bool := todo.any Action.writes && !todo.any Action.clears

/-- The writer has compacted, and its publication is still to come. -/
def publishing (todo : List Action) : Bool := todo.any fun a => a.images.isSome

/-- What the step does. -/
def nextAction (st : RingShared D) : Input → Option Action
  | .call _ => none
  | .run i => (st.writers[i]?.getD []).head?

/-- What the other writers still have to do. -/
def others (st : RingShared D) : Input → List (List Action)
  | .call _ => st.writers
  | .run i => st.writers.eraseIdx i

/-- No lock section of a write while another writer is about to publish, and no
publication while another writer is about to write. -/
def Orderly (st : RingShared D) (i : Input) : Prop :=
  ∀ a ∈ nextAction st i,
    (a.writes = true → ∀ todo ∈ others st i, publishing todo = false) ∧
      (a.publishes = true → ∀ todo ∈ others st i, between todo = false)

/-- After the writes of a lock section the triples of every graph fit into an image. -/
def Fitting (st : RingShared D) (i : Input) : Prop :=
  ∀ a ∈ nextAction st i, ∀ e, a = .lockSection e →
    RingStore.Fits (RingStore.applyWrites A st.inner (RingStore.writes e)).2

variable {A len files threshold} {st : RingShared D}

/-! ## Images of triples -/

/-- Every image is an image of triples that fit. -/
def Sound (graphs : GraphMap BraidedGraphImage) : Prop :=
  ∀ (g : GraphId) img, graphs[g]? = some img → ∃ triples, FitsU32 triples ∧ ImageOf img triples

/-- The images stand for what the store holds, which has nothing pending. -/
structure StandsFor (graphs : GraphMap BraidedGraphImage) (s : RingStore D) : Prop where
  sound : Sound graphs
  listed : ∀ g, listed graphs g = listed s.graphs g
  compacted : s.delta.isEmpty = true

theorem Sound.imageContains_eq {s : RingStore D} (h : Sound s.graphs) (g : GraphId) (sId pId oId : TermId) :
    s.imageContains g sId pId oId =
      (listed s.graphs g).map fun rows => decide ((sId.asU64, pId.asU64, oId.asU64) ∈ rows) := by
  rw [RingStore.imageContains, listed]
  rcases himg : s.graphs[g]? with _ | img
  · simp
  · obtain ⟨triples, hfits, himage⟩ := h g img himg
    show img.containsExternal _ _ _ = Option.map _ img.enumerateSpoExternal
    rw [containsExternal_eq hfits himage, enumerateSpoExternal_eq hfits himage]
    simp [mem_distinctRows]

theorem StandsFor.contains_eq {graphs : GraphMap BraidedGraphImage} {s : RingStore D} (h : StandsFor graphs s)
    (hsound : Sound s.graphs) (q : Quad) :
    RingStore.contains A { s with graphs := graphs, delta := .new } q = RingStore.contains A s q := by
  have hpending : ∀ k, s.delta.get k = Delta.new.get k := by
    intro k
    exact Std.TreeMap.getElem?_of_isEmpty h.compacted
  have himages : ∀ g sId pId oId, { s with graphs := graphs, delta := .new }.imageContains g sId pId oId =
      s.imageContains g sId pId oId := by
    intro g sId pId oId
    rw [hsound.imageContains_eq, ← h.listed g]
    exact Sound.imageContains_eq (s := { s with graphs := graphs, delta := .new }) h.sound g sId pId oId
  unfold RingStore.contains
  simp only [himages, hpending]

/-- What is read back from an image is sorted, each triple once. -/
theorem Sound.distinctRows_eq {graphs : GraphMap BraidedGraphImage} (h : Sound graphs) {g : GraphId}
    {rows : List Row} (hrows : listed graphs g = some rows) : distinctRows rows = rows := by
  rw [listed] at hrows
  rcases himg : graphs[g]? with _ | img <;> rw [himg] at hrows
  · obtain rfl : [] = rows := Option.some.inj hrows
    rfl
  · obtain ⟨triples, hfits, himage⟩ := h g img himg
    obtain rfl : distinctRows triples = rows :=
      Option.some.inj ((enumerateSpoExternal_eq hfits himage).symm.trans hrows)
    exact (eq_distinctRows (distinctRows_sorted triples) (distinctRows_nodup triples) fun t => Iff.rfl).symm

/-! ## Compaction -/

theorem Sound.perGraph {s : RingStore D} (h : Sound s.graphs) :
    ∃ m, s.perGraph = some m ∧ ∀ g : GraphId, some (m[g]?.getD []) = listed s.graphs g := by
  have himage : ∀ (g : GraphId) img, s.graphs[g]? = some img →
      ∃ rows, img.enumerateSpoExternal = some rows := by
    intro g img himg
    obtain ⟨triples, hfits, himage⟩ := h g img himg
    exact ⟨_, enumerateSpoExternal_eq hfits himage⟩
  obtain ⟨m, hm, hget⟩ := RingStore.perGraph_eq fun e he =>
    himage e.1 e.2 (Std.TreeMap.mem_toList_iff_getElem?_eq_some.mp he)
  refine ⟨m, hm, ?_⟩
  intro g
  rw [hget, listed]
  rcases himg : s.graphs[g]? with _ | img
  · rfl
  · obtain ⟨rows, hrows⟩ := himage g img himg
    rw [Option.bind_some, hrows]
    exact hrows.symm

section Build

variable {m : GraphMap (List Row)} (files : GraphId → Option Bool)
  (hfits : ∀ (g : GraphId) (triples : List Row), m[g]? = some triples → FitsU32 triples)
include hfits

theorem sound_buildGraphs : Sound (RingStore.buildGraphs files m) := by
  intro g img himg
  rw [RingStore.buildGraphs, Std.TreeMap.getElem?_filterMap', Option.bind_eq_some_iff] at himg
  obtain ⟨triples, htriples, himg⟩ := himg
  obtain ⟨-, rfl⟩ : triples.isEmpty = false ∧ _ = img := by simpa using himg
  exact ⟨triples, hfits g triples htriples, RingStore.imageOf_buildImage (hfits g triples htriples) _⟩

theorem listed_buildGraphs (g : GraphId) :
    listed (RingStore.buildGraphs files m) g = some (distinctRows (m[g]?.getD [])) := by
  rw [listed, RingStore.buildGraphs, Std.TreeMap.getElem?_filterMap']
  rcases htriples : m[g]? with _ | triples
  · rfl
  · have hfits' := hfits g triples htriples
    rcases triples with _ | ⟨t, triples⟩
    · rfl
    · exact enumerateSpoExternal_eq hfits' (RingStore.imageOf_buildImage hfits' _)

end Build

/-- A compaction fails before it has touched images and delta, or builds the images of
the merged triples. -/
theorem compactLocked_cases (A : DictApi D) (len : D → Nat) (files : Residency) (s : RingStore D) :
    ((RingStore.compactLocked A len files s).1.isOk = false ∧
        (RingStore.compactLocked A len files s).2.graphs = s.graphs ∧
        (RingStore.compactLocked A len files s).2.delta = s.delta) ∨
      ∃ m, s.merged = some m ∧
        (RingStore.compactLocked A len files s).2.graphs = RingStore.buildGraphs (files s.compactionCount) m ∧
        (RingStore.compactLocked A len files s).2.delta = s.delta.clear := by
  rw [RingStore.compactLocked]
  rcases hm : s.merged with _ | m
  · exact .inl ⟨rfl, rfl, rfl⟩
  · dsimp only
    rw [RingStore.compactDict]
    rcases A.compact s.dict with p | ⟨e | _, d⟩
    · exact .inl ⟨rfl, rfl, rfl⟩
    · exact .inl ⟨rfl, rfl, rfl⟩
    · refine .inr ⟨m, rfl, ?_⟩
      dsimp only [RingStore.andThen]
      rcases RingStore.buildDecodeSnapshot A d (List.range (len d)) with p | ⟨table, d'⟩ <;> exact ⟨rfl, rfl⟩

section Compaction

variable (A len files) {s : RingStore D} (hfits : RingStore.Fits s)
include hfits

theorem sound_compactLocked (hsound : Sound s.graphs) :
    Sound (RingStore.compactLocked A len files s).2.graphs := by
  rcases compactLocked_cases A len files s with ⟨-, hgraphs, -⟩ | ⟨m, hm, hgraphs, -⟩
  · rw [hgraphs]
    exact hsound
  · rw [hgraphs]
    exact sound_buildGraphs _ (hfits m hm)

theorem standsFor_self (hok : (RingStore.compactLocked A len files s).1.isOk = true) :
    StandsFor (RingStore.compactLocked A len files s).2.graphs (RingStore.compactLocked A len files s).2 := by
  rcases compactLocked_cases A len files s with ⟨hfailed, -, -⟩ | ⟨m, hm, hgraphs, hdelta⟩
  · rw [hfailed] at hok
    cases hok
  · refine ⟨?_, fun g => rfl, ?_⟩
    · rw [hgraphs]
      exact sound_buildGraphs _ (hfits m hm)
    · rw [hdelta]
      rfl

/-- A compaction that finds nothing pending builds images of the same triples. -/
theorem standsFor_compactLocked {graphs : GraphMap BraidedGraphImage} (h : StandsFor graphs s)
    (hsound : Sound s.graphs) : StandsFor graphs (RingStore.compactLocked A len files s).2 := by
  rcases compactLocked_cases A len files s with ⟨-, hgraphs, hdelta⟩ | ⟨m, hm, hgraphs, hdelta⟩
  · exact ⟨h.sound, fun g => by rw [hgraphs, h.listed], by rw [hdelta, h.compacted]⟩
  · refine ⟨h.sound, ?_, by rw [hdelta]; rfl⟩
    obtain ⟨m', hm', hlist⟩ := hsound.perGraph
    obtain rfl : m' = m := by
      have hiter : s.delta.iter = [] := by
        rw [← List.isEmpty_iff]
        exact Std.TreeMap.isEmpty_toList.trans h.compacted
      rw [RingStore.merged, hm', hiter] at hm
      exact Option.some.inj hm
    intro g
    rw [hgraphs, listed_buildGraphs _ (hfits m' hm), h.listed, ← hlist g, hsound.distinctRows_eq (hlist g).symm]

end Compaction

/-! ## Lock sections -/

theorem andThen_graphs {α β : Type} {x : RingStore.Outcome D α}
    {k : α → RingStore D → RingStore.Outcome D β} {graphs : GraphMap BraidedGraphImage} (hx : x.2.graphs = graphs)
    (hk : ∀ a s, s.graphs = graphs → (k a s).2.graphs = graphs) : (RingStore.andThen x k).2.graphs = graphs := by
  obtain ⟨_ | a, s⟩ := x
  · exact hx
  · exact hk a s hx

theorem intern_graphs (s : RingStore D) (t : Term) : (RingStore.intern A s t).2.graphs = s.graphs := by
  rw [RingStore.intern]
  rcases A.intern s.dict t with p | ⟨e | id, d⟩ <;> rfl

theorem internQuad_graphs (s : RingStore D) (q : Quad) : (RingStore.internQuad A s q).2.graphs = s.graphs := by
  apply andThen_graphs
  · rw [RingStore.internGraph]
    rcases A.internGraph s.dict q.graphName with ⟨e | id, d⟩ <;> rfl
  intro g s₁ h₁
  apply andThen_graphs ((intern_graphs s₁ _).trans h₁)
  intro sId s₂ h₂
  apply andThen_graphs ((intern_graphs s₂ _).trans h₂)
  intro pId s₃ h₃
  exact andThen_graphs ((intern_graphs s₃ _).trans h₃) fun oId s₄ h₄ => h₄

/-- Single writes touch no image. -/
theorem applyOne_graphs (s : RingStore D) (w : QuadOp) : (RingStore.applyOne A s w).2.graphs = s.graphs := by
  rcases w with q | q
  · apply andThen_graphs (internQuad_graphs s q)
    rintro ⟨g, sId, pId, oId⟩ s' h
    dsimp only
    rcases s'.delta.get (packQuad g sId pId oId) with _ | _ | _
    · rcases s'.imageContains g sId pId oId with _ | _ | _
      · exact h
      · rcases q.graphName with _ | _ | _ <;> exact h
      · exact h
    · exact h
    · exact h
  · rw [RingStore.applyOne, RingStore.applyRemove]
    rcases LoudsStore.lookupQuad A s.dict q with p | _ | ⟨g, sId, pId, oId⟩
    · rfl
    · rfl
    dsimp only
    rcases s.delta.get (packQuad g sId pId oId) with _ | _ | _
    · rcases s.imageContains g sId pId oId with _ | _ | _ <;> rfl
    · rfl
    · rfl

theorem applyWrites_graphs (s : RingStore D) (ws : List QuadOp) :
    (RingStore.applyWrites A s ws).2.graphs = s.graphs := by
  have hstep : ∀ (s' : RingStore D) (w : QuadOp), s'.graphs = s.graphs → True →
      (RingStore.applyOne A s' w).2.graphs = s.graphs :=
    fun s' w hs _ => (applyOne_graphs s' w).trans hs
  exact Machine.batch_inv hstep rfl (Machine.batchMeets_true s ws)

/-- The outcome of a lock section that has come to `s` with its writes: nothing more
happens, or a compaction. -/
def Ends (A : DictApi D) (len : D → Nat) (files : Residency) (s : RingStore D)
    (x : RingStore.Outcome D (Option DecodeSnapshot)) : Prop :=
  (x.2 = s ∧ ∀ decode, x.1 ≠ .ok (some decode)) ∨
    x = RingStore.andThen (RingStore.compactLocked A len files s) fun table s => (.ok (some table), s)

theorem ends_maybeAutoCompact (s : RingStore D) :
    Ends A len files s (RingStore.maybeAutoCompact A len files threshold s) := by
  rcases threshold with _ | t
  · exact .inl ⟨rfl, by simp [RingStore.maybeAutoCompact]⟩
  · rw [RingStore.maybeAutoCompact]
    by_cases hfull : t ≤ s.delta.len
    · rw [if_pos hfull]
      exact .inr rfl
    · rw [if_neg hfull]
      exact .inl ⟨rfl, by simp⟩

theorem ends_andThen {β : Type} {x : RingStore.Outcome D β}
    {k : β → RingStore D → RingStore.Outcome D (Option DecodeSnapshot)} (hk : ∀ b,
      Ends A len files x.2 (k b x.2)) :
    Ends A len files x.2 (RingStore.andThen x k) := by
  obtain ⟨_ | b, s⟩ := x
  · exact .inl ⟨rfl, by simp [RingStore.andThen]⟩
  · exact hk b

theorem lockSection_ends (A : DictApi D) (len : D → Nat) (files : Residency) (threshold : Option Nat)
    (s : RingStore D) (e : LoudsStore.Event) :
    Ends A len files (RingStore.applyWrites A s (RingStore.writes e)).2
      (RingStore.lockSection A len files threshold s e) := by
  have hone : ∀ w : QuadOp, (RingStore.applyWrites A s [w]).2 = (RingStore.applyOne A s w).2 := by
    intro w
    rw [RingStore.applyWrites_cons]
    rcases RingStore.applyOne A s w with ⟨_ | b, s'⟩ <;> rfl
  rcases e with (q | q | quads | ops | _) | quads
  · rw [RingStore.writes, LoudsStore.Call.writes, hone]
    exact ends_andThen fun b => ends_maybeAutoCompact _
  · rw [RingStore.writes, LoudsStore.Call.writes, hone]
    exact ends_andThen fun b => ends_maybeAutoCompact _
  · rw [RingStore.lockSection, RingStore.insertAll_eq, RingStore.andThen_assoc]
    exact ends_andThen fun bs => ends_maybeAutoCompact _
  · rw [RingStore.lockSection, RingStore.applyAll_eq, RingStore.andThen_assoc]
    exact ends_andThen fun bs => ends_maybeAutoCompact _
  · exact .inr rfl
  · rw [RingStore.lockSection, RingStore.insertAll_eq, RingStore.andThen_assoc]
    apply ends_andThen
    intro bs
    dsimp only [RingStore.andThen]
    split
    · exact .inr rfl
    · exact .inl ⟨rfl, by simp⟩

section LockSection

variable {e : LoudsStore.Event}
  (hfits : RingStore.Fits (RingStore.applyWrites A st.inner (RingStore.writes e)).2)
include hfits

theorem sound_lockSection (hsound : Sound st.inner.graphs) :
    Sound (RingStore.lockSection A len files threshold st.inner e).2.graphs := by
  have hsound' : Sound (RingStore.applyWrites A st.inner (RingStore.writes e)).2.graphs := by
    rw [applyWrites_graphs]
    exact hsound
  rcases lockSection_ends A len files threshold st.inner e with ⟨hsame, -⟩ | hx
  · rw [hsame]
    exact hsound'
  · have hcompacted := sound_compactLocked A len files hfits hsound'
    rw [hx]
    generalize RingStore.compactLocked A len files _ = y at hcompacted ⊢
    obtain ⟨_ | table, s'⟩ := y <;> exact hcompacted

/-- What a lock section hands out for publication stands for the store it leaves. -/
theorem standsFor_handedOut {decode : DecodeSnapshot}
    (hok : (RingStore.lockSection A len files threshold st.inner e).1 = .ok (some decode)) :
    StandsFor (RingStore.lockSection A len files threshold st.inner e).2.graphs
      (RingStore.lockSection A len files threshold st.inner e).2 := by
  rcases lockSection_ends A len files threshold st.inner e with ⟨-, hnone⟩ | hx
  · exact absurd hok (hnone decode)
  · have hself := standsFor_self A len files hfits
    rw [hx] at hok ⊢
    generalize RingStore.compactLocked A len files _ = y at hself hok ⊢
    obtain ⟨_ | table, s'⟩ := y
    · cases hok
    · exact hself rfl

end LockSection

/-- The lock section of `compact` leaves images standing that stood for the store. -/
theorem StandsFor.lockSection {graphs : GraphMap BraidedGraphImage} (h : StandsFor graphs st.inner)
    (hsound : Sound st.inner.graphs) (hfits : RingStore.Fits st.inner) :
    StandsFor graphs (RingStore.lockSection A len files threshold st.inner (.call .compact)).2 := by
  have hcompacted := standsFor_compactLocked A len files hfits h hsound
  rw [RingStore.lockSection]
  generalize RingStore.compactLocked A len files _ = y at hcompacted ⊢
  obtain ⟨_ | table, s'⟩ := y <;> exact hcompacted

/-! ## A step -/

/-- What is left of a call, or of the publication after it. -/
def Left (todo : List Action) : Prop := (∃ e, todo <:+ program e) ∨ todo.any Action.writes = false

/-- What holds of a writer that has `todo` to do, of the store and of the snapshot. -/
structure InOrder (s : RingStore D) (snap : Option (GraphMap BraidedGraphImage)) (todo : List Action) :
    Prop where
  pending : ∀ a ∈ todo, ∀ graphs ∈ a.images, StandsFor graphs s
  dropped : between todo = true → snap = none
  left : Left todo

/-- What the orderly steps keep. -/
structure Ordered (st : RingShared D) : Prop where
  sound : Sound st.inner.graphs
  snapshot : ∀ graphs ∈ st.plans.graphsSnap, StandsFor graphs st.inner
  writers : ∀ todo ∈ st.writers, InOrder st.inner st.plans.graphsSnap todo

theorem Left.tail {a : Action} {rest : List Action} (h : Left (a :: rest)) : Left rest := by
  rcases h with ⟨e, he⟩ | hnone
  · exact .inl ⟨e, (List.suffix_cons a rest).trans he⟩
  · rw [List.any_cons, Bool.or_eq_false_iff] at hnone
    exact .inr hnone.2

theorem program_cases (e : LoudsStore.Event) :
    program e = [] ∨ program e = [.lockSection (.call .compact)] ∨
      program e = clearCompactSnaps ++ [.lockSection e] := by
  rcases e with (q | q | _ | _ | _) | quads
  case call.extendBoxed quads => rcases quads with _ | _ <;> simp [program]
  case call.applyBatch ops => rcases ops with _ | _ <;> simp [program]
  all_goals simp [program]

/-- A step that is part of no call comes after the lock section. -/
theorem Left.no_write {a : Action} {rest : List Action} (h : Left (a :: rest)) (ha : ∀ e, a ∉ program e) :
    rest.any Action.writes = false := by
  rcases h with ⟨e, he⟩ | hnone
  · exact absurd (he.subset List.mem_cons_self) (ha e)
  · rw [List.any_cons, Bool.or_eq_false_iff] at hnone
    exact hnone.2

/-- The lock section of a write is the end of its call. -/
theorem Left.lock_last {e : LoudsStore.Event} {rest : List Action} (h : Left (.lockSection e :: rest)) :
    rest = [] ∨ e = .call .compact ∧ rest.any Action.writes = false := by
  rcases h with ⟨e', he⟩ | hnone
  · obtain ⟨done, hdone⟩ := he
    rcases List.eq_nil_or_concat rest with rfl | ⟨front, last, rfl⟩
    · exact .inl rfl
    · -- only clears come before the end of a call
      have hinit : (.lockSection e :: front) <:+ (program e').dropLast := by
        refine ⟨done, ?_⟩
        rw [← hdone, List.concat_eq_append, ← List.cons_append, ← List.append_assoc, List.dropLast_concat]
      have hclear : (program e').dropLast ⊆ clearCompactSnaps := by
        rcases program_cases e' with he | he | he <;> rw [he] <;> simp [List.dropLast_append_of_ne_nil]
      have hin := hclear (hinit.subset List.mem_cons_self)
      simp [clearCompactSnaps] at hin
  · rw [List.any_cons, Bool.or_eq_false_iff] at hnone
    obtain ⟨hcompact, hrest⟩ := hnone
    refine .inr ⟨?_, hrest⟩
    rcases e with (q | q | quads | ops | _) | quads <;> first | rfl | cases hcompact

theorem InOrder.tail {s : RingStore D} {snap : Option (GraphMap BraidedGraphImage)} {a : Action}
    {rest : List Action} (h : InOrder s snap (a :: rest)) (hwrites : a.writes = false)
      (hclears : a.clears = false) :
    InOrder s snap rest where
  pending a' ha' := h.pending a' (List.mem_cons_of_mem _ ha')
  dropped hbetween := by
    apply h.dropped
    rw [between, List.any_cons, List.any_cons, hwrites, hclears]
    exact hbetween
  left := h.left.tail

theorem forall_mem_set {α : Type} {P : α → Prop} {l : List α} {i : Nat} {x : α}
    (h : ∀ y ∈ l.eraseIdx i, P y) (hx : P x) : ∀ y ∈ l.set i x, P y := by
  intro y hy
  obtain ⟨j, hj⟩ := List.mem_iff_getElem?.mp hy
  by_cases hij : i = j
  · rw [hij, List.getElem?_set_self'] at hj
    obtain ⟨-, -, rfl⟩ := Option.map_eq_some_iff.mp hj
    exact hx
  · rw [List.getElem?_set_ne hij] at hj
    exact h y (List.mem_eraseIdx_iff_getElem?.mpr ⟨j, fun heq => hij heq.symm, hj⟩)

theorem inOrder_program (s : RingStore D) (snap : Option (GraphMap BraidedGraphImage)) (e : LoudsStore.Event) :
    InOrder s snap (program e) := by
  refine ⟨?_, ?_, .inl ⟨e, List.suffix_rfl⟩⟩
  · rcases program_cases e with he | he | he <;> rw [he] <;> simp [clearCompactSnaps, Action.images]
  · rcases program_cases e with he | he | he <;> rw [he] <;>
      simp [between, clearCompactSnaps, Action.writes, Action.clears]

theorem inOrder_nil (s : RingStore D) (snap : Option (GraphMap BraidedGraphImage)) : InOrder s snap [] :=
  ⟨by simp, by simp [between], .inr rfl⟩

theorem publishGraphs_not_mem (graphs : GraphMap BraidedGraphImage) (e : LoudsStore.Event) :
    .publishGraphs graphs ∉ program e := by
  rcases program_cases e with he | he | he <;> rw [he] <;> simp [clearCompactSnaps]

theorem fetchAddFor_not_mem (decode : DecodeSnapshot) (graphs : GraphMap BraidedGraphImage)
    (e : LoudsStore.Event) :
    .fetchAddFor decode graphs ∉ program e := by
  rcases program_cases e with he | he | he <;> rw [he] <;> simp [clearCompactSnaps]

section Step

variable {i : Nat}

/-- A lock section keeps the order: no other writer stands between its lock and its publication. -/
theorem lock_ordered (h : Ordered st) {e : LoudsStore.Event} {rest : List Action}
    (hhead : st.writers[i]? = some (.lockSection e :: rest))
    (horder : (Action.lockSection e).writes = true → ∀ todo ∈ st.writers.eraseIdx i, publishing todo = false)
    (hfits : RingStore.Fits (RingStore.applyWrites A st.inner (RingStore.writes e)).2) :
    Ordered (step A len files threshold st (.run i)).2 := by
  have hown := h.writers _ (List.mem_of_getElem? hhead)
  have hrest : rest.any Action.writes = false := by
    rcases hown.left.lock_last with rfl | ⟨-, hnone⟩
    · rfl
    · exact hnone
  have hsound : Sound (RingStore.lockSection A len files threshold st.inner e).2.graphs :=
    sound_lockSection hfits h.sound
  have hhanded : ∀ decode, (RingStore.lockSection A len files threshold st.inner e).1 = .ok (some decode) →
      StandsFor (RingStore.lockSection A len files threshold st.inner e).2.graphs
        (RingStore.lockSection A len files threshold st.inner e).2 :=
    fun decode hok => standsFor_handedOut hfits hok
  -- what is published or about to be still stands for the store
  have hafter : (∀ graphs ∈ st.plans.graphsSnap,
        StandsFor graphs (RingStore.lockSection A len files threshold st.inner e).2) ∧
      ∀ todo ∈ rest :: st.writers.eraseIdx i,
        InOrder (RingStore.lockSection A len files threshold st.inner e).2 st.plans.graphsSnap todo := by
    have hbefore : ∀ todo ∈ rest :: st.writers.eraseIdx i, between todo = true → st.plans.graphsSnap = none := by
      intro todo htodo hbetween
      rcases List.mem_cons.mp htodo with rfl | hother
      · rw [between, hrest, Bool.false_and] at hbetween
        cases hbetween
      · exact (h.writers todo (List.mem_of_mem_eraseIdx hother)).dropped hbetween
    have hleft : ∀ todo ∈ rest :: st.writers.eraseIdx i, Left todo := by
      intro todo htodo
      rcases List.mem_cons.mp htodo with rfl | hother
      · exact hown.left.tail
      · exact (h.writers todo (List.mem_of_mem_eraseIdx hother)).left
    rcases hwrites : (Action.lockSection e).writes with _ | _
    · -- `compact` itself
      obtain rfl : e = .call .compact := by
        rcases e with (q | q | quads | ops | _) | quads <;> first | rfl | cases hwrites
      refine ⟨fun graphs hgraphs => (h.snapshot graphs hgraphs).lockSection h.sound hfits, ?_⟩
      intro todo htodo
      refine ⟨fun a ha graphs hgraphs => StandsFor.lockSection ?_ h.sound hfits, hbefore todo htodo,
        hleft todo htodo⟩
      rcases List.mem_cons.mp htodo with rfl | hother
      · exact hown.pending a (List.mem_cons_of_mem _ ha) graphs hgraphs
      · exact (h.writers todo (List.mem_of_mem_eraseIdx hother)).pending a ha graphs hgraphs
    · -- a write: the snapshot has been dropped, and no one is about to publish
      obtain rfl : rest = [] := by
        rcases hown.left.lock_last with rfl | ⟨rfl, -⟩
        · rfl
        · cases hwrites
      have hnone : st.plans.graphsSnap = none := hown.dropped (by simp [between, hwrites, Action.clears])
      refine ⟨fun graphs hgraphs => ?_, fun todo htodo =>
        ⟨fun a ha graphs hgraphs => ?_, hbefore todo htodo, hleft todo htodo⟩⟩
      · rw [hnone] at hgraphs
        cases hgraphs
      · rcases List.mem_cons.mp htodo with rfl | hother
        · cases ha
        · have hquiet := List.any_eq_false.mp (horder hwrites todo hother) a ha
          rw [Option.mem_def.mp hgraphs] at hquiet
          exact absurd rfl hquiet
  obtain ⟨hsnap, hall⟩ := hafter
  have hothers := fun todo htodo => hall todo (List.mem_cons_of_mem _ htodo)
  rw [step, hhead]
  dsimp only [act]
  generalize RingStore.lockSection A len files threshold st.inner e = x at hsound hhanded hsnap hall hothers ⊢
  rcases x with ⟨f | _ | decode, s⟩
  · exact ⟨hsound, hsnap, forall_mem_set hothers (inOrder_nil _ _)⟩
  · exact ⟨hsound, hsnap, forall_mem_set hothers (hall rest List.mem_cons_self)⟩
  · have hself := hhanded decode rfl
    refine ⟨hsound, hsnap, forall_mem_set hothers ⟨?_, ?_, .inr ?_⟩⟩
    · intro a ha graphs hgraphs
      rcases List.mem_append.mp ha with hnew | hold
      · obtain rfl : s.graphs = graphs := by
          simp only [publishAfterCompact, List.mem_cons, List.not_mem_nil, or_false] at hnew
          rcases hnew with rfl | rfl | rfl <;> cases hgraphs
          rfl
        exact hself
      · exact (hall rest List.mem_cons_self).pending a hold graphs hgraphs
    · simp [between, hrest, publishAfterCompact, Action.writes]
    · simp [hrest, publishAfterCompact, Action.writes]

/-- Every orderly step keeps the order. -/
theorem step_ordered (h : Ordered st) (x : Input) (horder : Orderly st x) (hfit : Fitting A st x) :
    Ordered (step A len files threshold st x).2 := by
  rcases x with e | i
  · refine ⟨h.sound, h.snapshot, ?_⟩
    intro todo htodo
    rcases List.mem_append.mp htodo with hold | hnew
    · exact h.writers todo hold
    · rw [List.mem_singleton.mp hnew]
      exact inOrder_program _ _ e
  have hothers : ∀ todo ∈ st.writers.eraseIdx i, InOrder st.inner st.plans.graphsSnap todo :=
    fun todo htodo => h.writers todo (List.mem_of_mem_eraseIdx htodo)
  -- a writer that is not there, or is done, does nothing
  rcases hhead : st.writers[i]? with _ | _ | ⟨a, rest⟩
  · rw [step, hhead]
    exact h
  · rw [step, hhead]
    exact h
  have hown := h.writers _ (List.mem_of_getElem? hhead)
  have hnext : a ∈ nextAction st (.run i) := by simp [nextAction, hhead]
  obtain ⟨hwrite, hpublish⟩ := horder a hnext
  rcases a with _ | _ | _ | _ | _ | e | ⟨decode, graphs⟩ | decode | graphs
  case lockSection => exact lock_ordered h hhead hwrite (hfit _ hnext e rfl)
  case clearGraphsSnap =>
    rw [step, hhead]
    have hdropped : ∀ {todo}, InOrder st.inner st.plans.graphsSnap todo → InOrder st.inner none todo :=
      fun htodo => ⟨htodo.pending, fun _ => rfl, htodo.left⟩
    refine ⟨h.sound, by simp [act], forall_mem_set (fun todo htodo => hdropped (hothers todo htodo)) ?_⟩
    exact ⟨fun a' ha' => hown.pending a' (List.mem_cons_of_mem _ ha'), fun _ => rfl, hown.left.tail⟩
  -- the two publications follow at once, with the images of this compaction
  case fetchAddFor =>
    rw [step, hhead]
    have hgraphs := hown.pending _ List.mem_cons_self graphs rfl
    have hrest := hown.left.no_write (fetchAddFor_not_mem decode graphs)
    refine ⟨h.sound, h.snapshot, forall_mem_set hothers ⟨?_, ?_, .inr ?_⟩⟩
    · intro a' ha' graphs' hgraphs'
      rcases List.mem_append.mp ha' with hnew | hold
      · obtain rfl : graphs = graphs' := by
          simp only [List.mem_cons, List.not_mem_nil, or_false] at hnew
          rcases hnew with rfl | rfl <;> cases hgraphs'
          rfl
        exact hgraphs
      · exact hown.pending a' (List.mem_cons_of_mem _ hold) graphs' hgraphs'
    · simp [between, hrest, Action.writes]
    · simp [hrest, Action.writes]
  case publishGraphs =>
    rw [step, hhead]
    have hgraphs := hown.pending _ List.mem_cons_self graphs rfl
    have hrest := hown.left.no_write (publishGraphs_not_mem graphs)
    have hfree : ∀ {todo}, between todo = false → InOrder st.inner st.plans.graphsSnap todo →
        InOrder st.inner (some graphs) todo := by
      intro todo hfree htodo
      exact ⟨htodo.pending, fun hbetween => absurd (hfree.symm.trans hbetween) (by decide), htodo.left⟩
    refine ⟨h.sound, ?_, forall_mem_set ?_ ?_⟩
    · rintro _ ⟨⟩
      exact hgraphs
    · intro todo htodo
      exact hfree (hpublish rfl todo htodo) (hothers todo htodo)
    · apply hfree
      · simp [between, hrest]
      · exact hown.tail rfl rfl
  all_goals
    rw [step, hhead]
    exact ⟨h.sound, h.snapshot, forall_mem_set hothers (hown.tail rfl rfl)⟩

end Step

/-! ## Runs -/

theorem Ordered.current (h : Ordered st) : Current st :=
  fun graphs hgraphs => ⟨(h.snapshot graphs hgraphs).listed, (h.snapshot graphs hgraphs).compacted⟩

theorem Ordered.seesWrites (h : Ordered st) : SeesWrites A st := by
  intro hsome q
  obtain ⟨graphs, hgraphs⟩ := Option.isSome_iff_exists.mp hsome
  rw [hgraphs]
  exact (h.snapshot graphs hgraphs).contains_eq h.sound q

theorem Start.ordered (h : Start A len st) (hsound : Sound st.inner.graphs) : Ordered st := by
  rcases h with d | h
  · exact ⟨hsound, by simp [RingShared.new, PlanStore.new], by simp [RingShared.new]⟩
  rename_i s
  unfold RingShared.opened at h
  by_cases hpublish : s.delta.isEmpty ∧ ¬s.graphs.isEmpty
  · rw [if_pos hpublish] at h
    obtain ⟨⟨table, d⟩, -, h⟩ := bind_ok h
    obtain rfl : _ = st := Except.ok.inj h
    refine ⟨hsound, ?_, by simp⟩
    rintro graphs ⟨⟩
    exact ⟨hsound, fun g => rfl, hpublish.1⟩
  · rw [if_neg hpublish] at h
    obtain rfl : _ = st := Except.ok.inj h
    exact ⟨hsound, by simp [PlanStore.new], by simp⟩

/-- Whatever the interleaving of writers, as long as every step is in order: a published
snapshot is the current one in every state, and the answer of `lftj_has_delta` can be
relied on. -/
theorem snapshot_current (A : DictApi D) (len : D → Nat) (files : Residency) (threshold : Option Nat)
    {st : RingShared D} (hst : Start A len st) (hsound : Sound st.inner.graphs) {inputs : List Input}
    (h : Machine.Meets (step A len files threshold) (fun st i => Orderly st i ∧ Fitting A st i) st inputs)
    {reached : List Input} (hreached : reached <+: inputs) :
    Current (Machine.run (step A len files threshold) st reached).2 ∧
      (lftjHasDelta (Machine.run (step A len files threshold) st reached).2 = false →
        SeesWrites A (Machine.run (step A len files threshold) st reached).2) := by
  obtain ⟨later, rfl⟩ := hreached
  have hordered : Ordered (Machine.run (step A len files threshold) st reached).2 :=
    Machine.run_inv (fun st i hst hi => step_ordered hst i hi.1 hi.2) (hst.ordered hsound)
      (Machine.meets_append.mp h).1
  exact ⟨hordered.current, fun _ => hordered.seesWrites⟩

/-! ## The source's dictionary -/

section Source

open Dictionary DictCompact LoudsStore

instance (st : RingShared D) (i : Input) : Decidable (Orderly st i) := inferInstanceAs (Decidable (∀ _ ∈ _, _ ∧ _))

/-- Few triples after the writes of a lock section. -/
def fitsSmallAt (st : RingShared Dictionary) (i : Input) : Bool :=
  match nextAction st i with
  | some (.lockSection e) =>
    RingStore.fitsSmall sourceBlockSize (RingStore.applyWrites (api sourceBlockSize) st.inner (RingStore.writes e)).2
  | _ => true

theorem fitting_of_small {st : RingShared Dictionary} {i : Input} (h : fitsSmallAt st i = true) :
    Fitting (api sourceBlockSize) st i := by
  rintro a ha e rfl
  rw [fitsSmallAt, Option.mem_def.mp ha] at h
  exact RingStore.fits_of_fitsSmall h

/-- Small images in memory. -/
def noFiles : Residency := fun _ _ => none

abbrev sourceStep : Machine (RingShared Dictionary) Input Fault Unit :=
  step (api sourceBlockSize) Shared.dictLen noFiles none

/-- An insertion, and then two compactions step by step in turn. -/
def overlapping : List Input :=
  .call (.call (.insert (sampleQuad "a"))) :: List.replicate 6 (.run 0) ++
    .call (.call .compact) :: .call (.call .compact) :: (List.replicate 6 [.run 1, .run 2]).flatten

/-- A compaction under the lock first; then the insertion drops the snapshot, the
compaction publishes one, and the insertion gets the lock. -/
def late : List Input :=
  [.call (.call (.insert (sampleQuad "a"))), .call (.call .compact), .run 1] ++ List.replicate 5 (.run 0) ++
    List.replicate 5 (.run 1) ++ [.run 0]

/-- In every state of this run the snapshot is current; in the last one it has the quad. -/
theorem snapshot_current_overlapping :
    (∀ reached, reached <+: overlapping →
      Current (Machine.run sourceStep (.new (Dictionary.new sourceBlockSize)) reached).2 ∧
        (lftjHasDelta (Machine.run sourceStep (.new (Dictionary.new sourceBlockSize)) reached).2 = false →
          SeesWrites (api sourceBlockSize)
            (Machine.run sourceStep (.new (Dictionary.new sourceBlockSize)) reached).2)) ∧
      RingStore.contains (api sourceBlockSize)
          { (Machine.run sourceStep (.new (Dictionary.new sourceBlockSize)) overlapping).2.inner with
            graphs :=
              (Machine.run sourceStep (.new (Dictionary.new sourceBlockSize)) overlapping).2.plans.graphsSnap.getD ∅
            delta := .new }
          (sampleQuad "a") = .ok true := by
  have hsteps : Machine.Meets sourceStep (fun st i => Orderly st i ∧ fitsSmallAt st i = true)
      (.new (Dictionary.new sourceBlockSize)) overlapping := by
    decide +kernel
  refine ⟨fun reached hreached => ?_, by decide +kernel⟩
  exact snapshot_current (api sourceBlockSize) Shared.dictLen noFiles none (.new _)
    (by simp [Sound, RingShared.new, RingStore.new])
      (hsteps.imp fun st i hi => ⟨hi.1, fitting_of_small hi.2⟩) hreached

/-- The quad is in the store, the gate is open, and the snapshot is empty. -/
theorem late_publication_hides_write :
    ¬∀ inputs, Current (Machine.run sourceStep (.new (Dictionary.new sourceBlockSize)) inputs).2 ∧
      (lftjHasDelta (Machine.run sourceStep (.new (Dictionary.new sourceBlockSize)) inputs).2 = false →
        SeesWrites (api sourceBlockSize)
          (Machine.run sourceStep (.new (Dictionary.new sourceBlockSize)) inputs).2) := by
  intro hclaim
  have hpublished : (Machine.run sourceStep (.new (Dictionary.new sourceBlockSize)) late).2.plans.graphsSnap.isSome =
      true := by
    decide +kernel
  have hopen : lftjHasDelta (Machine.run sourceStep (.new (Dictionary.new sourceBlockSize)) late).2 = false := by
    decide +kernel
  have hsees := (hclaim late).2 hopen hpublished (sampleQuad "a")
  exact absurd hsees (by decide +kernel)

end Source

end RingShared

end Nova
