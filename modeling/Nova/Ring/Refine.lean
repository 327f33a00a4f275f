import Nova.Ring.Store

/-!
# The ring store is a set of quads

The store runs in step with a LOUDS store over the same dictionary: `Mirrors` says that
the two have one delta, and that the images of the one hold the triples of the rings of
the other. Single writes answer alike without further conditions; a compaction keeps the
relation if the dictionary survives it and the triples fit into 32-bit numbers. What is
known of the LOUDS store then carries over, and with it the set of quads.

Over the dictionary of the source three things can go wrong. A compaction of the
dictionary can lose ids; a graph can have too many triples; and in a dictionary with a
compacted tier, asking for a quoted triple that was never interned panics.
`ring_refines_set` excludes the three, `unknown_quote_panics` shows the last.
-/

namespace Nova

open Nova.Lib Nova.Ring List

variable {n : Names} {σ : Spec} {triples : List Row}

namespace RingStore

open LoudsStore (Holds Quiet Shows Stands Inv Reply Call Event mergeEntry rowKey rowOf RowsKnown)

variable {D : Type} {A : DictApi D} {Knows : D → Names → Prop} {CompactOk : Names → Prop}

/-! ## Two stores in step -/

/-- The image has the triples of the ring. -/
def SameGraph : Option BraidedGraphImage → Option GraphRing → Prop
  | none, none => True
  | some img, some ring => ∃ triples, FitsU32 triples ∧ ImageOf img triples ∧ ring = ringBuild triples
  | _, _ => False

structure Mirrors (r : RingStore D) (s : LoudsStore D) : Prop where
  dict : s.dict = r.dict
  delta : s.delta = r.delta
  graphs : ∀ g : GraphId, SameGraph r.graphs[g]? s.graphs[g]?
  named : s.namedGraphIds = r.namedGraphIds

theorem mem_ringBuild {t : Row} : t ∈ (ringBuild triples).triples ↔ t ∈ triples :=
  GraphRing.mem_triples_ringBuild

theorem Mirrors.imageContains_eq {r : RingStore D} {s : LoudsStore D} (h : Mirrors r s) (g : GraphId)
    (sId pId oId : TermId) : r.imageContains g sId pId oId = some (s.ringContains g sId pId oId) := by
  have hg := h.graphs g
  rw [imageContains, LoudsStore.ringContains]
  generalize r.graphs[g]? = img at hg ⊢
  generalize s.graphs[g]? = ring at hg ⊢
  rcases img with _ | img <;> rcases ring with _ | ring
  · rfl
  · exact False.elim hg
  · exact False.elim hg
  · obtain ⟨triples, hfits, himage, rfl⟩ := hg
    show img.containsExternal _ _ _ = _
    rw [containsExternal_eq hfits himage]
    refine congrArg some (Bool.eq_iff_iff.mpr ?_)
    rw [decide_eq_true_iff, GraphRing.contains_iff, mem_ringBuild]

/-- The same answer, and the stores stay in step. -/
def Alike {α : Type} (x : Outcome D α) (y : LoudsStore.Outcome D α) : Prop := x.1 = y.1 ∧ Mirrors x.2 y.2

theorem Alike.andThen {α β : Type} {x : Outcome D α} {y : LoudsStore.Outcome D α} (h : Alike x y)
    {k : α → RingStore D → Outcome D β} {k' : α → LoudsStore D → LoudsStore.Outcome D β}
    (hk : ∀ a r s, Mirrors r s → Alike (k a r) (k' a s)) :
    Alike (RingStore.andThen x k) (LoudsStore.andThen y k') := by
  obtain ⟨a, r⟩ := x
  obtain ⟨a', s⟩ := y
  obtain ⟨hans, hmir⟩ := h
  obtain rfl : a = a' := hans
  rcases a with f | a
  · exact ⟨rfl, hmir⟩
  · exact hk a r s hmir

theorem Mirrors.with_dict {r : RingStore D} {s : LoudsStore D} (h : Mirrors r s) (d : D) :
    Mirrors { r with dict := d } { s with dict := d } :=
  ⟨rfl, h.delta, h.graphs, h.named⟩

theorem Mirrors.with_delta {r : RingStore D} {s : LoudsStore D} (h : Mirrors r s) (δ : Delta) :
    Mirrors { r with delta := δ } { s with delta := δ } :=
  ⟨h.dict, rfl, h.graphs, h.named⟩

theorem Mirrors.with_named {r : RingStore D} {s : LoudsStore D} (h : Mirrors r s) (ids : List GraphId) :
    Mirrors { r with namedGraphIds := ids } { s with namedGraphIds := ids } :=
  ⟨h.dict, h.delta, h.graphs, rfl⟩

theorem intern_alike {r : RingStore D} {s : LoudsStore D} (h : Mirrors r s) (t : Term) :
    Alike (intern A r t) (LoudsStore.intern A s t) := by
  rw [intern, LoudsStore.intern, h.dict]
  rcases A.intern r.dict t with p | ⟨e | id, d⟩
  · exact ⟨rfl, h⟩
  · exact ⟨rfl, h.with_dict d⟩
  · exact ⟨rfl, h.with_dict d⟩

theorem internGraph_alike {r : RingStore D} {s : LoudsStore D} (h : Mirrors r s) (g : GraphName) :
    Alike (internGraph A r g) (LoudsStore.internGraph A s g) := by
  rw [internGraph, LoudsStore.internGraph, h.dict]
  rcases A.internGraph r.dict g with ⟨e | id, d⟩
  · exact ⟨rfl, h.with_dict d⟩
  · exact ⟨rfl, h.with_dict d⟩

theorem internQuad_alike {r : RingStore D} {s : LoudsStore D} (h : Mirrors r s) (q : Quad) :
    Alike (internQuad A r q) (LoudsStore.internQuad A s q) := by
  apply (internGraph_alike h _).andThen
  intro g r s h
  apply (intern_alike h _).andThen
  intro sId r s h
  apply (intern_alike h _).andThen
  intro pId r s h
  apply (intern_alike h _).andThen
  intro oId r s h
  exact ⟨rfl, h⟩

theorem applyInsert_alike {r : RingStore D} {s : LoudsStore D} (h : Mirrors r s) (q : Quad) :
    Alike (applyInsert A r q) (LoudsStore.applyInsert A s q) := by
  apply (internQuad_alike h q).andThen
  rintro ⟨g, sId, pId, oId⟩ r s h
  dsimp only
  rw [h.delta, h.imageContains_eq]
  rcases r.delta.get (packQuad g sId pId oId) with _ | _ | _
  · -- not in the delta: the graph decides
    rcases s.ringContains g sId pId oId with _ | _
    · have hnext := h.with_delta (r.delta.insertKey (packQuad g sId pId oId))
      rcases q.graphName with _ | name | b
      · exact ⟨rfl, hnext⟩
      · rw [h.named]
        exact ⟨rfl, hnext.with_named _⟩
      · exact ⟨rfl, hnext⟩
    · exact ⟨rfl, h⟩
  · exact ⟨rfl, h.with_delta _⟩
  · exact ⟨rfl, h⟩

theorem applyRemove_alike {r : RingStore D} {s : LoudsStore D} (h : Mirrors r s) (q : Quad) :
    Alike (applyRemove A r q) (LoudsStore.applyRemove A s q) := by
  have hlook : LoudsStore.lookupQuad A s.dict q = LoudsStore.lookupQuad A r.dict q := by rw [h.dict]
  rw [applyRemove, LoudsStore.applyRemove, hlook]
  rcases LoudsStore.lookupQuad A r.dict q with p | _ | ⟨g, sId, pId, oId⟩
  · exact ⟨rfl, h⟩
  · exact ⟨rfl, h⟩
  dsimp only
  rw [h.delta, h.imageContains_eq]
  have hremoved := h.with_delta (r.delta.tombstoneKey (packQuad g sId pId oId))
  rcases r.delta.get (packQuad g sId pId oId) with _ | _ | _
  · rcases s.ringContains g sId pId oId with _ | _
    · exact ⟨rfl, h⟩
    · exact ⟨rfl, hremoved⟩
  · exact ⟨rfl, h⟩
  · exact ⟨rfl, hremoved⟩

/-- `apply_insert` or `apply_remove`. -/
def applyOne (A : DictApi D) (r : RingStore D) : QuadOp → Outcome D Bool
  | .insert q => applyInsert A r q
  | .remove q => applyRemove A r q

theorem applyOne_mirrors : Machine.Simulates Mirrors (applyOne A) (LoudsStore.applyOne A) fun _ _ => True := by
  intro r s w h _
  rcases w with q | q
  · exact applyInsert_alike h q
  · exact applyRemove_alike h q

/-! ## Compaction in step -/

theorem spoTriples_ringBuild (triples : List Row) : (ringBuild triples).spoTriples = distinctRows triples :=
  GraphRing.ringBuild_spoTriples triples

theorem foldlM_insert {α β : Type} {f : α → Option β} {l : List (GraphId × α)}
    (hf : ∀ e ∈ l, ∃ b, f e.2 = some b) (hkeys : (l.map Prod.fst).Nodup) : ∀ m : GraphMap β,
    ∃ m', l.foldlM (fun m e => (f e.2).map fun b => m.insert e.1 b) m = some m' ∧
      ∀ g, m'[g]? = (l.find? (fun e => e.1 == g)).elim m[g]? fun e => f e.2 := by
  induction l with
  | nil => exact fun m => ⟨m, rfl, fun _ => rfl⟩
  | cons e l ih =>
    intro m
    obtain ⟨b, hb⟩ := hf e mem_cons_self
    rw [map_cons, nodup_cons] at hkeys
    obtain ⟨m', hr, hget⟩ := ih (fun e he => hf e (mem_cons_of_mem _ he)) hkeys.2 (m.insert e.1 b)
    refine ⟨m', ?_, ?_⟩
    · rw [foldlM_cons, hb]
      exact hr
    · intro g
      rw [hget]
      by_cases hg : e.1 = g
      · -- no later entry has this key
        have hnone : l.find? (fun e => e.1 == g) = none := by
          rw [List.find?_eq_none]
          intro e' he' heq
          exact hkeys.1 (mem_map.mpr ⟨e', he', (beq_iff_eq.mp heq).trans hg.symm⟩)
        rw [hnone, find?_cons_of_pos (by simpa using hg), Option.elim_some, hb]
        simp [hg]
      · rw [find?_cons_of_neg (by simpa using hg)]
        simp [Std.TreeMap.getElem?_insert, hg]

theorem perGraph_eq {r : RingStore D} (h : ∀ e ∈ r.graphs.toList, ∃ rows, e.2.enumerateSpoExternal = some rows) :
    ∃ m, r.perGraph = some m ∧ ∀ g : GraphId,
      m[g]? = r.graphs[g]?.bind BraidedGraphImage.enumerateSpoExternal := by
  have hkeys : (r.graphs.toList.map Prod.fst).Nodup := by
    rw [Std.TreeMap.map_fst_toList_eq_keys]
    exact Std.TreeMap.nodup_keys
  obtain ⟨m, hm, hget⟩ := foldlM_insert h hkeys ∅
  refine ⟨m, hm, ?_⟩
  intro g
  rw [hget]
  generalize hfind : r.graphs.toList.find? (fun e => e.1 == g) = found
  rcases found with _ | e
  · -- the graph has no image
    have hnone : r.graphs[g]? = none := by
      rcases himg : r.graphs[g]? with _ | img
      · rfl
      · have hmem := Std.TreeMap.mem_toList_iff_getElem?_eq_some.mpr himg
        have hall := List.find?_eq_none.mp hfind _ hmem
        simp at hall
    rw [hnone]
    simp
  · have heq : e.1 = g := by simpa using find?_some hfind
    rw [← heq, Std.TreeMap.mem_toList_iff_getElem?_eq_some.mp (mem_of_find?_eq_some hfind)]
    rfl

theorem Mirrors.perGraph {r : RingStore D} {s : LoudsStore D} (h : Mirrors r s) :
    ∃ m, r.perGraph = some m ∧ ∀ g : GraphId, m[g]? = s.perGraph[g]? := by
  have himage : ∀ (g : GraphId) img, r.graphs[g]? = some img → ∃ ring, s.graphs[g]? = some ring ∧
      img.enumerateSpoExternal = some ring.spoTriples := by
    intro g img hget
    have hg := h.graphs g
    rw [hget] at hg
    rcases hring : s.graphs[g]? with _ | ring <;> rw [hring] at hg
    · exact hg.elim
    · obtain ⟨triples, hfits, himage, rfl⟩ := hg
      exact ⟨_, rfl, by rw [enumerateSpoExternal_eq hfits himage, spoTriples_ringBuild]⟩
  obtain ⟨m, hm, hget⟩ := perGraph_eq fun e he =>
    let ⟨ring, _, hr⟩ := himage e.1 e.2 (Std.TreeMap.mem_toList_iff_getElem?_eq_some.mp he)
    ⟨_, hr⟩
  refine ⟨m, hm, ?_⟩
  intro g
  rw [hget, LoudsStore.getElem?_perGraph]
  rcases himg : r.graphs[g]? with _ | img
  · -- neither store has the graph
    have hg := h.graphs g
    rw [himg] at hg
    rcases hring : s.graphs[g]? with _ | ring
    · simp
    · rw [hring] at hg
      exact hg.elim
  · obtain ⟨ring, hring, hr⟩ := himage g img himg
    rw [hring]
    exact hr

theorem getElem?_mergeEntry {m m' : GraphMap (List Row)} (h : ∀ g : GraphId, m[g]? = m'[g]?) (e : Nat × Bool)
    (g : GraphId) : (mergeEntry m e)[g]? = (mergeEntry m' e)[g]? := by
  unfold mergeEntry
  rcases unpackQuad e.1 with ⟨gId, sId, pId, oId⟩
  simp only [Std.TreeMap.getElem?_alter, h]

theorem getElem?_foldl_mergeEntry (entries : List (Nat × Bool)) : ∀ {m m' : GraphMap (List Row)},
    (∀ g : GraphId, m[g]? = m'[g]?) →
      ∀ g : GraphId, (entries.foldl mergeEntry m)[g]? = (entries.foldl mergeEntry m')[g]? := by
  induction entries with
  | nil => exact fun h => h
  | cons e entries ih => exact fun h => ih (getElem?_mergeEntry h e)

theorem Mirrors.merged {r : RingStore D} {s : LoudsStore D} (h : Mirrors r s) :
    ∃ m, r.merged = some m ∧ ∀ g : GraphId, m[g]? = (s.delta.iter.foldl mergeEntry s.perGraph)[g]? := by
  obtain ⟨m, hm, hget⟩ := h.perGraph
  refine ⟨_, by rw [RingStore.merged, hm]; rfl, ?_⟩
  rw [h.delta]
  exact getElem?_foldl_mergeEntry _ hget

theorem imageOf_buildImage (hfits : FitsU32 triples) (file : Option Bool) :
    ImageOf (buildImage file triples) triples := by
  have himage := imageOf_fromExternalTriples hfits.symbols
  rcases file with _ | huff
  · exact himage
  · exact himage.materializeMapped huff

/-- The triples of every new image fit. -/
def Fits (r : RingStore D) : Prop :=
  ∀ m, r.merged = some m → ∀ (g : GraphId) (triples : List Row), m[g]? = some triples → FitsU32 triples

theorem sameGraph_build {m m' : GraphMap (List Row)} (hget : ∀ g : GraphId, m[g]? = m'[g]?)
    (hfits : ∀ (g : GraphId) (triples : List Row), m[g]? = some triples → FitsU32 triples)
    (files : GraphId → Option Bool) (g : GraphId) :
    SameGraph (buildGraphs files m)[g]? (LoudsStore.buildGraphsFromTriples m')[g]? := by
  rw [LoudsStore.getElem?_buildGraphs, ← hget, buildGraphs, Std.TreeMap.getElem?_filterMap']
  rcases htriples : m[g]? with _ | triples
  · simp [SameGraph]
  · by_cases hempty : triples.isEmpty = true
    · simp only [Option.bind_some, hempty, if_true]
      trivial
    · simp only [Option.bind_some, hempty, Bool.false_eq_true, if_false]
      exact ⟨triples, hfits g triples htriples, imageOf_buildImage (hfits g triples htriples) _, rfl⟩

theorem buildDecodeSnapshot_spec (I : Implements A Knows CompactOk) (ids : List Nat) : ∀ {d : D},
    Knows d n → ∃ table d', buildDecodeSnapshot A d ids = .ok (table, d') ∧ Knows d' n := by
  induction ids with
  | nil => exact fun {d} h => ⟨[], d, rfl, h⟩
  | cons raw rest ih =>
    intro d h
    rw [buildDecodeSnapshot]
    rcases TermId.new raw with e | id
    · obtain ⟨table, d', hr, hd⟩ := ih h
      exact ⟨none :: table, d', by simp only [hr]; rfl, hd⟩
    · obtain ⟨d₁, hr₁, hd₁⟩ := I.getTermArc _ _ id h
      obtain ⟨table, d', hr, hd⟩ := ih hd₁
      exact ⟨n.term id :: table, d', by simp only [hr₁, hr, ok_bind]; rfl, hd⟩

/-- The ring store holds the set of quads. -/
def Follows (Knows : D → Names → Prop) (r : RingStore D) (σ : Spec) : Prop :=
  ∃ s, Mirrors r s ∧ Holds Knows s σ

theorem follows_new {d : D} (h : Knows d .empty) : Follows Knows (new d) .empty := by
  refine ⟨_, ⟨rfl, rfl, ?_, rfl⟩, LoudsStore.holds_new h none⟩
  intro g
  simp [new, LoudsStore.new, SameGraph]

theorem applyOne_follows (I : Implements A Knows CompactOk) :
    Machine.Simulates (Follows Knows) (applyOne A) Spec.write fun r w => ∀ n, Knows r.dict n → Quiet n w := by
  intro r σ w h hquiet
  obtain ⟨s, hmir, hs⟩ := h
  obtain ⟨hans, hmir'⟩ := applyOne_mirrors r s w hmir trivial
  rw [← hmir.dict] at hquiet
  obtain ⟨hans', hs'⟩ := LoudsStore.applyOne_holds I s σ w hs hquiet
  exact ⟨hans.trans hans', _, hmir', hs'⟩

theorem compactLocked_follows (I : Implements A Knows CompactOk) {r : RingStore D}
    (h : Follows Knows r σ) (hok : ∀ n, Knows r.dict n → CompactOk n) (hfits : Fits r) (len : D → Nat)
    (files : Residency) : ∃ table r', compactLocked A len files r = (.ok table, r') ∧ Follows Knows r' σ := by
  obtain ⟨s, hmir, im, hs, hst⟩ := h
  have hknows : Knows r.dict im.names := hmir.dict ▸ hs.names_known
  obtain ⟨s₁, b, hrun, hs₁, -⟩ := LoudsStore.compactLocked_shows I hs (hok _ hknows)
  obtain ⟨d, -, hcomp, -⟩ := I.compact _ _ hknows (hok _ hknows)
  -- what the LOUDS store has become
  have hlouds : s₁ = LoudsStore.commitCompaction { s with dict := d }
      (LoudsStore.buildGraphsFromTriples (s.delta.iter.foldl mergeEntry s.perGraph)) true := by
    have hdict : LoudsStore.compactDict A s = (.ok (), { s with dict := d }) := by
      rw [LoudsStore.compactDict, hmir.dict, hcomp]
    rw [LoudsStore.compactLocked, hdict] at hrun
    exact (congrArg Prod.snd hrun).symm
  subst hlouds
  have hd : Knows d (im.compact b).names := hs₁.names_known
  obtain ⟨m, hm, hget⟩ := hmir.merged
  obtain ⟨table, d', hsnap, hd'⟩ := buildDecodeSnapshot_spec I (List.range (len d)) hd
  have hdone : compactLocked A len files r = (.ok table, { r with
      dict := d'
      graphs := buildGraphs (files r.compactionCount) m
      delta := r.delta.clear
      compactionCount := r.compactionCount + 1 }) := by
    simp only [compactLocked, hm, compactDict, hcomp, andThen, hsnap]
  refine ⟨table, _, hdone, _, ?_, im.compact b,
    ⟨hs₁.inv.with_dict (Names.le_refl _) hd', hs₁.view⟩, hst.compact b⟩
  exact ⟨rfl, rfl, sameGraph_build hget (hfits m hm) _, hmir.named⟩

/-! ## Calls -/

/-- What the loops of `extend_boxed`, `apply_batch` and `bulk_load` have in common. -/
def applyWrites (A : DictApi D) (r : RingStore D) (ws : List QuadOp) : Outcome D (List Bool) :=
  Machine.batch (applyOne A) r ws

theorem applyWrites_cons (r : RingStore D) (w : QuadOp) (ws : List QuadOp) :
    applyWrites A r (w :: ws) = andThen (applyOne A r w) fun b r =>
      andThen (applyWrites A r ws) fun bs r => (.ok (b :: bs), r) := by
  rw [applyWrites, Machine.batch]
  rcases applyOne A r w with ⟨f | b, r'⟩
  · rfl
  · simp only [andThen, applyWrites]
    rcases Machine.batch (applyOne A) r' ws with ⟨f | bs, r''⟩ <;> rfl

theorem andThen_assoc {α β γ : Type} (x : Outcome D α) (f : α → RingStore D → Outcome D β)
    (k : β → RingStore D → Outcome D γ) :
    andThen (andThen x f) k = andThen x fun a r => andThen (f a r) k := by
  rcases x with ⟨_ | a, r⟩ <;> rfl

theorem insertAll_eq (quads : List Quad) : ∀ (r : RingStore D) (count : Nat),
    insertAll A r count quads =
      andThen (applyWrites A r (quads.map .insert)) fun bs r => (.ok (count + bs.count true), r) := by
  induction quads with
  | nil => exact fun r count => rfl
  | cons q quads ih =>
    intro r count
    rw [insertAll, map_cons, applyWrites_cons, andThen_assoc]
    apply congrArg (andThen (applyInsert A r q))
    funext b r'
    rw [ih, andThen_assoc]
    apply congrArg (andThen (applyWrites A r' (quads.map .insert)))
    funext bs r''
    rcases b with _ | _ <;> simp [andThen, Nat.add_assoc, Nat.add_comm 1]

theorem applyAll_eq (ops : List QuadOp) : ∀ (r : RingStore D) (inserted removed : Nat),
    applyAll A r inserted removed ops = andThen (applyWrites A r ops) fun bs r =>
      (.ok (inserted + (LoudsStore.tally ops bs).1, removed + (LoudsStore.tally ops bs).2), r) := by
  induction ops with
  | nil => exact fun r i d => rfl
  | cons w ops ih =>
    intro r inserted removed
    rcases w with q | q
    · rw [applyAll, applyWrites_cons, andThen_assoc]
      apply congrArg (andThen (applyInsert A r q))
      funext b r'
      rw [ih, andThen_assoc]
      apply congrArg (andThen (applyWrites A r' ops))
      funext bs r''
      rcases b with _ | _ <;> simp [andThen, LoudsStore.tally, Nat.add_assoc, Nat.add_comm 1]
    · rw [applyAll, applyWrites_cons, andThen_assoc]
      apply congrArg (andThen (applyRemove A r q))
      funext b r'
      rw [ih, andThen_assoc]
      apply congrArg (andThen (applyWrites A r' ops))
      funext bs r''
      rcases b with _ | _ <;> simp [andThen, LoudsStore.tally, Nat.add_assoc, Nat.add_comm 1]

/-- The single writes of a call. -/
def writes : Event → List QuadOp
  | .call c => c.writes
  | .bulkLoad quads => quads.map .insert

/-- The reply, given what the single writes returned. -/
def reply (bs : List Bool) : Event → Reply
  | .call c => c.reply bs
  | .bulkLoad quads => .count quads.length

/-- After its writes the call compacts. -/
def compacts (bs : List Bool) (r : RingStore D) : Event → Bool
  | .call c => decide (c = .compact)
  | .bulkLoad _ => decide (0 < bs.count true ∨ r.delta.isEmpty = false)

section Steps

variable (A : DictApi D) (len : D → Nat) (files : Residency)

/-- Every call applies its writes and then compacts or not. -/
theorem step_eq (r : RingStore D) (e : Event) :
    step A len files r e = andThen (applyWrites A r (writes e)) fun bs r =>
      if compacts bs r e = true then
        andThen (compactLocked A len files r) fun _ r => (.ok (reply bs e), r)
      else (.ok (reply bs e), r) := by
  rcases e with (q | q | quads | ops | _) | quads
  · simp only [step, insert, writes, Call.writes, applyWrites_cons, andThen_assoc]
    rfl
  · simp only [step, remove, writes, Call.writes, applyWrites_cons, andThen_assoc]
    rfl
  · rcases quads with _ | ⟨q, quads⟩
    · rfl
    · simp only [step, extendBoxed, isEmpty_cons, Bool.false_eq_true, if_false, insertAll_eq, andThen_assoc]
      apply congrArg (andThen (applyWrites A r _))
      funext bs r'
      simp [compacts, reply, Call.reply, andThen]
  · rcases ops with _ | ⟨w, ops⟩
    · rfl
    · simp only [step, applyBatch, isEmpty_cons, Bool.false_eq_true, if_false, applyAll_eq, andThen_assoc]
      apply congrArg (andThen (applyWrites A r _))
      funext bs r'
      simp [compacts, reply, Call.reply, andThen]
  · simp only [step, compact, andThen_assoc]
    rfl
  · simp only [step, bulkLoad, insertAll_eq, andThen_assoc]
    apply congrArg (andThen (applyWrites A r _))
    funext bs r'
    simp only [andThen, compacts, decide_eq_true_eq, Nat.zero_add, reply]
    by_cases hc : 0 < bs.count true ∨ r'.delta.isEmpty = false
    · simp only [if_pos hc]
      rcases compactLocked A len files r' with ⟨_ | table, r''⟩ <;> rfl
    · simp only [if_neg hc]

/-- The state a call compacts, if it compacts one. -/
def compactsAt (r : RingStore D) (e : Event) : Option (RingStore D) :=
  match applyWrites A r (writes e) with
  | (.error _, _) => none
  | (.ok bs, r) => if compacts bs r e = true then some r else none

end Steps

end RingStore

/-- A call on the set. -/
def Spec.step (σ : Spec) (e : LoudsStore.Event) : Except Fault LoudsStore.Reply × Spec :=
  let (r, σ) := Machine.batch Spec.write σ (RingStore.writes e)
  (r.map fun bs => RingStore.reply bs e, σ)

namespace Spec

theorem batch_of_step {e : LoudsStore.Event} (h : (step σ e).1.isOk = true) :
    (step σ e).2.quads = (RingStore.writes e).foldl applyPlain σ.quads := by
  apply batch_quads
  rw [step] at h
  rcases hb : Machine.batch write σ (RingStore.writes e) with ⟨_ | bs, σ'⟩
  · rw [hb] at h
    exact absurd h (by simp [Except.isOk, Except.toBool, Except.map])
  · rfl

theorem run_step_quads (events : List LoudsStore.Event) : ∀ {σ : Spec},
    (∀ r ∈ (Machine.run step σ events).1, r.isOk = true) →
      (Machine.run step σ events).2.quads = (events.flatMap RingStore.writes).foldl applyPlain σ.quads := by
  induction events with
  | nil => exact fun _ => rfl
  | cons e events ih =>
    intro σ h
    rw [Machine.run] at h ⊢
    have hone := batch_of_step (h _ mem_cons_self)
    rw [ih fun r hr => h r (mem_cons_of_mem _ hr), hone, flatMap_cons, foldl_append]

end Spec

namespace RingStore

open LoudsStore (Holds Quiet Event Findable FindablePattern WriteOk lookupQuad_of_findable quotingQuad)

variable {D : Type} {A : DictApi D} {Knows : D → Names → Prop} {CompactOk : Names → Prop}

/-- The lookups of the call return, and what it compacts survives. -/
def StepOk (A : DictApi D) (Knows : D → Names → Prop) (CompactOk : Names → Prop) (r : RingStore D) (e : Event) :
    Prop :=
  Machine.BatchMeets (applyOne A) (fun r w => ∀ n, Knows r.dict n → Quiet n w) r (writes e) ∧
    ∀ r', compactsAt A r e = some r' → (∀ n, Knows r'.dict n → CompactOk n) ∧ Fits r'

theorem step_follows (I : Implements A Knows CompactOk) (len : D → Nat) (files : Residency) :
    Machine.Simulates (Follows Knows) (step A len files) Spec.step (StepOk A Knows CompactOk) := by
  intro r σ e h hok
  obtain ⟨hquiet, hcompact⟩ := hok
  obtain ⟨hans, hfollows⟩ := Machine.batch_sim_of_meets (applyOne_follows I) h hquiet
  rw [step_eq, Spec.step, applyWrites]
  rw [compactsAt, applyWrites] at hcompact
  rcases hring : Machine.batch (applyOne A) r (writes e) with ⟨_ | bs, r'⟩ <;>
    rcases hspec : Machine.batch Spec.write σ (writes e) with ⟨a, σ'⟩ <;>
    rw [hring, hspec] at hans hfollows <;> obtain rfl := hans
  · exact ⟨rfl, hfollows⟩
  · rw [hring] at hcompact
    simp only [andThen]
    by_cases hc : compacts bs r' e = true
    · simp only [if_pos hc] at hcompact ⊢
      obtain ⟨hsafe, hfits⟩ := hcompact r' rfl
      obtain ⟨table, r'', hr, hfollows'⟩ := compactLocked_follows I hfollows hsafe hfits len files
      rw [hr]
      exact ⟨rfl, hfollows'⟩
    · rw [if_neg hc]
      exact ⟨rfl, hfollows⟩

/-! ## Reads -/

theorem Mirrors.contains_eq {r : RingStore D} {s : LoudsStore D} (h : Mirrors r s) (q : Quad) :
    contains A r q = LoudsStore.contains A s q := by
  rw [contains, LoudsStore.contains, h.dict]
  rcases LoudsStore.lookupQuad A r.dict q with p | _ | ⟨g, sId, pId, oId⟩
  · rfl
  · rfl
  dsimp only
  rw [h.delta]
  have himage := h.imageContains_eq g sId pId oId
  rcases r.delta.get (packQuad g sId pId oId) with _ | _ | _
  · simp only [himage]
  · rfl
  · rfl

theorem scanImage_eq (g : GraphId) {rows : List Row} (hrows : ∀ t ∈ rows, LoudsStore.RowsKnown n g t) :
    ∀ sc : LoudsStore.Scan D, scanImage A g sc rows = LoudsStore.scanRing A g sc rows := by
  induction rows with
  | nil => exact fun _ => rfl
  | cons t rows ih =>
    intro sc
    obtain ⟨q, sId, pId, oId, -, rfl⟩ := hrows t mem_cons_self
    have ih := ih fun t ht => hrows t (mem_cons_of_mem _ ht)
    rw [LoudsStore.scanRing_cons, LoudsStore.rowOf, scanImage]
    by_cases hseen : LoudsStore.rowKey g (sId.asU64, pId.asU64, oId.asU64) ∈ sc.seen
    · rw [if_pos hseen, if_pos hseen, ih]
    · rw [if_neg hseen, if_neg hseen]
      simp only [TermId.new_asU64]
      exact congrArg _ (funext ih)

theorem matchesRow_iff {s p o : Option Nat} {t : Row} : matchesRow s p o t = true ↔ GraphRing.Matches s p o t := by
  have hfield : ∀ (b : Option Nat) (v : Nat), b.all (fun x => v == x) = true ↔ ∀ x, b = some x → v = x := by
    intro b v
    rcases b with _ | x <;> simp
  rw [matchesRow, Bool.and_eq_true, Bool.and_eq_true, hfield, hfield, hfield, and_assoc]
  rfl

/-- The rows of the image that no tombstone hides, and the inserted ones. -/
theorem scanGraph_scans (I : Implements A Knows CompactOk) {r : RingStore D} {s : LoudsStore D}
    (hmir : Mirrors r s) (h : LoudsStore.Inv Knows n s) (sb pb ob : Option TermId) :
    LoudsStore.ScansGraph Knows n s.view.live sb pb ob (scanGraph A r sb pb ob) := by
  intro g sc hsc hseen
  have hg := hmir.graphs g
  unfold scanGraph
  simp only
  rw [← hmir.delta]
  rcases himg : r.graphs[g]? with _ | img
  · have hring : s.graphs[g]? = none := by
      rcases hring : s.graphs[g]? with _ | ring
      · rfl
      · rw [himg, hring] at hg
        exact False.elim hg
    obtain ⟨sc', ks, hrun, hrest⟩ := LoudsStore.scanRows_none I h hring sb pb ob hsc hseen
    rw [hrun, ok_bind]
    exact ⟨sc', ks, rfl, hrest⟩
  · rcases hring : s.graphs[g]? with _ | ring
    · rw [himg, hring] at hg
      exact False.elim hg
    rw [himg, hring] at hg
    obtain ⟨triples, hfits, himage, rfl⟩ := hg
    obtain ⟨rows, hr, hnodup, hmem⟩ := matchTriplesExternal_lists hfits himage (sb.map TermId.asU64)
      (pb.map TermId.asU64) (ob.map TermId.asU64)
    -- the image finds what the ring finds
    have hsame : ∀ t, t ∈ rows ↔ t ∈ (ringBuild triples).matchTriples (sb.map TermId.asU64)
        (pb.map TermId.asU64) (ob.map TermId.asU64) := by
      intro t
      rw [hmem, GraphRing.mem_matchTriples, mem_ringBuild, matchesRow_iff]
    have hrows : ∀ t ∈ rows, LoudsStore.RowsKnown n g t := fun t ht =>
      h.rows g _ hring t (GraphRing.mem_matchTriples.mp ((hsame t).mp ht)).1
    have hbase : ∀ k, k ∈ rows.map (LoudsStore.rowKey g) ↔
        k ∈ s.view.base ∧ LoudsStore.picks g sb pb ob k = true := by
      intro k
      rw [← h.mem_ring_picks g sb pb ob hring, mem_map, mem_map]
      simp only [hsame]
    obtain ⟨sc₁, sc', ks, hrun₁, hrun₂, hrest⟩ := LoudsStore.scanRows_spec I h sb pb ob g hsc hseen hrows hbase
      (LoudsStore.rowKey_nodup hrows hnodup)
    rw [hrun₁, ok_bind]
    simp only [hr]
    rw [scanImage_eq g hrows]
    exact ⟨sc', ks, hrun₂, hrest⟩

theorem quadsForPattern_eq (r : RingStore D) (subject : Option Term) (predicate : Option NamedNode)
    (object : Option Term) (graphName : Option GraphName) :
    quadsForPattern A r subject predicate object graphName =
      (LoudsStore.readPattern A r.dict r.knownGraphIds (scanGraph A r) subject predicate object graphName).map
        fun x => (x.1, { r with dict := x.2 }) := by
  unfold quadsForPattern LoudsStore.readPattern
  rcases LoudsStore.encode A r.dict subject with e | _ | sId
  · rfl
  · rfl
  rcases LoudsStore.encode A r.dict (predicate.map .namedNode) with e | _ | pId
  · rfl
  · rfl
  rcases LoudsStore.encode A r.dict object with e | _ | oId
  · rfl
  · rfl
  have hscan : ∀ gs : List GraphId, (do
      let sc ← gs.foldlM (scanGraph A r sId pId oId) ⟨r.dict, [], []⟩
      return (sc.results, { r with dict := sc.dict })) = Except.map (fun x => (x.1, { r with dict := x.2 })) (do
        let sc ← gs.foldlM (scanGraph A r sId pId oId) ⟨r.dict, [], []⟩
        return (sc.results, sc.dict)) := by
    intro gs
    rcases gs.foldlM (scanGraph A r sId pId oId) ⟨r.dict, [], []⟩ with e | sc <;> rfl
  rcases graphName with _ | g
  · exact hscan _
  · simp only [Option.elim_some]
    rcases A.getGraphId r.dict g with _ | gId
    · rfl
    · exact hscan [gId]

theorem Mirrors.graph_known {r : RingStore D} {s : LoudsStore D} (hmir : Mirrors r s)
    (h : LoudsStore.Inv Knows n s) {g : GraphId} {sId pId oId : TermId}
    (hlive : packQuad g sId pId oId ∈ s.view.live) : g ∈ r.knownGraphIds := by
  have hknown := h.graph_known hlive
  have hkeys : ∀ g, g ∈ s.graphs.keys ↔ g ∈ r.graphs.keys := by
    intro g
    have hg := hmir.graphs g
    rw [Std.TreeMap.mem_keys, Std.TreeMap.mem_keys, Std.TreeMap.mem_iff_isSome_getElem?,
      Std.TreeMap.mem_iff_isSome_getElem?]
    generalize r.graphs[g]? = img at hg ⊢
    generalize s.graphs[g]? = ring at hg ⊢
    rcases img with _ | img <;> rcases ring with _ | ring
    · exact Iff.rfl
    · exact False.elim hg
    · exact False.elim hg
    · exact Iff.rfl
  rw [LoudsStore.knownGraphIds, mem_dedup, mem_append, mem_append, hkeys, hmir.named,
    hmir.delta] at hknown
  rw [knownGraphIds, mem_dedup, mem_append, mem_append]
  exact hknown

/-- `contains` answers for the set. -/
theorem Follows.contains (I : Implements A Knows CompactOk) {r : RingStore D}
    (h : Follows Knows r σ) (q : Quad) (hlook : ∀ n, Knows r.dict n → n.lookupQuad q = .ok (n.quadIds q)) :
    RingStore.contains A r q = .ok (decide (q ∈ σ.quads)) := by
  obtain ⟨s, hmir, hs⟩ := h
  obtain ⟨n, hinv, hlive⟩ := hs.live_iff
  obtain ⟨b, hr, hb⟩ := LoudsStore.contains_spec I hinv (hlook n (hmir.dict ▸ hinv.knows))
  rw [hmir.contains_eq, hr]
  exact congrArg _ (Bool.eq_iff_iff.mpr (hb.trans ((hlive q).trans decide_eq_true_iff.symm)))

/-- A pattern is answered for the set, each quad once. -/
theorem Follows.quadsForPattern (I : Implements A Knows CompactOk) {r : RingStore D}
    (h : Follows Knows r σ) (subject : Option Term) (predicate : Option NamedNode) (object : Option Term)
    (graphName : Option GraphName) (hs : ∀ n, Knows r.dict n → LoudsStore.Returns A n r.dict subject)
    (ho : ∀ n, Knows r.dict n → (∀ t, subject = some t → n.termId t ≠ none) →
      (∀ p, predicate = some p → n.termId (.namedNode p) ≠ none) → LoudsStore.Returns A n r.dict object) :
    ∃ (qs : List Quad) (r' : RingStore D),
      RingStore.quadsForPattern A r subject predicate object graphName = .ok (qs.map Quad.stored, r') ∧
        qs.Nodup ∧ ∀ q, q ∈ qs ↔ q ∈ σ.quads ∧ LoudsStore.PatternMatches subject predicate object graphName q := by
  obtain ⟨s, hmir, hholds⟩ := h
  obtain ⟨n, hinv, hlive⟩ := hholds.live_iff
  have hknows : Knows r.dict n := hmir.dict ▸ hinv.knows
  obtain ⟨qs, d, hr, -, hnodup, hmem⟩ := LoudsStore.readPattern_finds I hknows (nodup_dedup _)
    (fun _ _ _ _ => hmir.graph_known hinv) (scanGraph_scans I hmir hinv) subject predicate object graphName
    (hs n hknows) (ho n hknows)
  refine ⟨qs, { r with dict := d }, ?_, hnodup, fun q => by rw [hmem, hlive]⟩
  rw [quadsForPattern_eq]
  exact congrArg _ hr

/-! ## The dictionary of the source -/

section Source

open Dictionary DictCompact

variable {bs : Nat}

/-- The lookups of a call return; the dictionary and the triples it compacts are safe. -/
def CallOk (bs : Nat) (r : RingStore Dictionary) (e : Event) : Prop :=
  Machine.BatchMeets (applyOne (api bs)) (fun r w => WriteOk r.dict w) r (writes e) ∧
    ∀ r', compactsAt (api bs) r e = some r' → CompactSafe bs r'.dict ∧ Fits r'

/-- The number of ids of the dictionary. -/
def dictLen (d : Dictionary) : Nat := d.idToTerm.length

variable {r : RingStore Dictionary}

theorem CallOk.stepOk (hbs : 0 < bs) {e : Event} (h : CallOk bs r e) :
    StepOk (api bs) (Dictionary.Knows bs) (NamesSafe bs) r e := by
  obtain ⟨hwrites, hcompact⟩ := h
  refine ⟨hwrites.imp ?_, ?_⟩
  · exact fun _ _ hw _ hn => LoudsStore.quiet_of_writeOk hbs hn hw
  · intro r' hr'
    obtain ⟨hsafe, hfits⟩ := hcompact r' hr'
    exact ⟨fun _ hn => hn.namesSafe hbs hsafe, hfits⟩

/-- The readers answer for the set, wherever their lookups return. -/
structure Answers (bs : Nat) (r : RingStore Dictionary) (S : Finset Quad) : Prop where
  contains : ∀ q, Findable r.dict q → contains (api bs) r q = .ok (decide (q ∈ S))
  quadsForPattern : ∀ subject predicate object graphName, FindablePattern r.dict subject predicate object →
    ∃ (qs : List Quad) (r' : RingStore Dictionary),
      quadsForPattern (api bs) r subject predicate object graphName = .ok (qs.map Quad.stored, r') ∧
        qs.Nodup ∧ ∀ q, q ∈ qs ↔ q ∈ S ∧ LoudsStore.PatternMatches subject predicate object graphName q

theorem Follows.answers (hbs : 0 < bs) (h : Follows (Dictionary.Knows bs) r σ) : Answers bs r σ.quads where
  contains := fun q hq => h.contains (implements hbs) q fun _ hn => lookupQuad_of_findable hbs hn hq
  quadsForPattern := fun _ _ _ _ hok => h.quadsForPattern (implements hbs) _ _ _ _
    (fun _ hn => (hok.returns hbs hn).1) fun _ hn => (hok.returns hbs hn).2

/-- In every run whose calls are safe, the replies are those of the set of quads and the
readers answer for it in every state reached; if no call fails, the set is the plain
result of the inserts and removes. -/
theorem ring_refines_set (hbs : 0 < bs) (files : Residency) {events : List Event}
    (h : Machine.Meets (step (api bs) dictLen files) (CallOk bs) (new (Dictionary.new bs)) events)
    {reached : List Event} (hpre : reached <+: events) :
    (Machine.run (step (api bs) dictLen files) (new (Dictionary.new bs)) reached).1 =
        (Machine.run Spec.step .empty reached).1 ∧
      Answers bs (Machine.run (step (api bs) dictLen files) (new (Dictionary.new bs)) reached).2
        (Machine.run Spec.step .empty reached).2.quads ∧
      ((∀ x ∈ (Machine.run Spec.step .empty reached).1, x.isOk = true) →
        (Machine.run Spec.step .empty reached).2.quads = (reached.flatMap writes).foldl Spec.applyPlain ∅) := by
  obtain ⟨rest, rfl⟩ := hpre
  have hmeets := (Machine.meets_append.mp h).1.imp fun _ _ hok => hok.stepOk hbs
  have hstart : Follows (Dictionary.Knows bs) (new (Dictionary.new bs)) .empty := follows_new (knows_new bs)
  obtain ⟨hans, hend⟩ := Machine.run_sim (step_follows (implements hbs) dictLen files) hstart hmeets
  exact ⟨hans, hend.answers hbs, Spec.run_step_quads reached⟩

theorem fitsU32_of_length (h : triples.length < 2 ^ 30) : FitsU32 triples where
  symbols := by
    -- three ids a triple, each counted once
    have hnodup : (symbolsOf triples).Nodup := (symbolsOf_sorted triples).imp Nat.ne_of_lt
    have hsub : symbolsOf triples ⊆ triples.flatMap fun t => [t.1, t.2.1, t.2.2] := by
      intro x hx
      obtain ⟨t, ht, heq⟩ := mem_symbolsOf.mp hx
      apply mem_flatMap.mpr
      exact ⟨t, ht, by simpa using heq⟩
    have hle := (hnodup.subperm hsub).length_le
    have hflat : (triples.flatMap fun t => [t.1, t.2.1, t.2.2]).length = triples.length * 3 := by
      simp [length_flatMap]
    omega
  rows := by
    have hsub := (dedupRuns_sublist (sortRows triples)).length_le
    have hperm := (sortRows_perm triples).length_eq
    rw [distinctRows]
    omega

/-- One block of terms and few triples for each graph: such a state is compacted safely. -/
def fitsSmall (bs : Nat) (r : RingStore Dictionary) : Bool :=
  LoudsStore.fitsBlock bs r.dict &&
    match r.merged with
    | none => true
    | some m => m.toList.all fun e => decide (e.2.length < 2 ^ 30)

theorem fits_of_fitsSmall (h : fitsSmall bs r = true) : Fits r := by
  rw [fitsSmall, Bool.and_eq_true] at h
  obtain ⟨-, hsmall⟩ := h
  intro m hm g triples hg
  rw [hm] at hsmall
  have hmem := Std.TreeMap.mem_toList_iff_getElem?_eq_some.mpr hg
  have hlen := all_eq_true.mp hsmall _ hmem
  exact fitsU32_of_length (of_decide_eq_true hlen)

theorem callOk_of_fitsSmall {e : Event}
    (hwrites : Machine.BatchMeets (applyOne (api bs)) (fun r w => WriteOk r.dict w) r (writes e))
    (h : (compactsAt (api bs) r e).all (fitsSmall bs) = true) : CallOk bs r e := by
  refine ⟨hwrites, ?_⟩
  intro r' hr'
  rw [hr', Option.all_some] at h
  have hblock := h
  rw [fitsSmall, Bool.and_eq_true] at hblock
  exact ⟨LoudsStore.compactSafe_of_fitsBlock hblock.1, fits_of_fitsSmall h⟩

/-- A quad is inserted and removed, which leaves a tombstone, and then loaded. -/
def reloadEvents : List Event :=
  [.call (.insert (LoudsStore.sampleQuad "a")), .call (.remove (LoudsStore.sampleQuad "a")),
    .bulkLoad [LoudsStore.sampleQuad "a"]]

/-- A bulk load over a pending tombstone keeps the loaded quad. -/
theorem ring_refines_set_reload :
    contains (api sourceBlockSize)
      (Machine.run (step (api sourceBlockSize) dictLen fun _ _ => none) (new (Dictionary.new sourceBlockSize))
        reloadEvents).2 (LoudsStore.sampleQuad "a") = .ok true := by
  have hmeets : Machine.Meets (step (api sourceBlockSize) dictLen fun _ _ => none) (fun r e =>
      Machine.BatchMeets (applyOne (api sourceBlockSize)) (fun r w => WriteOk r.dict w) r (writes e) ∧
        (compactsAt (api sourceBlockSize) r e).all (fitsSmall sourceBlockSize) = true)
      (new (Dictionary.new sourceBlockSize)) reloadEvents := by
    decide +kernel
  have hok := hmeets.imp (Q := CallOk sourceBlockSize) fun r e he => callOk_of_fitsSmall he.1 he.2
  obtain ⟨-, hanswers, -⟩ := ring_refines_set (by decide) (fun _ _ => none) hok (prefix_refl _)
  have hcontains := hanswers.contains (LoudsStore.sampleQuad "a") (by decide +kernel)
  have hmem : decide (LoudsStore.sampleQuad "a" ∈ (Machine.run Spec.step .empty reloadEvents).2.quads) = true := by
    decide +kernel
  rw [hcontains, hmem]

/-- After a compaction, asking for a quad with an unknown quoted triple panics. -/
theorem unknown_quote_panics :
    ¬∀ (events : List Event) (q : Quad), contains (api sourceBlockSize)
        (Machine.run (step (api sourceBlockSize) dictLen fun _ _ => none) (new (Dictionary.new sourceBlockSize))
          events).2 q = .ok (decide (q ∈ (Machine.run Spec.step .empty events).2.quads)) := by
  intro hclaim
  have hok := hclaim [.call (.insert (LoudsStore.sampleQuad "a")), .call .compact] quotingQuad
  have hpanic : (contains (api sourceBlockSize)
      (Machine.run (step (api sourceBlockSize) dictLen fun _ _ => none) (new (Dictionary.new sourceBlockSize))
        [.call (.insert (LoudsStore.sampleQuad "a")), .call .compact]).2 quotingQuad).isOk = false := by
    decide +kernel
  rw [hok] at hpanic
  exact absurd hpanic (by simp [Except.isOk, Except.toBool])

end Source

end RingStore

end Nova
