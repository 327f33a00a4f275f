import Nova.Reasoning.Infer
import Nova.Louds.Source
import Nova.Louds.Runs

/-!
# Inference over the LOUDS store

`louds_backs`: a state of the store is a dataset as the engine needs it, with the
live quads on one side and the triples of the rings on the other.
-/

namespace Nova.Reasoning

open Nova Nova.Lib List

theorem toOption_new {id : Nat} {tid : TermId} :
    (TermId.new id).toOption = some tid ↔ id = tid.asU64 := by
  constructor
  · intro h
    cases hnew : TermId.new id with
    | error e =>
      rw [hnew] at h
      cases h
    | ok tid' =>
      rw [hnew] at h
      cases h
      exact (TermId.new_eq_ok hnew).symm
  · rintro rfl
    simp [Except.toOption]

/-- The ids of a table of names. -/
def numbering (n : Names) : Numbering where
  idOf t := (n.termId t).map TermId.asU64
  termOf id := (TermId.new id).toOption.bind n.term
  idOf_eq_some := by
    intro t id
    simp only [Option.map_eq_some_iff, Option.bind_eq_some_iff, Names.termId_eq_some, toOption_new]
    constructor
    · rintro ⟨tid, ht, rfl⟩
      exact ⟨tid, rfl, ht⟩
    · rintro ⟨tid, rfl, ht⟩
      exact ⟨tid, ht, rfl⟩
  small := by
    intro id t ht
    rcases Option.bind_eq_some_iff.mp ht with ⟨tid, hid, _⟩
    rw [toOption_new.mp hid]
    exact Nat.lt_trans tid.lt_two_pow (by decide)

/-- A triple of ring ids as a row. -/
def rowOfIds (t : Lib.Row) : Row := ⟨t.1, t.2.1, t.2.2⟩

/-- The rows of all rings. -/
def compactedRows {D : Type} (s : LoudsStore D) : Finset Row :=
  (s.graphs.toList.flatMap fun e => e.2.spoTriples.map rowOfIds).toFinset

theorem mem_compactedRows {D : Type} {s : LoudsStore D} {row : Row} :
    row ∈ compactedRows s ↔ ∃ (g : GraphId) (ring : GraphRing), s.graphs[g]? = some ring ∧
      ∃ t ∈ ring.triples, rowOfIds t = row := by
  simp only [compactedRows, mem_toFinset, mem_flatMap, mem_map, Prod.exists,
    Std.TreeMap.mem_toList_iff_getElem?_eq_some, GraphRing.mem_triples]

/-! ## Scans of all graphs -/

theorem mem_ring_joinScan {ring : GraphRing} {bound : Fin 3 → Option Nat} {target : Fin 3}
    (hfree : bound target = none) {x : Nat} :
    x ∈ ring.joinScan (bound 0) (bound 1) (bound 2) target ↔
      ∃ t ∈ ring.triples, (rowOfIds t).get target = x ∧ (rowOfIds t).Within bound := by
  have hfield : GraphRing.fieldVal (bound 0) (bound 1) (bound 2) target = none := by
    rw [← hfree]
    fin_cases target <;> rfl
  rw [GraphRing.mem_joinScan target.isLt hfield]
  refine exists_congr fun t => and_congr_right fun _ => and_congr ?_ ?_
  · fin_cases target <;> rfl
  · constructor
    · rintro ⟨hs, hp, ho⟩ i v hv
      fin_cases i
      · exact hs v hv
      · exact hp v hv
      · exact ho v hv
    · exact fun h => ⟨h 0, h 1, h 2⟩

/-- The keys of one graph in the source of a dataset. -/
def scanOf (ds : Dataset) (bound : Fin 3 → Option Nat) (target : Fin 3) (g : GraphSelector) : Scan :=
  (fieldScan ds bound target g).getD []

/-- The source of a dataset has the rows of its graphs. -/
theorem scans_datasetAtomSource {ds : Dataset} {rel : GraphSelector → Row → Prop}
    (hasc : ∀ g bound target, (scanOf ds bound target g).Pairwise (· < ·))
    (hmem : ∀ g bound target, bound target = none → ∀ x, x ∈ scanOf ds bound target g ↔
      ∃ row, rel g row ∧ row.get target = x ∧ row.Within bound) (graphs : List GraphSelector) :
    Scans (datasetAtomSource ds graphs) fun row => ∃ g ∈ graphs, rel g row := by
  have hstep : ∀ bound target g (acc : Scan), acc.Pairwise (· < ·) →
      (addScan ds bound target acc g).Pairwise (· < ·) ∧
      ∀ x, x ∈ addScan ds bound target acc g ↔ x ∈ acc ∨ x ∈ scanOf ds bound target g := by
    intro bound target g acc hacc
    have hone := hasc g bound target
    unfold scanOf at hone ⊢
    unfold addScan
    cases hscan : fieldScan ds bound target g with
    | none => exact ⟨hacc, fun x => by simp⟩
    | some scan =>
      rw [hscan] at hone
      exact ⟨Sorted.pairwise_union hone, fun x => Sorted.mem_union⟩
  have hfold : ∀ bound target (graphs : List GraphSelector) (acc : Scan), acc.Pairwise (· < ·) →
      (graphs.foldl (addScan ds bound target) acc).Pairwise (· < ·) ∧
      ∀ x, x ∈ graphs.foldl (addScan ds bound target) acc ↔
        x ∈ acc ∨ ∃ g ∈ graphs, x ∈ scanOf ds bound target g := by
    intro bound target graphs
    induction graphs with
    | nil => exact fun acc hacc => ⟨hacc, fun x => by simp⟩
    | cons g graphs ih =>
      intro acc hacc
      rcases hstep bound target g acc hacc with ⟨hacc', hmem'⟩
      rcases ih _ hacc' with ⟨hpair, hin⟩
      refine ⟨hpair, fun x => ?_⟩
      rw [foldl_cons, hin, hmem', or_assoc]
      simp only [mem_cons, exists_eq_or_imp]
  constructor
  · exact fun bound target => (hfold bound target graphs [] .nil).1
  · intro bound target x hfree
    rw [datasetAtomSource, (hfold bound target graphs [] .nil).2, or_iff_right not_mem_nil]
    constructor
    · rintro ⟨g, hg, hx⟩
      rcases (hmem g bound target hfree x).mp hx with ⟨row, hrow, hrest⟩
      exact ⟨row, ⟨g, hg, hrow⟩, hrest⟩
    · rintro ⟨row, ⟨g, hg, hrow⟩, hrest⟩
      exact ⟨g, hg, (hmem g bound target hfree x).mpr ⟨row, hrow, hrest⟩⟩

section Louds

variable {D : Type} {A : DictApi D} {Knows : D → Names → Prop} {CompactOk : Names → Prop} {n : Names}
  {s : LoudsStore D} {shapes : GraphRing → PhysicalShape → Option (List (List Nat))}

/-- The id of a selector of one graph. -/
def selectedId (n : Names) : GraphSelector → Option GraphId
  | .default => some graphDefault
  | .named name => n.graphId name
  | _ => none

/-- The rows of the ring of a graph. -/
def RingRow (n : Names) (s : LoudsStore D) (g : GraphSelector) (row : Row) : Prop :=
  ∃ gid ring, selectedId n g = some gid ∧ s.graphs[gid]? = some ring ∧ ∃ t ∈ ring.triples, rowOfIds t = row

/-- The ring of a selector. -/
theorem scanOf_louds (I : Implements A Knows CompactOk) (h : LoudsStore.Inv Knows n s)
    (g : GraphSelector) (bound : Fin 3 → Option Nat) (target : Fin 3) :
    scanOf (storeDataset (LoudsStore.quadStore A shapes s)) bound target g =
      ((selectedId n g).bind fun gid => s.graphs[gid]?).elim []
        fun ring => ring.joinScan (bound 0) (bound 1) (bound 2) target := by
  have hid : StoreDataset.graphId (LoudsStore.quadStore A shapes s) g = selectedId n g := by
    cases g with
    | named name => exact I.getGraphId _ _ _ h.knows
    | _ => rfl
  have hscan : scanOf (storeDataset (LoudsStore.quadStore A shapes s)) bound target g =
      ((StoreDataset.graphId (LoudsStore.quadStore A shapes s) g).bind fun gid =>
        (LoudsStore.quadStore A shapes s).lftjJoinScan (bound 0) (bound 1) (bound 2) target gid).getD [] := rfl
  rw [hscan, hid]
  cases selectedId n g with
  | none => rfl
  | some gid =>
    simp only [LoudsStore.quadStore, Option.bind_some]
    cases s.graphs[gid]? with
    | none => rfl
    | some ring => rfl

variable (shapes) in
theorem scans_louds (I : Implements A Knows CompactOk) (h : LoudsStore.Inv Knows n s)
    (graphs : List GraphSelector) :
    Scans (datasetAtomSource (storeDataset (LoudsStore.quadStore A shapes s)) graphs)
      fun row => ∃ g ∈ graphs, RingRow n s g row := by
  apply scans_datasetAtomSource
  · intro g bound target
    rw [scanOf_louds I h]
    cases (selectedId n g).bind fun gid => s.graphs[gid]? with
    | none => exact .nil
    | some ring => exact GraphRing.joinScan_ascending
  · intro g bound target hfree x
    rw [scanOf_louds I h]
    constructor
    · intro hx
      cases hring : (selectedId n g).bind fun gid => s.graphs[gid]? with
      | none =>
        rw [hring] at hx
        cases hx
      | some ring =>
        rw [hring] at hx
        rcases Option.bind_eq_some_iff.mp hring with ⟨gid, hgid, hr⟩
        rcases (mem_ring_joinScan hfree).mp hx with ⟨t, ht, hrest⟩
        exact ⟨_, ⟨gid, ring, hgid, hr, t, ht, rfl⟩, hrest⟩
    · rintro ⟨_, ⟨gid, ring, hgid, hr, t, ht, rfl⟩, hrest⟩
      rw [hgid, Option.bind_some, hr]
      exact (mem_ring_joinScan hfree).mpr ⟨t, ht, hrest⟩

variable (shapes) in
/-- The graphs that the engine asks cover all rings. -/
theorem exists_selector (I : Implements A Knows CompactOk) (h : LoudsStore.Inv Knows n s)
    (hdefault : n.graph graphDefault = some .defaultGraph) {S : Finset Quad}
    (hS : ∀ q, q ∈ S ↔ LoudsStore.Live n s q) :
    ∃ named, (storeDataset (LoudsStore.quadStore A shapes s)).namedGraphs = .ok named ∧
      ∀ row, row ∈ compactedRows s ↔
        ∃ g ∈ GraphSelector.default :: named.map .named, RingRow n s g row := by
  have hserves := LoudsStore.serves shapes I h hS
  rcases hserves.answers none none none none (fun _ ht => by cases ht) (fun _ ht => by cases ht) with
    ⟨qs, hr, _⟩
  have hnamed : ∃ live, (storeDataset (LoudsStore.quadStore A shapes s)).namedGraphs = .ok (firsts
      (((LoudsStore.knownNamedGraphs A s).filter fun g => g ≠ .defaultGraph) ++ live)) := by
    show ∃ live, StoreDataset.namedGraphs _ = _
    rw [StoreDataset.namedGraphs, hr]
    exact ⟨_, rfl⟩
  rcases hnamed with ⟨live, hnamed⟩
  refine ⟨_, hnamed, fun row => ?_⟩
  rw [mem_compactedRows]
  constructor
  · rintro ⟨gid, ring, hring, t, ht, rfl⟩
    by_cases hgid : gid = graphDefault
    · exact ⟨.default, mem_cons_self, gid, ring, by rw [hgid]; rfl, hring, t, ht, rfl⟩
    · -- the graph of a row has a name, which is not that of the default graph
      rcases h.rows gid ring hring t ht with ⟨q, sId, pId, oId, hids, _⟩
      have hname := (Names.quadIds_eq_some.mp hids).1
      have hne : q.graphName ≠ .defaultGraph := by
        intro heq
        rw [heq] at hname
        have hid := Names.graphId_eq_some.mpr hname
        rw [Names.graphId_eq_some.mpr hdefault] at hid
        exact hgid (Option.some.inj hid).symm
      have hknown : q.graphName ∈ LoudsStore.knownNamedGraphs A s := by
        refine LoudsStore.mem_knownNamedGraphs.mpr ⟨gid, .inr ⟨by rw [hring]; rfl, hgid⟩, ?_⟩
        rw [I.getGraph _ _ _ h.knows, hname]
      refine ⟨.named q.graphName, mem_cons_of_mem _ (mem_map_of_mem (mem_firsts.mpr
        (mem_append_left _ (mem_filter.mpr ⟨hknown, by simpa using hne⟩)))), ?_⟩
      exact ⟨gid, ring, Names.graphId_eq_some.mpr hname, hring, t, ht, rfl⟩
  · rintro ⟨g, _, gid, ring, _, hring, t, ht, heq⟩
    exact ⟨gid, ring, hring, t, ht, heq⟩

theorem askable_of_asks {t : Term} (h : (numbering n).Asks t) : Askable (LoudsStore.Known n) t := by
  intro htriple
  refine .inl fun hnone => h htriple ?_
  show (n.termId t).map TermId.asU64 = none
  rw [hnone]
  rfl

/-- A state of the store, as the engine sees it. -/
theorem louds_backs (I : Implements A Knows CompactOk) (h : LoudsStore.Inv Knows n s)
    (hdefault : n.graph graphDefault = some .defaultGraph) {S : Finset Quad}
    (hS : ∀ q, q ∈ S ↔ LoudsStore.Live n s q) :
    Backs (storeDataset (LoudsStore.quadStore A shapes s)) (numbering n) S (compactedRows s) where
  lftj := rfl
  find := by
    intro pattern hs ho
    exact findQuads_spec (LoudsStore.serves shapes I h hS) pattern (fun t ht => askable_of_asks (hs t ht))
      fun t ht => askable_of_asks (ho t ht)
  intern := by
    intro t ht
    show (do return (← A.getId s.dict t).map TermId.asU64) = _
    rw [LoudsStore.getId_of_askable I h (askable_of_asks ht)]
    rfl
  decode := by
    intro id
    show (LoudsStore.quadStore A shapes s).lftjDecodeTerm id = .ok ((TermId.new id).toOption.bind n.term)
    simp only [LoudsStore.quadStore]
    cases TermId.new id with
    | error e => rfl
    | ok tid =>
      rcases I.getTermArc _ _ tid h.knows with ⟨d', hr, _⟩
      simp only [hr]
      rfl
  known := by
    intro q hq
    rcases ((hS q).mp hq).terms_known with ⟨hs, hp, ho⟩
    exact ⟨fun hnone => hs (Option.map_eq_none_iff.mp hnone),
      fun hnone => hp (Option.map_eq_none_iff.mp hnone), fun hnone => ho (Option.map_eq_none_iff.mp hnone)⟩
  scans := by
    rcases exists_selector shapes I h hdefault hS with ⟨named, hnamed, hrows⟩
    refine ⟨named, hnamed, ?_⟩
    have hscans := scans_louds shapes I h (.default :: named.map .named)
    have heq : (fun row => row ∈ compactedRows s) =
        fun row => ∃ g ∈ GraphSelector.default :: named.map .named, RingRow n s g row :=
      funext fun row => propext (hrows row)
    rwa [heq]
  rows := by
    intro row hrow i
    rcases mem_compactedRows.mp hrow with ⟨g, ring, hring, t, ht, rfl⟩
    rcases h.rows g ring hring t ht with ⟨q, sId, pId, oId, hids, rfl⟩
    rcases Names.quadIds_eq_some.mp hids with ⟨_, hs, hp, ho⟩
    have hterm : ∀ {tid : TermId} {t : Term}, n.term tid = some t → (numbering n).termOf tid.asU64 ≠ none := by
      intro tid t ht hnone
      have : (TermId.new tid.asU64).toOption.bind n.term = none := hnone
      rw [toOption_new.mpr rfl, Option.bind_some, ht] at this
      cases this
    fin_cases i
    · exact hterm hs
    · exact hterm hp
    · exact hterm ho

end Louds

end Nova.Reasoning
