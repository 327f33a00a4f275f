import Nova.Louds.Read
import Nova.Query.Solution

/-!
# Datasets

The seam between the stores and the evaluator. A `QuadStore` lists the calls
that the query layer makes on a store, a `Dataset` the calls of the evaluator,
which name graphs by a `GraphSelector`; `storeDataset` bridges the two. The merge
of several graphs is made here and nowhere else: every quad of the store is
scanned and `graphMatches` drops those of other graphs.

`Serves` is the contract of a store: `quadsForPattern` returns every matching
quad once. `findQuads_spec` lifts it to the dataset. One reservation comes from
the dictionaries: the lookup of a quoted triple is only promised where the store
knows that triple.

A scan is the strictly increasing list of keys that its iterator still has in
front of it. Cancellation is not modelled.
-/

namespace Nova

open Nova.Lib

/-- The errors of an evaluation: its limits, and the faults of the store. -/
inductive EvalError where
  | resultLimitExceeded (max : Nat)
  | store (f : Fault)
deriving DecidableEq, Repr

/-- `PatternTerm`: one position of a lookup pattern. -/
inductive PatternTerm where
  | bound (t : Term)
  | wildcard
deriving DecidableEq, Repr

inductive GraphSelector where
  | default
  | named (g : GraphName)
  | anyNamed
  | union
  | unionOf (graphs : List GraphName)
deriving DecidableEq, Repr

structure QuadPattern where
  subject : PatternTerm
  predicate : PatternTerm
  object : PatternTerm
  graph : GraphSelector

structure QuadMatch where
  subject : Term
  predicate : Term
  object : Term
  graphName : GraphName
deriving DecidableEq, Repr

/-- `PhysicalShape`: what a store needs to know of a recognised shape. -/
inductive PhysicalShape where
  | twoHop (p1 p2 : Nat)
  | wedge (predicate : Nat)
  | directedTriangle (p1 p2 p3 : Nat)
  | spExpansion (pFilter oFilter pExpand : Nat)
  | kChain (p1 p2 p3 : Nat)
  | star (p1 p2 p3 : Nat)
deriving DecidableEq, Repr

/-- The keys that a scan has in front of it. -/
abbrev Scan := List Nat

/-- `u64::MAX`, the estimate of a backend that has none. -/
def u64Max : Nat := 2 ^ 64 - 1

/-- The calls of `QuadStore` and `LftjSource` that the query layer makes. A
prepared shape is the list of the rows that it emits. -/
structure QuadStore where
  quadsForPattern : Option Term → Option NamedNode → Option Term → Option GraphName →
    Except Fault (List StoredQuad)
  knownNamedGraphs : List GraphName
  supportsLftj : Bool
  lftjHasDelta : Bool
  supportsVeoEstimates : Bool
  lftjInternTerm : Term → Except Panic (Option Nat)
  lftjDecodeTerm : Nat → Except Panic (Option Term)
  lftjGraphId : GraphName → Option GraphId
  lftjEstimateCount : Option Nat → Option Nat → Option Nat → Nat → GraphId → Nat
  lftjRealCount : Option Nat → Option Nat → Option Nat → Nat → GraphId → Option Nat
  lftjJoinScan : Option Nat → Option Nat → Option Nat → Nat → GraphId → Option Scan
  lftjMultiSubjectObjectIntersect : List Nat → Option Nat → GraphId → Option Scan
  lftjPrepareSpObjectScan : Nat → GraphId → Option (Nat → Option Scan)
  lftjPrepareShape : PhysicalShape → GraphId → Option (List (List Nat))

/-- The calls of `Dataset` and `DatasetLftjSource`. -/
structure Dataset where
  findQuads : QuadPattern → Except Fault (List QuadMatch)
  namedGraphs : Except Fault (List GraphName)
  supportsLftj : Bool
  lftjHasDelta : Bool
  supportsVeoEstimates : Bool
  lftjInternTerm : Term → Except Panic (Option Nat)
  lftjDecodeTerm : Nat → Except Panic (Option Term)
  lftjEstimateCount : Option Nat → Option Nat → Option Nat → Nat → GraphSelector → Nat
  lftjRealCount : Option Nat → Option Nat → Option Nat → Nat → GraphSelector → Option Nat
  lftjJoinScan : Option Nat → Option Nat → Option Nat → Nat → GraphSelector → Option Scan
  lftjMultiSubjectObjectIntersect : List Nat → Option Nat → GraphSelector → Option Scan
  lftjPrepareSpObjectScan : Nat → GraphSelector → Option (Nat → Option Scan)
  lftjPrepareShape : PhysicalShape → GraphSelector → Option (List (List Nat))

/-- `graph_matches`. -/
def graphMatches : GraphSelector → GraphName → Bool
  | .default, g => g = .defaultGraph
  | .named g', g => g' = g
  | .anyNamed, g => g ≠ .defaultGraph
  | .union, _ => true
  | .unionOf graphs, g => g ∈ graphs

/-- `Dataset::contains_quad`, which no dataset of the query layer overrides. -/
def Dataset.containsQuad (ds : Dataset) (s p o : Term) (g : GraphName) : Except Fault Bool := do
  let graph := if g = .defaultGraph then GraphSelector.default else .named g
  let quads ← ds.findQuads ⟨.bound s, .bound p, .bound o, graph⟩
  return !quads.isEmpty

/-! ## The adapter of a store -/

namespace StoreDataset

/-- `to_named_node`: a bound term that is not an IRI is a wildcard. -/
def toNamedNode : PatternTerm → Option NamedNode
  | .bound (.namedNode n) => some n
  | .bound _ => none
  | .wildcard => none

/-- `to_term_ref`. -/
def toTermRef : PatternTerm → Option Term
  | .bound t => some t
  | .wildcard => none

/-- The graph that is passed down to the store: one graph, or all of them. -/
def graphFilter : GraphSelector → Option GraphName
  | .default => some .defaultGraph
  | .named g => some g
  | .anyNamed => none
  | .union => none
  | .unionOf _ => none

def findQuads (st : QuadStore) (pattern : QuadPattern) : Except Fault (List QuadMatch) := do
  let stored ← st.quadsForPattern (toTermRef pattern.subject) (toNamedNode pattern.predicate)
    (toTermRef pattern.object) (graphFilter pattern.graph)
  let kept := stored.filter fun sq => graphMatches pattern.graph sq.graphName
  return kept.map fun sq => ⟨sq.subject, sq.predicate, sq.object, sq.graphName⟩

/-- `named_graphs`: the registered graphs, then the IRI graphs of the quads that
are not among them. -/
def namedGraphs (st : QuadStore) : Except Fault (List GraphName) := do
  let known := st.knownNamedGraphs.filter fun g => g ≠ .defaultGraph
  let stored ← st.quadsForPattern none none none none
  let inferred := stored.filterMap fun sq =>
    match sq.graphName with
    | .namedNode n => some (.namedNode n)
    | _ => none
  return firsts (known ++ inferred)

/-- The graph id of a selector of one graph. -/
def graphId (st : QuadStore) : GraphSelector → Option GraphId
  | .default => some graphDefault
  | .named g => st.lftjGraphId g
  | _ => none

end StoreDataset

open StoreDataset in
/-- `StoreDataset`. -/
def storeDataset (st : QuadStore) : Dataset where
  findQuads := StoreDataset.findQuads st
  namedGraphs := StoreDataset.namedGraphs st
  supportsLftj := st.supportsLftj
  lftjHasDelta := st.lftjHasDelta
  supportsVeoEstimates := st.supportsVeoEstimates
  lftjInternTerm := st.lftjInternTerm
  lftjDecodeTerm := st.lftjDecodeTerm
  lftjEstimateCount s p o target graph :=
    match graphId st graph with
    | none => u64Max
    | some g => st.lftjEstimateCount s p o target g
  lftjRealCount s p o target graph :=
    (graphId st graph).bind fun g => st.lftjRealCount s p o target g
  lftjJoinScan s p o target graph :=
    (graphId st graph).bind fun g => st.lftjJoinScan s p o target g
  lftjMultiSubjectObjectIntersect subjects predicate graph :=
    (graphId st graph).bind fun g => st.lftjMultiSubjectObjectIntersect subjects predicate g
  lftjPrepareSpObjectScan predicate graph :=
    (graphId st graph).bind fun g => st.lftjPrepareSpObjectScan predicate g
  lftjPrepareShape shape graph :=
    (graphId st graph).bind fun g => st.lftjPrepareShape shape g

/-! ## The contract of a store -/

/-- A term that may be looked up: quoted triples only where they are known. -/
def Askable (Known : Term → Prop) (t : Term) : Prop := t.isTriple = true → Known t

/-- The store stands for a set of quads: `quadsForPattern` returns every matching
quad once, where the bound terms may be looked up. -/
structure Serves (st : QuadStore) (S : Finset Quad) (Known : Term → Prop) : Prop where
  answers : ∀ subject predicate object graphName,
    (∀ t, subject = some t → Askable Known t) → (∀ t, object = some t → Askable Known t) →
    ∃ qs : List Quad, st.quadsForPattern subject predicate object graphName =
        .ok (qs.map Quad.stored) ∧ qs.Nodup ∧
      ∀ q, q ∈ qs ↔ q ∈ S ∧ LoudsStore.PatternMatches subject predicate object graphName q
  stored : ∀ q ∈ S, Askable Known q.object

def Quad.found (q : Quad) : QuadMatch :=
  ⟨q.subject.toTerm, .namedNode q.predicate, q.object, q.graphName⟩

/-- The quads that a selector looks at. -/
def selected (S : Finset Quad) (graph : GraphSelector) : Finset Quad :=
  S.filter fun q => graphMatches graph q.graphName = true

/-- What `findQuads` asks of a quad: a bound predicate that is not an IRI asks
nothing. -/
def FindMatches (pattern : QuadPattern) (q : Quad) : Prop :=
  (∀ t, pattern.subject = .bound t → q.subject.toTerm = t) ∧
    (∀ n, pattern.predicate = .bound (.namedNode n) → q.predicate = n) ∧
      ∀ t, pattern.object = .bound t → q.object = t

theorem toTermRef_eq_some {pt : PatternTerm} {t : Term} :
    StoreDataset.toTermRef pt = some t ↔ pt = .bound t := by
  cases pt with
  | bound t' => simp [StoreDataset.toTermRef]
  | wildcard => simp [StoreDataset.toTermRef]

theorem toNamedNode_eq_some {pt : PatternTerm} {n : NamedNode} :
    StoreDataset.toNamedNode pt = some n ↔ pt = .bound (.namedNode n) := by
  unfold StoreDataset.toNamedNode
  split
  · simp
  · next t h =>
    constructor
    · intro heq
      cases heq
    · intro heq
      exact absurd (PatternTerm.bound.inj heq) (h n)
  · simp

theorem graphFilter_of_matches {graph : GraphSelector} {g name : GraphName}
    (h : graphMatches graph g = true) (hf : StoreDataset.graphFilter graph = some name) :
    g = name := by
  cases graph with
  | default =>
    simp only [graphMatches, decide_eq_true_eq] at h
    simp only [StoreDataset.graphFilter, Option.some.injEq] at hf
    rw [h, hf]
  | named g' =>
    simp only [graphMatches, decide_eq_true_eq] at h
    simp only [StoreDataset.graphFilter, Option.some.injEq] at hf
    rw [← h, hf]
  | _ => simp [StoreDataset.graphFilter] at hf

/-- `find_quads` returns every quad of the selected graphs that has the bound
terms, each once. -/
theorem findQuads_spec {st : QuadStore} {S : Finset Quad} {Known : Term → Prop}
    (h : Serves st S Known) (pattern : QuadPattern)
    (hs : ∀ t, pattern.subject = .bound t → Askable Known t)
    (ho : ∀ t, pattern.object = .bound t → Askable Known t) :
    ∃ qs : List Quad, (storeDataset st).findQuads pattern = .ok (qs.map Quad.found) ∧ qs.Nodup ∧
      ∀ q, q ∈ qs ↔ q ∈ selected S pattern.graph ∧ FindMatches pattern q := by
  rcases h.answers (StoreDataset.toTermRef pattern.subject) (StoreDataset.toNamedNode pattern.predicate)
    (StoreDataset.toTermRef pattern.object) (StoreDataset.graphFilter pattern.graph)
    (fun t ht => hs t (toTermRef_eq_some.mp ht)) (fun t ht => ho t (toTermRef_eq_some.mp ht))
    with ⟨qs, hr, hnodup, hmem⟩
  refine ⟨qs.filter fun q => graphMatches pattern.graph q.graphName, ?_, hnodup.filter _, ?_⟩
  · show StoreDataset.findQuads st pattern = _
    rw [StoreDataset.findQuads, hr]
    show Except.ok _ = _
    rw [List.filter_map, List.map_map]
    rfl
  · intro q
    rw [List.mem_filter, hmem, selected, Finset.mem_filter]
    constructor
    · intro hq
      rcases hq with ⟨⟨hS, hm⟩, hg⟩
      refine ⟨⟨hS, hg⟩, ?_, ?_, ?_⟩
      · exact fun t ht => hm.subject t (toTermRef_eq_some.mpr ht)
      · exact fun n hn => hm.predicate n (toNamedNode_eq_some.mpr hn)
      · exact fun t ht => hm.object t (toTermRef_eq_some.mpr ht)
    · intro hq
      rcases hq with ⟨⟨hS, hg⟩, hsub, hpred, hobj⟩
      refine ⟨⟨hS, ?_, ?_, ?_, ?_⟩, hg⟩
      · exact fun t ht => hsub t (toTermRef_eq_some.mp ht)
      · exact fun n hn => hpred n (toNamedNode_eq_some.mp hn)
      · exact fun t ht => hobj t (toTermRef_eq_some.mp ht)
      · exact fun name hn => graphFilter_of_matches hg hn

end Nova
