import Nova.Core.Relabel
import Nova.Memory.Store
import Mathlib.Logic.Equiv.Fintype

/-!
# Loading documents one after another

`Store::load`, the Graph Store `POST` handler and `LOAD` parse a document and insert its
quads. The parser keeps the labels of blank nodes as they are written, and none of the
three renames them: a label means the same blank node in every document and in the store.

* `merges_iff`: the documents are merged as RDF graphs, so that it makes no difference how
  the blank nodes of one of them are labelled, exactly if no document with blank nodes meets
  others, in another document or in the store.
* `label_shared`: two documents of one quad each, with a blank node of the same label.

A document is what the parser returns for it. The store is any one with writes that
succeed; a store that fails ends the load with its error.
-/

namespace Nova.Server

open Nova List

/-- What the parser yields, one by one. -/
abbrev Document := List (Except String Quad)

/-- A store to write to, and the quads it holds. -/
structure WriteStore (σ : Type) where
  insert : σ → Quad → Bool × σ
  extend : σ → List Quad → Nat × σ
  registerNamedGraph : σ → GraphName → σ
  knownNamedGraphs : σ → List GraphName
  quads : σ → Finset Quad
  quads_insert : ∀ s q, quads (insert s q).2 = Insert.insert q (quads s)
  quads_extend : ∀ s qs, quads (extend s qs).2 = quads s ∪ qs.toFinset
  quads_register : ∀ s g, quads (registerNamedGraph s g) = quads s

/-- `RdfParser::with_default_graph`: a quad of the default graph goes to the target. -/
def withDefaultGraph (target g : GraphName) : GraphName := if g = .defaultGraph then target else g

section Operations

variable {σ : Type} (B : WriteStore σ)

/-- The loop of `Store::load`: what comes before a parse error is in the store. -/
def loadFrom (target : GraphName) : σ → Nat → Document → Except String Nat × σ
  | s, count, [] => (.ok count, s)
  | s, _, .error e :: _ => (.error e, s)
  | s, count, .ok q :: rest =>
    let (new, s) := B.insert s { q with graphName := withDefaultGraph target q.graphName }
    loadFrom target s (if new then count + 1 else count) rest

def load (s : σ) (toGraphName : Option GraphName) (doc : Document) : Except String Nat × σ :=
  loadFrom B (toGraphName.getD .defaultGraph) s 0 doc

inductive Response where
  | badRequest (message : String)
  | noContent
  | created
deriving DecidableEq, Repr

def parseBodyTriples (doc : Document) : Except Response (List (Subject × NamedNode × Term)) :=
  match doc.mapM id with
  | .error e => .error (.badRequest ("RDF parse error: " ++ e))
  | .ok quads => .ok (quads.map fun q => (q.subject, q.predicate, q.object))

def insertTriplesIntoGraph (s : σ) (graph : GraphName) (triples : List (Subject × NamedNode × Term)) : σ :=
  let s := if graph = .defaultGraph then s else B.registerNamedGraph s graph
  triples.foldl (fun s t => (B.insert s ⟨t.1, t.2.1, t.2.2, graph⟩).2) s

def graphExists (s : σ) (g : GraphName) : Bool :=
  g = .defaultGraph ∨ g ∈ B.knownNamedGraphs s ∨ ∃ q ∈ B.quads s, q.graphName = g

/-- `store_post`, from the target graph on. -/
def storePost (s : σ) (graph : GraphName) (doc : Document) : Response × σ :=
  let existed := graphExists B s graph
  match parseBodyTriples doc with
  | .error response => (response, s)
  | .ok triples =>
    (if existed then .noContent else .created, insertTriplesIntoGraph B s graph triples)

/-- `do_load`, from the body of the response on. -/
def doLoad (s : σ) (source : NamedNode) (destination : GraphName) (doc : Document) : Except String Unit × σ :=
  match doc.mapM id with
  | .error e => (.error ("LOAD <" ++ source.iri ++ ">: RDF parse error: " ++ e), s)
  | .ok quads =>
    (.ok (), (B.extend s (quads.map fun q =>
      { q with graphName := withDefaultGraph destination q.graphName })).2)

end Operations

/-- One of the three ways to load a document. -/
inductive Request where
  | load (toGraphName : Option GraphName) (doc : Document)
  | post (graph : GraphName) (doc : Document)
  | update (source : NamedNode) (destination : GraphName) (doc : Document)

namespace Request

def document : Request → Document
  | load _ doc => doc
  | post _ doc => doc
  | update _ _ doc => doc

/-- The request with another document. -/
def withDocument (doc : Document) : Request → Request
  | load g _ => load g doc
  | post g _ => post g doc
  | update source g _ => update source g doc

/-- The blank nodes of the document are renamed. -/
def relabel (ρ : BlankNode → BlankNode) (r : Request) : Request :=
  r.withDocument (r.document.map (Except.map (Quad.relabel ρ)))

def quads (r : Request) : List Quad := r.document.filterMap Except.toOption

/-- The labels used inside the document. -/
def labels (r : Request) : Finset BlankNode := labelsOf r.quads.toFinset

/-- The document has no syntax error. -/
def Parses (r : Request) : Prop := ∀ e, Except.error e ∉ r.document

/-- The graph of the store for a graph of the document. -/
def graphFor : Request → GraphName → GraphName
  | load target _, g => withDefaultGraph (target.getD .defaultGraph) g
  | post target _, _ => target
  | update _ target _, g => withDefaultGraph target g

/-- The quads the request adds. -/
def added (r : Request) : Finset Quad :=
  (r.quads.map fun q => { q with graphName := r.graphFor q.graphName }).toFinset

end Request

section Runs

variable {σ : Type} (B : WriteStore σ)

/-- The state a request leaves, if it succeeds. -/
def answer (s : σ) : Request → Except String σ
  | .load g doc =>
    match load B s g doc with
    | (.ok _, s) => .ok s
    | (.error e, _) => .error e
  | .post g doc =>
    match storePost B s g doc with
    | (.badRequest e, _) => .error e
    | (_, s) => .ok s
  | .update source g doc =>
    match doLoad B s source g doc with
    | (.ok _, s) => .ok s
    | (.error e, _) => .error e

def loadAll (s : σ) (requests : List Request) : Except String σ := requests.foldlM (answer B) s

/-- Loading gives the merge of the documents and the store: a one to one renaming of the
blank nodes inside one document renames the blank nodes of the final store. -/
def Merges (s : σ) (requests : List Request) : Prop :=
  ∀ k r, requests[k]? = some r → ∀ ρ : BlankNode → BlankNode, Set.InjOn ρ r.labels → ∀ s₁ s₂,
    loadAll B s requests = .ok s₁ → loadAll B s (requests.set k (r.relabel ρ)) = .ok s₂ →
      ∃ π : Equiv.Perm BlankNode, B.quads s₂ = (B.quads s₁).image (Quad.relabel π)

end Runs

/-! ## What a request adds -/

variable {target : GraphName}

section Added

variable {σ : Type} {B : WriteStore σ} {s s' : σ} {r : Request} {requests : List Request}

variable {doc : Document}

theorem mapM_id_ok (h : ∀ e, Except.error e ∉ doc) : doc.mapM id = .ok (doc.filterMap Except.toOption) := by
  induction doc with
  | nil => rfl
  | cons first rest ih =>
    cases first with
    | error e => exact absurd mem_cons_self (h e)
    | ok q =>
      have hrest := ih fun e he => h e (mem_cons_of_mem _ he)
      simp only [mapM_cons, hrest, id, bind, Except.bind, pure, Except.pure, filterMap_cons,
        Except.toOption]

theorem mapM_id_error {e : String} (h : Except.error e ∈ doc) : ∃ e', doc.mapM id = .error e' := by
  induction doc with
  | nil => cases h
  | cons first rest ih =>
    cases first with
    | error e' => exact ⟨e', rfl⟩
    | ok q =>
      have hrest : Except.error e ∈ rest := by simpa using h
      rcases ih hrest with ⟨e', he'⟩
      exact ⟨e', by simp only [mapM_cons, id, he', bind, Except.bind]⟩

theorem loadFrom_ok (h : ∀ e, Except.error e ∉ doc) (s : σ) (count : Nat) :
    ∃ total s', loadFrom B target s count doc = (.ok total, s') ∧ B.quads s' = B.quads s ∪
      ((doc.filterMap Except.toOption).map fun q =>
        { q with graphName := withDefaultGraph target q.graphName }).toFinset := by
  induction doc generalizing s count with
  | nil => exact ⟨count, s, rfl, by simp⟩
  | cons first rest ih =>
    cases first with
    | error e => exact absurd mem_cons_self (h e)
    | ok q =>
      rcases ih (fun e he => h e (mem_cons_of_mem _ he)) _ _ with ⟨total, s', hload, hquads⟩
      refine ⟨total, s', hload, ?_⟩
      rw [hquads, B.quads_insert]
      simp only [filterMap_cons, Except.toOption, map_cons, toFinset_cons, Finset.insert_union,
        Finset.union_insert]

theorem loadFrom_error {e : String} (h : Except.error e ∈ doc) (s : σ)
    (count : Nat) : ∃ e' s', loadFrom B target s count doc = (.error e', s') := by
  induction doc generalizing s count with
  | nil => cases h
  | cons first rest ih =>
    cases first with
    | error e' => exact ⟨e', s, rfl⟩
    | ok q =>
      exact ih (by simpa using h) _ _

theorem quads_insertAll (graph : GraphName) (triples : List (Subject × NamedNode × Term)) (s : σ) :
    B.quads (triples.foldl (fun s t => (B.insert s ⟨t.1, t.2.1, t.2.2, graph⟩).2) s) =
      B.quads s ∪ (triples.map fun t => (⟨t.1, t.2.1, t.2.2, graph⟩ : Quad)).toFinset := by
  induction triples generalizing s with
  | nil => simp
  | cons t rest ih =>
    rw [foldl_cons, ih, B.quads_insert]
    simp only [map_cons, toFinset_cons, Finset.insert_union, Finset.union_insert]

theorem answer_ok (h : r.Parses) (s : σ) : ∃ s', answer B s r = .ok s' ∧ B.quads s' = B.quads s ∪ r.added := by
  cases r with
  | load g doc =>
    have hok : ∀ e, Except.error e ∉ doc := h
    rcases loadFrom_ok (B := B) hok s 0 with ⟨total, s', hload, hquads⟩
    exact ⟨s', by simp only [answer, load, hload], hquads⟩
  | post g doc =>
    have hparse : doc.mapM id = .ok (doc.filterMap Except.toOption) := mapM_id_ok h
    refine ⟨insertTriplesIntoGraph B s g ((doc.filterMap Except.toOption).map fun q =>
      (q.subject, q.predicate, q.object)),
      ?_, ?_⟩
    · simp only [answer, storePost, parseBodyTriples, hparse]
      cases graphExists B s g <;> rfl
    · have hregister : B.quads (if g = .defaultGraph then s else B.registerNamedGraph s g) = B.quads s := by
        split
        · rfl
        · exact B.quads_register s g
      rw [insertTriplesIntoGraph, quads_insertAll, hregister, map_map]
      rfl
  | update source g doc =>
    have hparse : doc.mapM id = .ok (doc.filterMap Except.toOption) := mapM_id_ok h
    refine ⟨(B.extend s ((doc.filterMap Except.toOption).map fun q =>
      { q with graphName := withDefaultGraph g q.graphName })).2, ?_, B.quads_extend s _⟩
    simp only [answer, doLoad, hparse]

theorem answer_error (h : ¬r.Parses) (s : σ) : ∃ e, answer B s r = .error e := by
  simp only [Request.Parses, not_forall, not_not] at h
  rcases h with ⟨e, he⟩
  cases r with
  | load g doc =>
    have hfails : ∃ e' s', loadFrom B (g.getD .defaultGraph) s 0 doc = (.error e', s') := loadFrom_error he s 0
    rcases hfails with ⟨e', s', hload⟩
    exact ⟨e', by simp only [answer, load, hload]⟩
  | post g doc =>
    have he : Except.error e ∈ doc := he
    rcases mapM_id_error he with ⟨e', hparse⟩
    exact ⟨"RDF parse error: " ++ e', by simp only [answer, storePost, parseBodyTriples, hparse]⟩
  | update source g doc =>
    have he : Except.error e ∈ doc := he
    rcases mapM_id_error he with ⟨e', hparse⟩
    exact ⟨"LOAD <" ++ source.iri ++ ">: RDF parse error: " ++ e', by simp only [answer, doLoad, hparse]⟩

/-- The quads all the requests add. -/
def addedBy (requests : List Request) : Finset Quad := requests.foldr (fun r quads => r.added ∪ quads) ∅

theorem loadAll_ok (h : ∀ r ∈ requests, r.Parses) (s : σ) :
    ∃ s', loadAll B s requests = .ok s' ∧ B.quads s' = B.quads s ∪ addedBy requests := by
  induction requests generalizing s with
  | nil => exact ⟨s, rfl, by simp [addedBy]⟩
  | cons r rest ih =>
    rcases answer_ok (B := B) (h r mem_cons_self) s with ⟨s₁, hanswer, hquads⟩
    rcases ih (fun r hr => h r (mem_cons_of_mem _ hr)) s₁ with ⟨s', hload, hrest⟩
    refine ⟨s', ?_, ?_⟩
    · simp only [loadAll, foldlM_cons, hanswer, bind, Except.bind]
      exact hload
    · rw [hrest, hquads, Finset.union_assoc]
      rfl

theorem loadAll_parses (h : loadAll B s requests = .ok s') : ∀ r ∈ requests, r.Parses := by
  induction requests generalizing s with
  | nil => simp
  | cons r rest ih =>
    rw [loadAll, foldlM_cons] at h
    by_cases hr : r.Parses
    · rcases answer_ok (B := B) hr s with ⟨s₁, hanswer, -⟩
      rw [hanswer] at h
      intro r' hr'
      rcases mem_cons.mp hr' with rfl | hr'
      · exact hr
      · exact ih h r' hr'
    · rcases answer_error (B := B) hr s with ⟨e, hanswer⟩
      rw [hanswer] at h
      cases h

theorem addedBy_set {k : Nat} (hk : requests[k]? = some r) (r' : Request) :
    addedBy (requests.set k r') = r'.added ∪ addedBy (requests.eraseIdx k) := by
  induction requests generalizing k with
  | nil => simp at hk
  | cons first rest ih =>
    cases k with
    | zero => rfl
    | succ k =>
      have hrest := ih (by simpa using hk)
      simp only [set_cons_succ, eraseIdx_cons_succ]
      simp only [addedBy, foldr_cons] at hrest ⊢
      rw [hrest, Finset.union_left_comm]

theorem addedBy_eq {k : Nat} (hk : requests[k]? = some r) :
    addedBy requests = r.added ∪ addedBy (requests.eraseIdx k) := by
  have hset := addedBy_set hk r
  rcases List.getElem?_eq_some_iff.mp hk with ⟨hlt, rfl⟩
  rwa [set_getElem_self] at hset

end Added

/-! ## Labels of what a request adds -/

namespace Request

variable {ρ ρ' : BlankNode → BlankNode} {r : Request} {q : Quad}

/-- The labels a graph of the document brings into the store. -/
def ownGraph : Request → GraphName → Finset BlankNode
  | post _ _, _ => ∅
  | _, g => g.labels

/-- The labels of the target graph that a graph of the document brings into the store. -/
def targetGraph : Request → GraphName → Finset BlankNode
  | load target _, g => if g = .defaultGraph then (target.getD .defaultGraph).labels else ∅
  | post target _, _ => target.labels
  | update _ target _, g => if g = .defaultGraph then target.labels else ∅

def ownLabels (r : Request) (q : Quad) : Finset BlankNode :=
  q.subject.labels ∪ q.object.labels ∪ r.ownGraph q.graphName

/-- The labels of the document that come into the store. -/
def own (r : Request) : Finset BlankNode := r.quads.toFinset.biUnion r.ownLabels

/-- The labels that come into the store with the target graph. -/
def given (r : Request) : Finset BlankNode := r.quads.toFinset.biUnion fun q => r.targetGraph q.graphName

/-- A quad of the document as it is stored. -/
def place (r : Request) (q : Quad) : Quad := { q with graphName := r.graphFor q.graphName }

theorem added_eq (r : Request) : r.added = r.quads.toFinset.image r.place := by
  ext q
  simp [added, place]

theorem relabel_eq_default (g : GraphName) : g.relabel ρ = .defaultGraph ↔ g = .defaultGraph := by
  cases g <;> simp [GraphName.relabel]

theorem withDefaultGraph_labels (target g : GraphName) :
    (withDefaultGraph target (g.relabel ρ)).labels =
      g.labels.image ρ ∪ if g = .defaultGraph then target.labels else ∅ := by
  unfold withDefaultGraph
  by_cases hg : g = .defaultGraph
  · subst hg
    simp [GraphName.relabel, GraphName.labels]
  · rw [if_neg (mt (relabel_eq_default g).mp hg), if_neg hg, Finset.union_empty, GraphName.labels_relabel]

theorem graphFor_labels (r : Request) (g : GraphName) :
    (r.graphFor (g.relabel ρ)).labels = (r.ownGraph g).image ρ ∪ r.targetGraph g := by
  cases r with
  | load target doc => exact withDefaultGraph_labels _ g
  | post target doc => simp [graphFor, ownGraph, targetGraph]
  | update source target doc => exact withDefaultGraph_labels _ g

theorem place_labels (r : Request) (q : Quad) :
    (r.place (q.relabel ρ)).labels = (r.ownLabels q).image ρ ∪ r.targetGraph q.graphName := by
  simp only [place, Quad.labels, Quad.relabel, graphFor_labels, Subject.labels_relabel, Term.labels_relabel,
    ownLabels, Finset.image_union, Finset.union_assoc]

theorem quads_relabel (r : Request) : (r.relabel ρ).quads = r.quads.map (Quad.relabel ρ) := by
  have hdoc : (r.relabel ρ).document = r.document.map (Except.map (Quad.relabel ρ)) := by
    cases r <;> rfl
  rw [quads, quads, hdoc, filterMap_map, map_filterMap]
  congr 1
  funext x
  cases x <;> rfl

theorem place_relabel_eq (r : Request) : (r.relabel ρ).place = r.place := by
  cases r <;> rfl

theorem added_relabel (r : Request) :
    (r.relabel ρ).added = r.quads.toFinset.image fun q => r.place (q.relabel ρ) := by
  rw [added_eq, place_relabel_eq, quads_relabel]
  ext q
  simp

theorem relabel_id (r : Request) : (r.relabel id).added = r.added := by
  rw [added_relabel, added_eq]
  congr 1
  funext q
  rw [Quad.relabel_id]

theorem labelsOf_added (r : Request) : labelsOf (r.relabel ρ).added = r.own.image ρ ∪ r.given := by
  rw [added_relabel]
  ext b
  simp only [labelsOf, Finset.mem_biUnion, Finset.mem_image, Finset.mem_union, own, given]
  constructor
  · rintro ⟨_, ⟨q, hq, rfl⟩, hb⟩
    rw [place_labels, Finset.mem_union, Finset.mem_image] at hb
    rcases hb with ⟨a, ha, rfl⟩ | hb
    · exact .inl ⟨a, ⟨q, hq, ha⟩, rfl⟩
    · exact .inr ⟨q, hq, hb⟩
  · rintro (⟨a, ⟨q, hq, ha⟩, rfl⟩ | ⟨q, hq, hb⟩)
    · refine ⟨_, ⟨q, hq, rfl⟩, ?_⟩
      rw [place_labels]
      exact Finset.mem_union_left _ (Finset.mem_image_of_mem ρ ha)
    · refine ⟨_, ⟨q, hq, rfl⟩, ?_⟩
      rw [place_labels]
      exact Finset.mem_union_right _ hb

theorem own_subset (r : Request) : r.own ⊆ r.labels := by
  intro b hb
  rcases Finset.mem_biUnion.mp hb with ⟨q, hq, hb⟩
  refine Finset.mem_biUnion.mpr ⟨q, hq, ?_⟩
  rcases Finset.mem_union.mp hb with hb | hb
  · exact Finset.mem_union_left _ hb
  · cases r with
    | load target doc => exact Finset.mem_union_right _ hb
    | post target doc => cases hb
    | update source target doc => exact Finset.mem_union_right _ hb

theorem place_congr (h : ∀ b ∈ r.ownLabels q, ρ b = ρ' b) : r.place (q.relabel ρ) = r.place (q.relabel ρ') := by
  have hs : q.subject.relabel ρ = q.subject.relabel ρ' :=
    Subject.relabel_congr fun b hb => h b (Finset.mem_union_left _ (Finset.mem_union_left _ hb))
  have ho : q.object.relabel ρ = q.object.relabel ρ' :=
    Term.relabel_congr fun b hb => h b (Finset.mem_union_left _ (Finset.mem_union_right _ hb))
  have hown : ∀ b ∈ r.ownGraph q.graphName, ρ b = ρ' b := fun b hb => h b (Finset.mem_union_right _ hb)
  have hg : r.graphFor (q.graphName.relabel ρ) = r.graphFor (q.graphName.relabel ρ') := by
    cases r with
    | load target doc => exact congrArg _ (GraphName.relabel_congr hown)
    | post target doc => rfl
    | update source target doc => exact congrArg _ (GraphName.relabel_congr hown)
  simp only [place, Quad.relabel, hs, ho, hg]

theorem relabel_of_labels {g : GraphName} (hg : g.labels = ∅) : g.relabel ρ = g := by
  refine (GraphName.relabel_congr fun b hb => ?_).trans g.relabel_id
  rw [hg] at hb
  cases hb

theorem withDefaultGraph_relabel {g : GraphName}
    (htarget : (if g = .defaultGraph then target.labels else ∅) = ∅) :
    withDefaultGraph target (g.relabel ρ) = (withDefaultGraph target g).relabel ρ := by
  unfold withDefaultGraph
  by_cases heq : g = .defaultGraph
  · rw [if_pos heq] at htarget
    rw [if_pos ((relabel_eq_default g).mpr heq), if_pos heq, relabel_of_labels htarget]
  · rw [if_neg (mt (relabel_eq_default g).mp heq), if_neg heq]

theorem place_relabel (hgiven : r.targetGraph q.graphName = ∅) : r.place (q.relabel ρ) =
    (r.place q).relabel ρ := by
  have hg : r.graphFor (q.graphName.relabel ρ) = (r.graphFor q.graphName).relabel ρ := by
    cases r with
    | load target doc => exact withDefaultGraph_relabel hgiven
    | post target doc => exact (relabel_of_labels hgiven).symm
    | update source target doc => exact withDefaultGraph_relabel hgiven
  simp only [place, Quad.relabel, hg]

theorem added_of_own (h : r.own = ∅) : (r.relabel ρ).added = r.added := by
  rw [← r.relabel_id, added_relabel, added_relabel]
  refine Finset.image_congr fun q hq => place_congr fun b hb => ?_
  have hin : b ∈ r.own := Finset.mem_biUnion.mpr ⟨q, hq, hb⟩
  rw [h] at hin
  cases hin

theorem added_of_given {π : BlankNode → BlankNode} (h : r.given = ∅) (hπ : ∀ b ∈ r.own, π b = ρ b) :
    (r.relabel ρ).added = r.added.image (Quad.relabel π) := by
  rw [added_relabel, added_eq, Finset.image_image]
  refine Finset.image_congr fun q hq => ?_
  have htarget : r.targetGraph q.graphName = ∅ := by
    rw [← Finset.subset_empty, ← h]
    exact Finset.subset_biUnion_of_mem (fun q => r.targetGraph q.graphName) hq
  have hown : ∀ b ∈ r.ownLabels q, ρ b = π b := fun b hb => (hπ b (Finset.mem_biUnion.mpr ⟨q, hq, hb⟩)).symm
  rw [place_congr hown, place_relabel htarget]
  rfl

end Request

/-! ## When the documents are merged -/

section Merging

variable {σ : Type} {B : WriteStore σ} {s : σ} {requests : List Request} {k : Nat} {r : Request}
variable {ρ : BlankNode → BlankNode}

/-- The labels beside those of the `k`-th document: of the store, of the other requests
and of the target graph. -/
def outside (B : WriteStore σ) (s : σ) (requests : List Request) (k : Nat) (r : Request) : Finset BlankNode :=
  labelsOf (B.quads s ∪ addedBy (requests.eraseIdx k)) ∪ r.given

/-- No document with blank nodes meets others. -/
def Apart (B : WriteStore σ) (s : σ) (requests : List Request) : Prop :=
  ∀ k r, requests[k]? = some r → r.own = ∅ ∨ outside B s requests k r = ∅

theorem runs_quads (hk : requests[k]? = some r) {s₁ s₂ : σ} (h₁ : loadAll B s requests = .ok s₁)
    (h₂ : loadAll B s (requests.set k (r.relabel ρ)) = .ok s₂) :
    B.quads s₁ = (B.quads s ∪ addedBy (requests.eraseIdx k)) ∪ r.added ∧
      B.quads s₂ = (B.quads s ∪ addedBy (requests.eraseIdx k)) ∪ (r.relabel ρ).added := by
  rcases loadAll_ok (B := B) (loadAll_parses h₁) s with ⟨s₁', h₁', hq₁⟩
  rcases loadAll_ok (B := B) (loadAll_parses h₂) s with ⟨s₂', h₂', hq₂⟩
  rw [h₁] at h₁'
  rw [h₂] at h₂'
  cases h₁'
  cases h₂'
  rw [addedBy_eq hk] at hq₁
  rw [addedBy_set hk] at hq₂
  constructor
  · rw [hq₁, Finset.union_comm r.added, Finset.union_assoc]
  · rw [hq₂, Finset.union_comm (r.relabel ρ).added, Finset.union_assoc]

theorem labels_final (B : WriteStore σ) (s : σ) (requests : List Request) (k : Nat) (r : Request) :
    labelsOf ((B.quads s ∪ addedBy (requests.eraseIdx k)) ∪ (r.relabel ρ).added) =
      r.own.image ρ ∪ outside B s requests k r := by
  rw [labelsOf_union, Request.labelsOf_added, outside, Finset.union_left_comm]

theorem parses_relabel (h : r.Parses) : (r.relabel ρ).Parses := by
  intro e he
  have hdoc : (r.relabel ρ).document = r.document.map (Except.map (Quad.relabel ρ)) := by
    cases r <;> rfl
  rw [hdoc, mem_map] at he
  rcases he with ⟨x, hx, hxe⟩
  cases x with
  | ok q => cases hxe
  | error e' => exact h e' hx

/-- Renaming the blank nodes of a document by a permutation keeps the number of blank nodes
in the final store. -/
theorem Merges.card_eq (h : Merges B s requests) (hparse : ∀ r ∈ requests, r.Parses) (hk : requests[k]? = some r)
    (τ : Equiv.Perm BlankNode) :
    (r.own.image τ ∪ outside B s requests k r).card = (r.own ∪ outside B s requests k r).card := by
  have hset : ∀ r' ∈ requests.set k (r.relabel τ), r'.Parses := by
    intro r' hr'
    rcases mem_or_eq_of_mem_set hr' with hr' | rfl
    · exact hparse r' hr'
    · exact parses_relabel (hparse r (mem_of_getElem? hk))
  rcases loadAll_ok (B := B) hparse s with ⟨s₁, h₁, -⟩
  rcases loadAll_ok (B := B) hset s with ⟨s₂, h₂, -⟩
  rcases h k r hk τ τ.injective.injOn s₁ s₂ h₁ h₂ with ⟨π, hπ⟩
  rcases runs_quads hk h₁ h₂ with ⟨hq₁, hq₂⟩
  have hlabels := congrArg labelsOf hπ
  have hid := labels_final (ρ := id) B s requests k r
  rw [Request.relabel_id, ← hq₁, Finset.image_id] at hid
  rw [labelsOf_relabel, hq₂, labels_final, hid] at hlabels
  rw [hlabels]
  exact Finset.card_image_of_injective _ π.injective

/-- If every renaming merges alike, no request has labels of its own beside names outside. -/
theorem Merges.apart (h : Merges B s requests) (hparse : ∀ r ∈ requests, r.Parses) : Apart B s requests := by
  intro k r hk
  by_contra hboth
  simp only [not_or, ← Finset.nonempty_iff_ne_empty] at hboth
  rcases hboth with ⟨⟨x, hx⟩, y, hy⟩
  by_cases hdisj : Disjoint r.own (outside B s requests k r)
  · -- the label gets the name of one outside
    have hyown : y ∉ r.own := fun hin => Finset.disjoint_left.mp hdisj hin hy
    have hcard := h.card_eq hparse hk (Equiv.swap x y)
    have hsub : r.own.image (Equiv.swap x y) ∪ outside B s requests k r ⊆
        (r.own ∪ outside B s requests k r).erase x := by
      intro b hb
      rw [Finset.mem_erase]
      rcases Finset.mem_union.mp hb with hb | hb
      · rcases Finset.mem_image.mp hb with ⟨a, ha, rfl⟩
        by_cases hax : a = x
        · rw [hax, Equiv.swap_apply_left]
          refine ⟨?_, Finset.mem_union_right _ hy⟩
          rintro rfl
          exact hyown hx
        · have hay : a ≠ y := by
            rintro rfl
            exact hyown ha
          rw [Equiv.swap_apply_of_ne_of_ne hax hay]
          exact ⟨hax, Finset.mem_union_left _ ha⟩
      · refine ⟨?_, Finset.mem_union_right _ hb⟩
        rintro heq
        rw [heq] at hb
        exact Finset.disjoint_left.mp hdisj hx hb
    have hle := Finset.card_le_card hsub
    have hin : x ∈ r.own ∪ outside B s requests k r := Finset.mem_union_left _ hx
    have hpos := Finset.card_pos.mpr ⟨x, hin⟩
    rw [Finset.card_erase_of_mem hin] at hle
    omega
  · -- the shared label gets a fresh name
    rcases Finset.not_disjoint_iff.mp hdisj with ⟨z, hz, hzout⟩
    rcases Infinite.exists_notMem_finset (r.own ∪ outside B s requests k r) with ⟨w, hw⟩
    have hcard := h.card_eq hparse hk (Equiv.swap z w)
    have hsub : insert w (r.own ∪ outside B s requests k r) ⊆
        r.own.image (Equiv.swap z w) ∪ outside B s requests k r := by
      intro b hb
      rcases Finset.mem_insert.mp hb with rfl | hold
      · exact Finset.mem_union_left _ (Finset.mem_image.mpr ⟨z, hz, Equiv.swap_apply_left z b⟩)
      · rcases Finset.mem_union.mp hold with hbown | hbout
        · by_cases hbz : b = z
          · rw [hbz]
            exact Finset.mem_union_right _ hzout
          · have hbw : b ≠ w := by
              intro heq
              rw [heq] at hold
              exact hw hold
            exact Finset.mem_union_left _
              (Finset.mem_image.mpr ⟨b, hbown, Equiv.swap_apply_of_ne_of_ne hbz hbw⟩)
        · exact Finset.mem_union_right _ hbout
    have hle := Finset.card_le_card hsub
    rw [Finset.card_insert_of_notMem hw] at hle
    omega

theorem exists_perm_of_injOn {labels : Finset BlankNode} (h : Set.InjOn ρ labels) :
    ∃ π : Equiv.Perm BlankNode, ∀ b ∈ labels, π b = ρ b := by
  have hinj : Function.Injective fun b : labels => ρ b := by
    intro b b' hb
    exact Subtype.ext (h b.2 b'.2 hb)
  rcases Equiv.Perm.exists_extending_pair (fun b : labels => (b : BlankNode)) (fun b : labels => ρ b)
    Subtype.val_injective hinj with ⟨π, hπ⟩
  exact ⟨π, fun b hb => hπ ⟨b, hb⟩⟩

theorem Apart.merges (h : Apart B s requests) : Merges B s requests := by
  intro k r hk ρ hρ s₁ s₂ h₁ h₂
  rcases runs_quads hk h₁ h₂ with ⟨hq₁, hq₂⟩
  rw [hq₁, hq₂]
  rcases h k r hk with hown | hout
  · -- nothing is renamed
    refine ⟨Equiv.refl _, ?_⟩
    have hid : Quad.relabel (Equiv.refl BlankNode) = id := funext Quad.relabel_id
    rw [Request.added_of_own hown, hid, Finset.image_id]
  · -- every label is one of the document
    rcases Finset.union_eq_empty.mp hout with ⟨hrest, hgiven⟩
    rcases exists_perm_of_injOn (hρ.mono (by exact_mod_cast r.own_subset)) with ⟨π, hπ⟩
    refine ⟨π, ?_⟩
    rw [Finset.image_union, image_relabel_of_empty hrest, Request.added_of_given hgiven hπ]

/-- Documents that parse are merged exactly if no document with blank nodes meets others. -/
theorem merges_iff (B : WriteStore σ) (s : σ) (requests : List Request) :
    Merges B s requests ↔ ((∀ r ∈ requests, r.Parses) → Apart B s requests) := by
  constructor
  · exact fun h hparse => h.apart hparse
  · intro h k r hk ρ hρ s₁ s₂ h₁ h₂
    exact (h (loadAll_parses h₁)).merges k r hk ρ hρ s₁ s₂ h₁ h₂

end Merging

section Samples

/-- The in-memory store; `extend` inserts one quad after another. -/
def memory : WriteStore MemoryStore where
  insert := MemoryStore.insert
  extend m qs := qs.foldl (fun (n, m) q => (if (m.insert q).1 then n + 1 else n, (m.insert q).2)) (0, m)
  registerNamedGraph m g := { m with namedGraphIris := MemoryStore.register m.namedGraphIris g }
  knownNamedGraphs m := m.namedGraphIris.map fun iri => .namedNode ⟨iri⟩
  quads m := m.quads.toFinset
  quads_insert := MemoryStore.toFinset_insert
  quads_extend := by
    intro m qs
    generalize 0 = n
    induction qs generalizing m n with
    | nil => simp
    | cons q qs ih =>
      rw [List.foldl_cons, ih, MemoryStore.toFinset_insert]
      simp only [List.toFinset_cons, Finset.insert_union, Finset.union_insert]
  quads_register _ _ := rfl

/-- A document of one quad, with a blank node of the given label. -/
def labelled (label : String) : Request :=
  .load none [.ok ⟨.blankNode ⟨label⟩, ⟨"http://ex/p"⟩, .namedNode ⟨"http://ex/o"⟩, .defaultGraph⟩]

/-- Both documents say of a blank node of theirs that it has the property; the store holds
one blank node. -/
theorem label_shared : ¬∀ (s : MemoryStore) (requests : List Request), Merges memory s requests := by
  intro hclaim
  have hparse : ∀ r ∈ [labelled "x", labelled "x"], r.Parses := by
    intro r hr e he
    simp only [mem_cons, not_mem_nil, or_false, or_self] at hr
    subst hr
    simp [labelled, Request.document] at he
  rcases (merges_iff memory .new _).mp (hclaim .new _) hparse 0 (labelled "x") rfl with hown | hout
  · exact absurd hown (by decide)
  · exact absurd hout (by decide)

end Samples

end Nova.Server
