import Nova.Reasoning.Runs

/-!
# Inferences in the default graph

`ReasoningDataset` runs the engine once and shows what it inferred as quads of the
default graph, beside the quads of the dataset. The engine calls a triple a base
fact if any graph holds it.

* `overlay_returns`: over a compacted store without `owl:sameAs`, a lookup in the
  default graph returns its quads and the derived triples that no graph holds, each
  once.
* `overlay_hides_named`: a derived triple that a named graph holds is not shown.

The terms of an answer are shared with the overlay in the source; here they are
values. Only `find_quads` is modelled: the other calls pass through or are off.
-/

namespace Nova.Reasoning

open Nova Nova.Lib Nova.Lib.SemiNaive List

structure ReasoningDataset where
  inner : Dataset
  inferred : List Triple
  diagnostics : List Diagnostic
  sameAs : SameAsTracker

/-- One position of `inferred_matches`. -/
def accepts : PatternTerm → Term → Bool
  | .wildcard, _ => true
  | .bound v, t => v = t

namespace ReasoningDataset

def wrap (fuel : Nat) (inner : Dataset) : Except InferError ReasoningDataset := do
  let (quads, diagnostics) ← infer fuel inner
  let sameAs ← buildSameAsTracker inner
  return { inner, inferred := quads.map tripleOf, diagnostics, sameAs }

def inferredMatches (rd : ReasoningDataset) (pattern : QuadPattern) : List QuadMatch :=
  let widen := pattern.graph = .default ∨ pattern.graph = .union
  rd.inferred.filterMap fun t =>
    if widen then
      if accepts pattern.subject t.subject && accepts pattern.predicate t.predicate &&
          accepts pattern.object t.object then
        some ⟨t.subject, t.predicate, t.object, .defaultGraph⟩
      else none
    else none

/-- The members of the class of a bound term. -/
def candidates (rd : ReasoningDataset) : PatternTerm → List PatternTerm
  | .bound t => (rd.sameAs.classMembers t).map .bound
  | .wildcard => [.wildcard]

def candidatePatterns (rd : ReasoningDataset) (pattern : QuadPattern) : List QuadPattern :=
  if rd.sameAs.isEmpty then [pattern]
  else
    (rd.candidates pattern.subject).flatMap fun s =>
      (rd.candidates pattern.object).map fun o => { pattern with subject := s, object := o }

/-- The terms that a position of a match is expanded to: the class, where the
pattern left it open. -/
def expansions (rd : ReasoningDataset) (position : PatternTerm) (t : Term) : List Term :=
  match position with
  | .wildcard => rd.sameAs.classMembers t
  | .bound _ => [t]

def expandMatch (rd : ReasoningDataset) (pattern : QuadPattern) (m : QuadMatch) : List QuadMatch :=
  if rd.sameAs.isEmpty then [m]
  else
    (rd.expansions pattern.subject m.subject).flatMap fun s =>
      (rd.expansions pattern.object m.object).map fun o => { m with subject := s, object := o }

def findQuads (rd : ReasoningDataset) (pattern : QuadPattern) : Except Fault (List QuadMatch) :=
  if rd.sameAs.isEmpty then do
    let base ← rd.inner.findQuads pattern
    return base ++ rd.inferredMatches pattern
  else do
    let found ← (rd.candidatePatterns pattern).mapM fun candidate => do
      let base ← rd.inner.findQuads candidate
      return (base ++ rd.inferredMatches candidate).flatMap (rd.expandMatch pattern)
    -- a match is shown once
    return firsts found.flatten

end ReasoningDataset

/-- The match has the bound terms of the pattern. -/
def Accepts (pattern : QuadPattern) (m : QuadMatch) : Prop :=
  accepts pattern.subject m.subject = true ∧ accepts pattern.predicate m.predicate = true ∧
    accepts pattern.object m.object = true

theorem accepts_iff {pt : PatternTerm} {t : Term} : accepts pt t = true ↔ ∀ v, pt = .bound v → t = v := by
  cases pt with
  | wildcard => simp [accepts]
  | bound v => simp [accepts, eq_comm]

theorem found_injective : Function.Injective Quad.found := by
  intro q q' h
  apply Quad.stored_injective
  simp only [Quad.found, QuadMatch.mk.injEq] at h
  rcases h with ⟨hs, hp, ho, hg⟩
  simp only [Quad.stored, hs, hp, ho, hg]

variable {pattern : QuadPattern}

theorem findMatches_iff
    (hpred : ∀ t, pattern.predicate = .bound t → ∃ node, t = .namedNode node) {q : Quad} :
    FindMatches pattern q ↔ Accepts pattern q.found := by
  unfold FindMatches Accepts
  rw [accepts_iff, accepts_iff, accepts_iff]
  refine and_congr Iff.rfl (and_congr ?_ Iff.rfl)
  constructor
  · intro hnode t ht
    rcases hpred t ht with ⟨node, rfl⟩
    exact congrArg Term.namedNode (hnode node ht)
  · exact fun hterm node hnode => Term.namedNode.inj (hterm _ hnode)

variable {rd : ReasoningDataset}

theorem mem_inferredMatches_iff {m : QuadMatch} :
    m ∈ rd.inferredMatches pattern ↔ (pattern.graph = .default ∨ pattern.graph = .union) ∧ Accepts pattern m ∧
      ⟨m.subject, m.predicate, m.object⟩ ∈ rd.inferred ∧ m.graphName = .defaultGraph := by
  unfold ReasoningDataset.inferredMatches
  by_cases hwiden : pattern.graph = .default ∨ pattern.graph = .union
  · simp only [mem_filterMap, hwiden, if_true, true_and]
    constructor
    · rintro ⟨t, ht, hm⟩
      split at hm
      · next hacc =>
        cases hm
        simp only [Bool.and_eq_true, and_assoc] at hacc
        exact ⟨hacc, ht, rfl⟩
      · cases hm
    · rintro ⟨⟨hs, hp, ho⟩, ht, hg⟩
      refine ⟨_, ht, ?_⟩
      rw [if_pos (by simp [hs, hp, ho]), ← hg]
  · simp [hwiden]

theorem mem_inferredMatches (hgraph : pattern.graph = .default)
    {m : QuadMatch} : m ∈ rd.inferredMatches pattern ↔
      ⟨m.subject, m.predicate, m.object⟩ ∈ rd.inferred ∧ m.graphName = .defaultGraph ∧ Accepts pattern m := by
  rw [mem_inferredMatches_iff, hgraph, and_iff_right (Or.inl rfl), and_comm, and_assoc]

theorem nodup_inferredMatches (h : rd.inferred.Nodup) : (rd.inferredMatches pattern).Nodup := by
  refine h.filterMap ?_
  -- a match determines its triple
  have hsame : ∀ {t : Triple} {m : QuadMatch} {c : Prop} [Decidable c] {b : Bool},
      m ∈ (if c then if b = true then some (⟨t.subject, t.predicate, t.object, .defaultGraph⟩ : QuadMatch)
        else none else none) → t = ⟨m.subject, m.predicate, m.object⟩ := by
    intro t m c _ b hm
    split at hm
    · split at hm
      · cases hm
        rfl
      · cases hm
    · cases hm
  intro t t' m hm hm'
  exact (hsame hm).trans (hsame hm').symm

section Wrap

variable {ds : Dataset} {num : Numbering} {live : Finset Quad} {compacted : Finset Row}
  (h : Backs ds num live compacted)

include h

/-- The pairs of the tracker are the `owl:sameAs` quads. -/
theorem buildSameAsTracker_returns : ∃ pairs, buildSameAsTracker ds = .ok (.build pairs) ∧
    ∀ x y, (x, y) ∈ pairs ↔ ∃ q ∈ live, q.predicate = owlSameAs ∧ q.subject.toTerm = x ∧ q.object = y := by
  rcases findEdges h owlSameAs with ⟨qs, hqs, hmem⟩
  refine ⟨(qs.map Quad.found).map fun m => (m.subject, m.object), ?_, fun x y => ?_⟩
  · simp only [buildSameAsTracker, hqs, ofStore, Except.mapError, ok_bind]
    rfl
  · rw [map_map, mem_map]
    constructor
    · rintro ⟨q, hq, heq⟩
      have hq := (hmem q).mp hq
      exact ⟨q, hq.1, hq.2, congrArg Prod.fst heq, congrArg Prod.snd heq⟩
    · rintro ⟨q, hq, hp, rfl, rfl⟩
      exact ⟨q, (hmem q).mpr ⟨hq, hp⟩, rfl⟩

/-- The overlay of a dataset whose two views agree: classes and inferences. -/
theorem wrap_builds (hagree : Concordant (merge live) (stored num compacted)) :
    ∃ rd pairs, Lib.Returns (fun fuel => ReasoningDataset.wrap fuel ds) rd ∧ rd.inner = ds ∧
      rd.sameAs = .build pairs ∧
      (∀ x y, (x, y) ∈ pairs ↔ ∃ q ∈ live, q.predicate = owlSameAs ∧ q.subject.toTerm = x ∧ q.object = y) ∧
      rd.inferred.Nodup ∧
      ∀ t, t ∈ rd.inferred ↔ (∃ q, tripleOf q = t) ∧ Derived Entails (merge live) t ∧ t ∉ merge live := by
  rcases infer_returns h hagree with ⟨quads, diagnostics, hret, hnodup, hmem⟩
  rcases buildSameAsTracker_returns h with ⟨pairs, hbuild, hpairs⟩
  refine ⟨⟨ds, quads.map tripleOf, diagnostics, .build pairs⟩, pairs, ?_, rfl, rfl, hpairs, ?_, ?_⟩
  · rcases hret with ⟨k, hk⟩
    refine ⟨k, fun fuel hfuel => ?_⟩
    simp only [ReasoningDataset.wrap, hk fuel hfuel, hbuild, ok_bind]
    rfl
  · -- the quads differ in their triples, for they share the graph
    refine hnodup.map_on ?_
    intro q hq q' hq' heq
    have hquad := quadOf_eq_some.mpr ⟨heq, ((hmem q).mp hq).1⟩
    rw [quadOf_eq_some.mpr ⟨rfl, ((hmem q').mp hq').1⟩] at hquad
    exact (Option.some.inj hquad).symm
  · intro t
    rw [mem_map]
    constructor
    · rintro ⟨q, hq, rfl⟩
      exact ⟨⟨q, rfl⟩, ((hmem q).mp hq).2⟩
    · rintro ⟨⟨q, rfl⟩, hd⟩
      exact ⟨{ q with graphName := .defaultGraph }, (hmem _).mpr ⟨rfl, hd⟩, rfl⟩

/-- Without `owl:sameAs` there are no classes. -/
theorem wrap_returns (hagree : Concordant (merge live) (stored num compacted))
    (hsame : ∀ q ∈ live, q.predicate ≠ owlSameAs) :
    ∃ rd, Lib.Returns (fun fuel => ReasoningDataset.wrap fuel ds) rd ∧ rd.inner = ds ∧
      rd.sameAs.isEmpty = true ∧ rd.inferred.Nodup ∧
      ∀ t, t ∈ rd.inferred ↔ (∃ q, tripleOf q = t) ∧ Derived Entails (merge live) t ∧ t ∉ merge live := by
  rcases wrap_builds h hagree with ⟨rd, pairs, hret, hinner, hbuild, hpairs, hnodup, hmem⟩
  have hnil : pairs = [] := by
    apply eq_nil_iff_forall_not_mem.mpr
    rintro ⟨x, y⟩ hxy
    rcases (hpairs x y).mp hxy with ⟨q, hq, hp, -⟩
    exact hsame q hq hp
  refine ⟨rd, hret, hinner, ?_, hnodup, hmem⟩
  rw [hbuild, hnil]
  rfl

end Wrap

/-! ## Lookups over a compacted store -/

/-- What a lookup in the default graph shows: its quads, and the derived triples that no
graph holds. -/
def Shown {D : Type} (A : DictApi D) (s : LoudsStore D) (m : QuadMatch) : Prop :=
  m.graphName = .defaultGraph ∧
    (⟨m.subject, m.predicate, m.object, m.graphName⟩ ∈ LoudsStore.LiveSet A s ∨
      (∃ q, tripleOf q = ⟨m.subject, m.predicate, m.object⟩) ∧
      Derived Entails (liveTriples A s) ⟨m.subject, m.predicate, m.object⟩ ∧
      ⟨m.subject, m.predicate, m.object⟩ ∉ liveTriples A s)

section Compacted

variable {D : Type} {A : DictApi D} {Knows : D → Names → Prop} {CompactOk : Names → Prop} {n : Names}
  {s : LoudsStore D} (shapes : GraphRing → PhysicalShape → Option (List (List Nat)))
  (I : Implements A Knows CompactOk) (h : LoudsStore.Inv Knows n s)

include I h

/-- Without pending writes the rings hold what is live. -/
theorem compacted_concordant (hempty : s.delta.isEmpty = true) {S : Finset Quad}
    (hS : ∀ q, q ∈ S ↔ LoudsStore.Live n s q) : Concordant (merge S) (stored (numbering n) (compactedRows s)) := by
  rw [← compactedTriples_eq I h, compactedTriples_of_isEmpty I h hempty, liveTriples_eq I h hS]
  exact concordant_of_subset (fun t ht => ht) fun t ht => .inl ht

/-- What the engine infers over a compacted store, seen through the overlay. -/
theorem compacted_overlay (hle : Names.empty.Le n) (hempty : s.delta.isEmpty = true)
    (hsame : ∀ t ∈ liveTriples A s, t.predicate ≠ .namedNode owlSameAs) :
    ∃ rd, Lib.Returns
        (fun fuel => ReasoningDataset.wrap fuel (storeDataset (LoudsStore.quadStore A shapes s))) rd ∧
      ∀ pattern : QuadPattern, pattern.graph = .default →
        (∀ t, pattern.predicate = .bound t → ∃ node, t = .namedNode node) →
        (∀ t, pattern.subject = .bound t ∨ pattern.object = .bound t → ∃ id, A.getId s.dict t = .ok id) →
        ∃ ms, rd.findQuads pattern = .ok ms ∧ ms.Nodup ∧ ∀ m, m ∈ ms ↔ Accepts pattern m ∧ Shown A s m := by
  rcases LoudsStore.exists_liveSet I h with ⟨S, hS⟩
  have hlive := liveTriples_eq I h hS
  have hagree := compacted_concordant I h hempty hS
  have hbacks : Backs (storeDataset (LoudsStore.quadStore A shapes s)) (numbering n) S (compactedRows s) :=
    louds_backs I h (Names.graph_of_le hle rfl) hS
  rw [hlive] at hsame
  rcases wrap_returns hbacks hagree fun q hq heq => hsame _ ⟨q, hq, rfl⟩ (congrArg _ heq) with
    ⟨rd, hret, hinner, hempty, hnodup, hinferred⟩
  refine ⟨rd, hret, fun pattern hgraph hpred hask => ?_⟩
  have haskable : ∀ t, pattern.subject = .bound t ∨ pattern.object = .bound t →
      Askable (LoudsStore.Known n) t := by
    intro t ht
    rcases hask t ht with ⟨id, hid⟩
    exact LoudsStore.askable_of_getId I h hid
  rcases findQuads_spec (LoudsStore.serves shapes I h hS) pattern (fun t ht => haskable t (.inl ht))
    fun t ht => haskable t (.inr ht) with ⟨qs, hbase, hqs, hmem⟩
  have hquads : ∀ q, q ∈ qs ↔ LoudsStore.Live n s q ∧ q.graphName = .defaultGraph ∧ Accepts pattern q.found := by
    intro q
    rw [hmem, findMatches_iff hpred, selected, Finset.mem_filter, hS, hgraph, graphMatches,
      decide_eq_true_eq, and_assoc]
  refine ⟨qs.map Quad.found ++ rd.inferredMatches pattern, ?_, ?_, ?_⟩
  · rw [ReasoningDataset.findQuads, if_pos hempty, hinner, hbase]
    rfl
  · rw [nodup_append]
    refine ⟨hqs.map found_injective, nodup_inferredMatches hnodup, ?_⟩
    -- an inferred triple is no live one
    rintro _ hm _ hm' rfl
    rcases mem_map.mp hm with ⟨q, hq, rfl⟩
    exact ((hinferred _).mp ((mem_inferredMatches hgraph).mp hm').1).2.2
      ⟨q, (hS q).mpr ((hquads q).mp hq).1, rfl⟩
  · intro m
    rw [mem_append, mem_inferredMatches hgraph, hinferred, mem_map, Shown, hlive,
      LoudsStore.liveSet_eq I h]
    constructor
    · rintro (⟨q, hq, rfl⟩ | ⟨hd, hg, hacc⟩)
      · rcases (hquads q).mp hq with ⟨hl, hg, hacc⟩
        exact ⟨hacc, hg, .inl ⟨q, hl, rfl⟩⟩
      · exact ⟨hacc, hg, .inr hd⟩
    · rintro ⟨hacc, hg, ⟨q, hl, heq⟩ | hd⟩
      · have hfound : q.found = m := by
          simp only [Quad.stored, StoredQuad.mk.injEq] at heq
          rcases heq with ⟨hs, hp, ho, hg⟩
          simp only [Quad.found, hs, hp, ho, hg]
        refine .inl ⟨q, (hquads q).mpr ⟨hl, ?_, hfound ▸ hacc⟩, hfound⟩
        rw [← hg, ← hfound]
        rfl
      · exact .inr ⟨hd, hg, hacc⟩

end Compacted

section Source

open LoudsStore Dictionary DictCompact

variable {bs : Nat}

/-- Over a compacted store without `owl:sameAs`, a lookup in the default graph
returns its quads and the derived triples that no graph holds, each once. -/
theorem overlay_returns (hbs : 0 < bs) (threshold : Option Nat)
    (shapes : GraphRing → PhysicalShape → Option (List (List Nat))) {events : List Event}
    (h : Machine.Meets (step (api bs)) (DictOk bs) (openNew bs threshold) events)
    {s : LoudsStore Dictionary} (hs : (Machine.run (step (api bs)) (openNew bs threshold) events).2 = s)
    (hempty : s.delta.isEmpty = true)
    (hsame : ∀ t ∈ liveTriples (api bs) s, t.predicate ≠ .namedNode owlSameAs) :
    ∃ rd, Returns (fun fuel => ReasoningDataset.wrap fuel (storeDataset (quadStore (api bs) shapes s))) rd ∧
      ∀ pattern : QuadPattern, pattern.graph = .default →
        (∀ t, pattern.predicate = .bound t → ∃ node, t = .namedNode node) →
        (∀ t, pattern.subject = .bound t ∨ pattern.object = .bound t → ∃ id, (api bs).getId s.dict t = .ok id) →
        ∃ ms, rd.findQuads pattern = .ok ms ∧ ms.Nodup ∧
          ∀ m, m ∈ ms ↔ Accepts pattern m ∧ Shown (api bs) s m := by
  rcases reached_inv hbs threshold h with ⟨n, hle, hinv⟩
  rw [hs] at hinv
  exact compacted_overlay shapes (implements hbs) hinv hle hempty hsame

/-- The overlay of a sample state. -/
def sampleWrap (events : List Event) (fuel : Nat) : Except InferError ReasoningDataset :=
  ReasoningDataset.wrap fuel
    (storeDataset (quadStore (api sourceBlockSize) (fun _ _ => none) (sampleState events)))

/-- The lookup of everything in the default graph. -/
def anyPattern : QuadPattern := ⟨.wildcard, .wildcard, .wildcard, .default⟩

/-- The quads of a domain declaration and an edge, and the type of the edge's subject,
are all found in the default graph. -/
theorem overlay_returns_domain :
    ∃ rd ms, Returns (sampleWrap [.call (.insert domainQuad), .call (.insert edgeQuad), .call .compact]) rd ∧
      rd.findQuads anyPattern = .ok ms ∧ edgeQuad.found ∈ ms ∧ typeQuad.found ∈ ms := by
  have hmeets : Machine.Meets (step (api sourceBlockSize)) (fun s e =>
      (stepCompactsAt (api sourceBlockSize) s e).all (fitsBlock sourceBlockSize) = true)
      (openNew sourceBlockSize none)
      [.call (.insert domainQuad), .call (.insert edgeQuad), .call .compact] := by
    decide +kernel
  have hread : readAll (api sourceBlockSize)
      (sampleState [.call (.insert domainQuad), .call (.insert edgeQuad), .call .compact]) =
        some ([domainQuad, edgeQuad].map Quad.stored) := by
    decide +kernel
  have hlive := liveTriples_of_readAll hread
  have hset := liveSet_of_readAll hread
  rcases overlay_returns (by decide) none (fun _ _ => none) (hmeets.imp fun s e he => dictOk_of_fitsBlock he)
    (s := sampleState _) rfl (by decide +kernel)
    (by rw [hlive]; rintro t ⟨q, hq, rfl⟩; revert q; decide) with ⟨rd, hret, hfind⟩
  rcases hfind anyPattern rfl (fun t ht => by cases ht) (fun t ht => by rcases ht with ht | ht <;> cases ht) with
    ⟨ms, hms, _, hmem⟩
  refine ⟨rd, ms, hret, hms, (hmem _).mpr ⟨⟨rfl, rfl, rfl⟩, rfl, .inl ?_⟩,
    (hmem _).mpr ⟨⟨rfl, rfl, rfl⟩, rfl, .inr ⟨⟨typeQuad, rfl⟩, ?_, ?_⟩⟩⟩
  · rw [hset]
    decide
  · rw [hlive]
    exact derived_type ⟨domainQuad, by decide, rfl⟩ ⟨edgeQuad, by decide, rfl⟩
  · rw [hlive]
    rintro ⟨q, hq, heq⟩
    revert q
    decide

/-- The type, asserted in a named graph. -/
def namedType : Quad := { typeQuad with graphName := .namedNode ⟨"http://ex/g"⟩ }

def namedTypeEvents : List Event :=
  [.call (.insert domainQuad), .call (.insert edgeQuad), .call (.insert namedType), .call .compact]

/-- A derived triple is missing from the default graph, because a named graph holds it. -/
theorem overlay_hides_named :
    ¬∀ (events : List Event) (pattern : QuadPattern), (sampleState events).delta.isEmpty = true →
      (∀ t ∈ liveTriples (api sourceBlockSize) (sampleState events), t.predicate ≠ .namedNode owlSameAs) →
      pattern.graph = .default →
      ∃ rd ms, Returns (sampleWrap events) rd ∧ rd.findQuads pattern = .ok ms ∧ ms.Nodup ∧
        ∀ m, m ∈ ms ↔ Accepts pattern m ∧ m.graphName = .defaultGraph ∧
          (⟨m.subject, m.predicate, m.object, m.graphName⟩ ∈
              LiveSet (api sourceBlockSize) (sampleState events) ∨
            (∃ q, tripleOf q = ⟨m.subject, m.predicate, m.object⟩) ∧
            Derived Entails (liveTriples (api sourceBlockSize) (sampleState events))
              ⟨m.subject, m.predicate, m.object⟩) := by
  intro hclaim
  have hmeets : Machine.Meets (step (api sourceBlockSize)) (fun s e =>
      (stepCompactsAt (api sourceBlockSize) s e).all (fitsBlock sourceBlockSize) = true)
      (openNew sourceBlockSize none) namedTypeEvents := by
    decide +kernel
  have hread : readAll (api sourceBlockSize) (sampleState namedTypeEvents) =
      some ([domainQuad, edgeQuad, namedType].map Quad.stored) := by
    decide +kernel
  have hlive := liveTriples_of_readAll hread
  have hset := liveSet_of_readAll hread
  have hempty : (sampleState namedTypeEvents).delta.isEmpty = true := by decide +kernel
  have hsame : ∀ t ∈ liveTriples (api sourceBlockSize) (sampleState namedTypeEvents),
      t.predicate ≠ .namedNode owlSameAs := by
    rw [hlive]
    rintro t ⟨q, hq, rfl⟩
    revert q
    decide
  rcases hclaim _ anyPattern hempty hsame rfl with ⟨rd, ms, hret, hms, _, hmem⟩
  have hin : typeQuad.found ∈ ms := by
    refine (hmem _).mpr ⟨⟨rfl, rfl, rfl⟩, rfl, .inr ⟨⟨typeQuad, rfl⟩, ?_⟩⟩
    rw [hlive]
    exact derived_type ⟨domainQuad, by decide, rfl⟩ ⟨edgeQuad, by decide, rfl⟩
  -- what the overlay shows
  rcases reached_inv (by decide) none (hmeets.imp fun s e he => dictOk_of_fitsBlock he) with ⟨n, hle, hinv⟩
  rcases compacted_overlay (fun _ _ => none) (implements (by decide)) hinv hle hempty hsame with
    ⟨rd', hret', hfind⟩
  rcases hfind anyPattern rfl (fun t ht => by cases ht) (fun t ht => by rcases ht with ht | ht <;> cases ht) with
    ⟨ms', hms', _, hmem'⟩
  rw [← hret.unique hret', hms] at hms'
  cases hms'
  rcases ((hmem' _).mp hin).2.2 with hbase | ⟨_, _, hnot⟩
  · have hnone : typeQuad.stored ∈ LiveSet (api sourceBlockSize) (sampleState namedTypeEvents) := hbase
    rw [hset] at hnone
    revert hnone
    decide
  · apply hnot
    show tripleOf typeQuad ∈ liveTriples (api sourceBlockSize) (sampleState namedTypeEvents)
    rw [hlive]
    exact ⟨namedType, by decide, rfl⟩

end Source

end Nova.Reasoning
