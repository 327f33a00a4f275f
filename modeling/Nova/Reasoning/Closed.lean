import Nova.Memory.Store
import Nova.Reasoning.Classes
import Nova.Reasoning.Overlay

/-!
# Lookups up to equal terms

With `owl:sameAs` pairs the overlay stands for its quads closed under equal subjects and
objects (`Closure`). A lookup asks for every member of the class of a bound term and widens
the open positions of what it meets.

* `mem_findQuads`: what is returned: a quad that was met, with its open positions replaced by
  equal terms;
* `closed_returns_iff`: this is the closure just when every quad that is met has the very
  terms that were asked for, since a bound position keeps the term it was found with;
* `overlay_closes`: so it is with the overlay of every compacted state of a store, whose pairs
  are its `owl:sameAs` quads.
-/

namespace Nova.Reasoning

open Nova Nova.Lib Nova.Lib.SemiNaive List

/-- The pairs make two terms equal. -/
abbrev Equal (pairs : List (Term × Term)) : Term → Term → Prop := Relation.EqvGen fun x y => (x, y) ∈ pairs

/-- The quads that a selector shows: those of the dataset, and in the default graph what was
inferred. -/
def Visible (S : Finset Quad) (inferred : List Triple) (graph : GraphSelector) (m : QuadMatch) : Prop :=
  (∃ q ∈ selected S graph, q.found = m) ∨
    (graph = .default ∨ graph = .union) ∧ ⟨m.subject, m.predicate, m.object⟩ ∈ inferred ∧
      m.graphName = .defaultGraph

/-- The visible quads, with subjects and objects replaced by equal terms. -/
def Closure (pairs : List (Term × Term)) (S : Finset Quad) (inferred : List Triple) (graph : GraphSelector)
    (m : QuadMatch) : Prop :=
  ∃ m', Visible S inferred graph m' ∧ Equal pairs m'.subject m.subject ∧ Equal pairs m'.object m.object ∧
    m'.predicate = m.predicate ∧ m'.graphName = m.graphName

/-- A lookup returns the closed dataset's quads with the bound terms, each once. -/
def ReasoningDataset.AnswersClosed (rd : ReasoningDataset) (pairs : List (Term × Term)) (S : Finset Quad)
    (pattern : QuadPattern) : Prop :=
  ∃ ms, rd.findQuads pattern = .ok ms ∧ ms.Nodup ∧
    ∀ m, m ∈ ms ↔ Accepts pattern m ∧ Closure pairs S rd.inferred pattern.graph m

/-- The term is equal to what the position is bound to. -/
def Near (pairs : List (Term × Term)) (position : PatternTerm) (t : Term) : Prop :=
  ∀ v, position = .bound v → Equal pairs v t

/-- A visible quad with the pattern's predicate. The store reads a bound predicate that is no
IRI as open. -/
def Named (S : Finset Quad) (inferred : List Triple) (pattern : QuadPattern) (m : QuadMatch) : Prop :=
  (∃ q ∈ selected S pattern.graph, q.found = m ∧ ∀ n, pattern.predicate = .bound (.namedNode n) →
    q.predicate = n) ∨
    (pattern.graph = .default ∨ pattern.graph = .union) ∧ accepts pattern.predicate m.predicate = true ∧
      ⟨m.subject, m.predicate, m.object⟩ ∈ inferred ∧ m.graphName = .defaultGraph

/-- A visible quad that fits the pattern up to equal subjects and objects. -/
def Met (pairs : List (Term × Term)) (S : Finset Quad) (inferred : List Triple) (pattern : QuadPattern)
    (m : QuadMatch) : Prop :=
  Near pairs pattern.subject m.subject ∧ Near pairs pattern.object m.object ∧ Named S inferred pattern m

/-- What fits the pattern up to equal terms is stored under the very terms of the pattern; and
where no terms are equal, the overlay shows no quad twice and none that the dataset has. -/
structure StoredAsAsked (rd : ReasoningDataset) (pairs : List (Term × Term)) (S : Finset Quad)
    (pattern : QuadPattern) : Prop where
  stored : ∀ m, Met pairs S rd.inferred pattern m → Accepts pattern m
  once : pairs = [] → (rd.inferredMatches pattern).Nodup ∧
    ∀ q ∈ selected S pattern.graph, q.found ∉ rd.inferredMatches pattern

/-! ## What a lookup meets -/

section Lookup

variable {pairs : List (Term × Term)} {rd : ReasoningDataset} {pattern : QuadPattern} {m : QuadMatch}

variable {position : PatternTerm}

theorem mem_candidates {candidate : PatternTerm} (h : rd.sameAs = .build pairs) :
    candidate ∈ rd.candidates position ↔
      (position = .wildcard ∧ candidate = .wildcard) ∨
        ∃ v u, position = .bound v ∧ candidate = .bound u ∧ Equal pairs v u := by
  unfold ReasoningDataset.candidates
  cases position with
  | wildcard => simp
  | bound v =>
    rw [mem_map, h]
    constructor
    · rintro ⟨u, hu, rfl⟩
      exact Or.inr ⟨v, u, rfl, rfl, (SameAsTracker.mem_classMembers pairs v u).mp hu⟩
    · rintro (⟨hw, -⟩ | ⟨v', u, hv, rfl, heq⟩)
      · cases hw
      · cases hv
        exact ⟨u, (SameAsTracker.mem_classMembers pairs v u).mpr heq, rfl⟩

theorem exists_candidate_accepts {t : Term} (h : rd.sameAs = .build pairs) :
    (∃ candidate ∈ rd.candidates position, accepts candidate t = true) ↔ Near pairs position t := by
  constructor
  · rintro ⟨candidate, hc, hacc⟩ v hv
    rcases (mem_candidates h).mp hc with ⟨hw, -⟩ | ⟨v', u, hv', rfl, heq⟩
    · rw [hw] at hv
      cases hv
    · rw [hv] at hv'
      cases hv'
      rwa [accepts_iff.mp hacc u rfl]
  · intro hnear
    cases hpos : position with
    | wildcard => exact ⟨.wildcard, (mem_candidates h).mpr (Or.inl ⟨rfl, rfl⟩), rfl⟩
    | bound v =>
      exact ⟨.bound t, (mem_candidates h).mpr (Or.inr ⟨v, t, rfl, rfl, hnear v hpos⟩),
        accepts_iff.mpr fun u hu => by
        cases hu
        rfl⟩

/-- An open position takes every equal term, a bound one keeps its own. -/
def Widened (pairs : List (Term × Term)) (position : PatternTerm) (t u : Term) : Prop :=
  if position = .wildcard then Equal pairs t u else u = t

theorem mem_expansions {t u : Term} (h : rd.sameAs = .build pairs) :
    u ∈ rd.expansions position t ↔ Widened pairs position t u := by
  cases position with
  | wildcard =>
    show u ∈ rd.sameAs.classMembers t ↔ _
    rw [h, SameAsTracker.mem_classMembers]
    rfl
  | bound v => exact mem_singleton

theorem mem_expandMatch (h : rd.sameAs = .build pairs) (hne : pairs ≠ []) {m' : QuadMatch} :
    m ∈ rd.expandMatch pattern m' ↔ Widened pairs pattern.subject m'.subject m.subject ∧
      Widened pairs pattern.object m'.object m.object ∧ m'.predicate = m.predicate ∧
        m'.graphName = m.graphName := by
  have hfull : ¬rd.sameAs.isEmpty = true := by
    rw [h, SameAsTracker.build_isEmpty_iff]
    exact hne
  rw [ReasoningDataset.expandMatch, if_neg hfull, mem_flatMap]
  constructor
  · rintro ⟨s, hs, hm⟩
    obtain ⟨o, ho, rfl⟩ := mem_map.mp hm
    exact ⟨(mem_expansions h).mp hs, (mem_expansions h).mp ho, rfl, rfl⟩
  · rintro ⟨hs, ho, hp, hg⟩
    refine ⟨m.subject, (mem_expansions h).mpr hs, mem_map.mpr ⟨m.object, (mem_expansions h).mpr ho, ?_⟩⟩
    rw [hp, hg]

theorem widened_refl (pairs : List (Term × Term)) (position : PatternTerm) (t : Term) :
    Widened pairs position t t := by
  unfold Widened
  split
  · exact .refl t
  · rfl

theorem widened_nil {t u : Term} : Widened [] position t u ↔ u = t := by
  unfold Widened
  split
  · constructor
    · intro hgen
      rcases eqvGen_cases (s := ∅) nofun hgen with heq | ⟨hx, -⟩
      · exact heq.symm
      · exact absurd hx (Set.notMem_empty t)
    · rintro rfl
      exact .refl _
  · exact Iff.rfl

theorem Widened.equal {t u : Term} (h : Widened pairs position t u) : Equal pairs t u := by
  unfold Widened at h
  split at h
  · exact h
  · rw [h]
    exact .refl t

end Lookup

/-! ## What a lookup returns -/

section Answers

variable {st : QuadStore} {S : Finset Quad} {Known : Term → Prop} {rd : ReasoningDataset}
  {pairs : List (Term × Term)} {pattern : QuadPattern}

/-- Every term that a lookup asks the store for may be looked up. -/
def AskableClasses (Known : Term → Prop) (pairs : List (Term × Term)) (pattern : QuadPattern) : Prop :=
  ∀ t, pattern.subject = .bound t ∨ pattern.object = .bound t → ∀ u, Equal pairs t u → Askable Known u

theorem findCandidate (h : Serves st S Known) (hinner : rd.inner = storeDataset st)
    (hsame : rd.sameAs = .build pairs)
    (hask : AskableClasses Known pairs pattern) {s o : PatternTerm} (hs : s ∈ rd.candidates pattern.subject)
    (ho : o ∈ rd.candidates pattern.object) :
    ∃ qs : List Quad, rd.inner.findQuads { pattern with subject := s, object := o } = .ok (qs.map Quad.found) ∧
      qs.Nodup ∧ ∀ q, q ∈ qs ↔ q ∈ selected S pattern.graph ∧ accepts s q.subject.toTerm = true ∧
        accepts o q.object = true ∧ ∀ n, pattern.predicate = .bound (.namedNode n) → q.predicate = n := by
  have hknown : ∀ {position candidate : PatternTerm} {t : Term}, candidate ∈ rd.candidates position →
      (∀ v, position = .bound v → pattern.subject = .bound v ∨ pattern.object = .bound v) →
      candidate = .bound t → Askable Known t := by
    intro position candidate t hc hpos ht
    rcases (mem_candidates hsame).mp hc with ⟨-, hw⟩ | ⟨v, u, hv, hu, heq⟩
    · rw [hw] at ht
      cases ht
    · rw [hu] at ht
      cases ht
      exact hask v (hpos v hv) t heq
  rw [hinner]
  obtain ⟨qs, hqs, hnodup, hmem⟩ := findQuads_spec h { pattern with subject := s, object := o }
    (fun t ht => hknown hs (fun v hv => Or.inl hv) ht) fun t ht => hknown ho (fun v hv => Or.inr hv) ht
  refine ⟨qs, hqs, hnodup, fun q => (hmem q).trans (and_congr_right fun _ => ?_)⟩
  rw [accepts_iff, accepts_iff]
  exact and_congr_right fun _ => and_comm

theorem self_mem_candidates (hsame : rd.sameAs = .build pairs) (position : PatternTerm) :
    position ∈ rd.candidates position := by
  rw [mem_candidates hsame]
  cases position with
  | wildcard => exact Or.inl ⟨rfl, rfl⟩
  | bound v => exact Or.inr ⟨v, v, rfl, rfl, .refl v⟩

theorem mem_candidate_found {s o : PatternTerm} {qs : List Quad}
    (hqs : ∀ q, q ∈ qs ↔ q ∈ selected S pattern.graph ∧ accepts s q.subject.toTerm = true ∧
      accepts o q.object = true ∧ ∀ n, pattern.predicate = .bound (.namedNode n) → q.predicate = n)
        (m : QuadMatch) :
    m ∈ qs.map Quad.found ++ rd.inferredMatches { pattern with subject := s, object := o } ↔
      accepts s m.subject = true ∧ accepts o m.object = true ∧ Named S rd.inferred pattern m := by
  rw [mem_append, mem_map, mem_inferredMatches_iff]
  constructor
  · rintro (⟨q, hq, rfl⟩ | ⟨hwiden, ⟨hs, hp, ho⟩, hin, hg⟩)
    · obtain ⟨hsel, hs, ho, hp⟩ := (hqs q).mp hq
      exact ⟨hs, ho, Or.inl ⟨q, hsel, rfl, hp⟩⟩
    · exact ⟨hs, ho, Or.inr ⟨hwiden, hp, hin, hg⟩⟩
  · rintro ⟨hs, ho, ⟨q, hsel, rfl, hp⟩ | ⟨hwiden, hp, hin, hg⟩⟩
    · exact Or.inl ⟨q, (hqs q).mpr ⟨hsel, hs, ho, hp⟩, rfl⟩
    · exact Or.inr ⟨hwiden, ⟨hs, hp, ho⟩, hin, hg⟩

section

variable (h : Serves st S Known) (hinner : rd.inner = storeDataset st)
include h hinner

/-- Without pairs a lookup shows the store's quads and the overlay's. -/
theorem findQuads_nil (hsame : rd.sameAs = .build []) (hask : AskableClasses Known [] pattern) :
    ∃ qs : List Quad, rd.findQuads pattern = .ok (qs.map Quad.found ++ rd.inferredMatches pattern) ∧ qs.Nodup ∧
      ∀ q, q ∈ qs ↔ q ∈ selected S pattern.graph ∧ accepts pattern.subject q.subject.toTerm = true ∧
        accepts pattern.object q.object = true ∧ ∀ n, pattern.predicate = .bound (.namedNode n) →
          q.predicate = n := by
  obtain ⟨qs, hqs, hnodup, hmem⟩ := findCandidate h hinner hsame hask (self_mem_candidates hsame pattern.subject)
    (self_mem_candidates hsame pattern.object)
  refine ⟨qs, ?_, hnodup, hmem⟩
  have hempty : rd.sameAs.isEmpty = true := by
    rw [hsame]
    rfl
  have hbase : rd.inner.findQuads pattern = .ok (qs.map Quad.found) := hqs
  rw [ReasoningDataset.findQuads, if_pos hempty, hbase]
  rfl

/-- With pairs it shows what every candidate finds, widened, each once. -/
theorem findQuads_cons (hsame : rd.sameAs = .build pairs)
    (hask : AskableClasses Known pairs pattern) (hne : pairs ≠ []) :
    ∃ ms, rd.findQuads pattern = .ok (firsts ms) ∧
      ∀ m, m ∈ ms ↔ ∃ s ∈ rd.candidates pattern.subject, ∃ o ∈ rd.candidates pattern.object, ∃ m',
        (accepts s m'.subject = true ∧ accepts o m'.object = true ∧ Named S rd.inferred pattern m') ∧
          m ∈ rd.expandMatch pattern m' := by
  have hfull : ¬rd.sameAs.isEmpty = true := by
    rw [hsame, SameAsTracker.build_isEmpty_iff]
    exact hne
  let run : QuadPattern → Except Fault (List QuadMatch) := fun candidate => do
    let base ← rd.inner.findQuads candidate
    return (base ++ rd.inferredMatches candidate).flatMap (rd.expandMatch pattern)
  have hpatterns : ∀ candidate, candidate ∈ rd.candidatePatterns pattern ↔
      ∃ s ∈ rd.candidates pattern.subject, ∃ o ∈ rd.candidates pattern.object,
        candidate = { pattern with subject := s, object := o } := by
    intro candidate
    rw [ReasoningDataset.candidatePatterns, if_neg hfull, mem_flatMap]
    simp only [mem_map, eq_comm]
  -- each candidate has its answer
  have hrun : ∀ s ∈ rd.candidates pattern.subject, ∀ o ∈ rd.candidates pattern.object,
      ∃ found, run { pattern with subject := s, object := o } = .ok found ∧ ∀ m, m ∈ found ↔ ∃ m',
        (accepts s m'.subject = true ∧ accepts o m'.object = true ∧ Named S rd.inferred pattern m') ∧
          m ∈ rd.expandMatch pattern m' := by
    intro s hs o ho
    obtain ⟨qs, hqs, -, hmem⟩ := findCandidate h hinner hsame hask hs ho
    refine ⟨(qs.map Quad.found ++ rd.inferredMatches { pattern with subject := s, object := o }).flatMap
      (rd.expandMatch pattern), ?_, fun m => ?_⟩
    · simp only [run, hqs]
      rfl
    · rw [mem_flatMap]
      exact exists_congr fun m' => and_congr_left fun _ => mem_candidate_found hmem m'
  obtain ⟨out, hout⟩ := exists_mapM_ok_of_mem (f := run) (l := rd.candidatePatterns pattern) (by
    intro candidate hc
    obtain ⟨s, hs, o, ho, rfl⟩ := (hpatterns candidate).mp hc
    obtain ⟨found, hfound, -⟩ := hrun s hs o ho
    exact ⟨found, hfound⟩)
  obtain ⟨hin, hfrom⟩ := mapM_ok_inv hout
  refine ⟨out.flatten, ?_, fun m => ?_⟩
  · rw [ReasoningDataset.findQuads, if_neg hfull]
    have hfound : (rd.candidatePatterns pattern).mapM run >>= (fun found => .ok (firsts found.flatten)) =
        .ok (firsts out.flatten) := by
      rw [hout]
      rfl
    exact hfound
  · rw [mem_flatten]
    constructor
    · rintro ⟨found, hf, hm⟩
      obtain ⟨candidate, hc, hcand⟩ := hfrom found hf
      obtain ⟨s, hs, o, ho, rfl⟩ := (hpatterns candidate).mp hc
      obtain ⟨found', hfound', hmem⟩ := hrun s hs o ho
      rw [hfound'] at hcand
      cases hcand
      exact ⟨s, hs, o, ho, (hmem m).mp hm⟩
    · rintro ⟨s, hs, o, ho, hm⟩
      obtain ⟨found, hf, hcand⟩ := hin _ ((hpatterns _).mpr ⟨s, hs, o, ho, rfl⟩)
      obtain ⟨found', hfound', hmem⟩ := hrun s hs o ho
      rw [hfound'] at hcand
      cases hcand
      exact ⟨found, hf, (hmem m).mpr hm⟩

/-- A lookup returns what it met, with equal terms in the open positions, and without
repetition where terms are equal. -/
theorem mem_findQuads (hsame : rd.sameAs = .build pairs) (hask : AskableClasses Known pairs pattern) :
    ∃ ms, rd.findQuads pattern = .ok ms ∧
      (ms.Nodup ↔ (pairs = [] → (rd.inferredMatches pattern).Nodup ∧
        ∀ q ∈ selected S pattern.graph, q.found ∉ rd.inferredMatches pattern)) ∧
      ∀ m, m ∈ ms ↔ ∃ m', Met pairs S rd.inferred pattern m' ∧ Widened pairs pattern.subject m'.subject m.subject ∧
        Widened pairs pattern.object m'.object m.object ∧ m'.predicate = m.predicate ∧
          m'.graphName = m.graphName := by
  by_cases hne : pairs = []
  · subst hne
    obtain ⟨qs, hfind, hnodup, hqs⟩ := findQuads_nil h hinner hsame hask
    refine ⟨_, hfind, ?_, fun m => ?_⟩
    · rw [nodup_append]
      constructor
      · rintro ⟨-, hinf, hdis⟩ -
        refine ⟨hinf, fun q hsel hq => hdis _ (mem_map_of_mem ((hqs q).mpr ⟨hsel, ?_⟩)) _ hq rfl⟩
        -- what the overlay shows has the terms of the pattern
        obtain ⟨-, ⟨hs, hp, ho⟩, -⟩ := mem_inferredMatches_iff.mp hq
        exact ⟨hs, ho, fun n hn => Term.namedNode.inj (accepts_iff.mp hp _ hn)⟩
      · intro honce
        refine ⟨hnodup.map found_injective, (honce rfl).1, ?_⟩
        rintro _ hm _ hm' rfl
        obtain ⟨q, hq, rfl⟩ := mem_map.mp hm
        exact (honce rfl).2 q ((hqs q).mp hq).1 hm'
    · have hnear : ∀ {position : PatternTerm} {t : Term}, Near [] position t ↔ accepts position t = true := by
        intro position t
        rw [accepts_iff]
        refine forall_congr' fun v => imp_congr_right fun _ => ?_
        have halone : Widened [] .wildcard v t ↔ t = v := widened_nil
        rwa [Widened, if_pos rfl] at halone
      have hsame' : ∀ m', (Widened [] pattern.subject m'.subject m.subject ∧
        Widened [] pattern.object m'.object m.object ∧
          m'.predicate = m.predicate ∧ m'.graphName = m.graphName) ↔ m' = m := by
        intro m'
        rw [widened_nil, widened_nil]
        constructor
        · rintro ⟨hs, ho, hp, hg⟩
          cases m'
          cases m
          simp_all
        · rintro rfl
          exact ⟨rfl, rfl, rfl, rfl⟩
      simp only [hsame', exists_eq_right, Met, hnear]
      exact mem_candidate_found hqs m
  · obtain ⟨ms, hfind, hmem⟩ := findQuads_cons h hinner hsame hask hne
    refine ⟨_, hfind, ⟨fun _ hnil => absurd hnil hne, fun _ => nodup_firsts ms⟩, fun m => ?_⟩
    rw [mem_firsts, hmem]
    constructor
    · rintro ⟨s, hs, o, ho, m', ⟨hacc, hacc', hnamed⟩, hm⟩
      refine ⟨m', ⟨?_, ?_, hnamed⟩, (mem_expandMatch hsame hne).mp hm⟩
      · exact (exists_candidate_accepts hsame).mp ⟨s, hs, hacc⟩
      · exact (exists_candidate_accepts hsame).mp ⟨o, ho, hacc'⟩
    · rintro ⟨m', ⟨hs, ho, hnamed⟩, hm⟩
      obtain ⟨s, hs, hacc⟩ := (exists_candidate_accepts hsame).mpr hs
      obtain ⟨o, ho, hacc'⟩ := (exists_candidate_accepts hsame).mpr ho
      exact ⟨s, hs, o, ho, m', ⟨hacc, hacc', hnamed⟩, (mem_expandMatch hsame hne).mpr hm⟩

end

theorem Named.visible {m : QuadMatch} (h : Named S rd.inferred pattern m) :
    Visible S rd.inferred pattern.graph m := by
  rcases h with ⟨q, hsel, hq, -⟩ | ⟨hwiden, -, hin, hg⟩
  · exact Or.inl ⟨q, hsel, hq⟩
  · exact Or.inr ⟨hwiden, hin, hg⟩

theorem Visible.named {m : QuadMatch} (h : Visible S rd.inferred pattern.graph m)
    (hp : accepts pattern.predicate m.predicate = true) : Named S rd.inferred pattern m := by
  rcases h with ⟨q, hsel, rfl⟩ | ⟨hwiden, hin, hg⟩
  · exact Or.inl ⟨q, hsel, rfl, fun n hn => Term.namedNode.inj (accepts_iff.mp hp _ hn)⟩
  · exact Or.inr ⟨hwiden, hp, hin, hg⟩

/-- What was met, widened, is the closure just when it has the terms that were asked for. -/
theorem widened_met_iff :
    (∀ m, (∃ m', Met pairs S rd.inferred pattern m' ∧ Widened pairs pattern.subject m'.subject m.subject ∧
        Widened pairs pattern.object m'.object m.object ∧ m'.predicate = m.predicate ∧
          m'.graphName = m.graphName) ↔
      Accepts pattern m ∧ Closure pairs S rd.inferred pattern.graph m) ↔
    ∀ m, Met pairs S rd.inferred pattern m → Accepts pattern m := by
  constructor
  · -- what is met is among them as it is
    exact fun hall m hm => ((hall m).mp ⟨m, hm, widened_refl _ _ _, widened_refl _ _ _, rfl, rfl⟩).1
  · intro hstored m
    constructor
    · rintro ⟨m', hmet, hs, ho, hp, hg⟩
      obtain ⟨hacc, hacc', hacc''⟩ := hstored m' hmet
      have hkeeps : ∀ {position : PatternTerm} {t u : Term}, Widened pairs position t u →
        accepts position t = true →
          accepts position u = true := by
        intro position t u hw ht
        cases position with
        | wildcard => rfl
        | bound v => rwa [show u = t from hw]
      exact ⟨⟨hkeeps hs hacc, hp ▸ hacc', hkeeps ho hacc''⟩, m', hmet.2.2.visible, hs.equal, ho.equal, hp, hg⟩
    · rintro ⟨⟨hacc, hacc', hacc''⟩, m', hvis, hs, ho, hp, hg⟩
      have hnear : ∀ {position : PatternTerm} {t u : Term}, accepts position u = true → Equal pairs t u →
          Near pairs position t := by
        intro position t u hu heq v hv
        rw [← accepts_iff.mp hu v hv]
        exact heq.symm
      have hmet : Met pairs S rd.inferred pattern m' :=
        ⟨hnear hacc hs, hnear hacc'' ho, hvis.named (by rwa [hp])⟩
      obtain ⟨hkept, -, hkept'⟩ := hstored m' hmet
      -- in a bound position both have the asked term
      have hwiden : ∀ {position : PatternTerm} {t u : Term}, accepts position t = true →
        accepts position u = true →
          Equal pairs t u → Widened pairs position t u := by
        intro position t u ht hu heq
        cases hpos : position with
        | wildcard => exact heq
        | bound v => exact (accepts_iff.mp hu v hpos).trans (accepts_iff.mp ht v hpos).symm
      exact ⟨m', hmet, hwiden hkept hacc hs, hwiden hkept' hacc'' ho, hp, hg⟩

/-- The answer is the closure if it repeats nothing and what is met has the asked terms. -/
theorem answersClosed_iff {ms : List QuadMatch} (hfind : rd.findQuads pattern = .ok ms)
    (hmem : ∀ m, m ∈ ms ↔ ∃ m', Met pairs S rd.inferred pattern m' ∧
      Widened pairs pattern.subject m'.subject m.subject ∧ Widened pairs pattern.object m'.object m.object ∧
        m'.predicate = m.predicate ∧ m'.graphName = m.graphName) :
    rd.AnswersClosed pairs S pattern ↔ ms.Nodup ∧ ∀ m, Met pairs S rd.inferred pattern m → Accepts pattern m := by
  rw [← widened_met_iff]
  simp only [ReasoningDataset.AnswersClosed, hfind, Except.ok.injEq, exists_eq_left', hmem]

/-- A lookup returns the closure just when what it meets has the terms that were asked for. -/
theorem closed_returns_iff (h : Serves st S Known) (hinner : rd.inner = storeDataset st)
    (hsame : rd.sameAs = .build pairs) (hask : AskableClasses Known pairs pattern) :
    rd.AnswersClosed pairs S pattern ↔ StoredAsAsked rd pairs S pattern := by
  obtain ⟨ms, hfind, hnodup, hmem⟩ := mem_findQuads h hinner hsame hask
  rw [answersClosed_iff hfind hmem, hnodup]
  exact ⟨fun hboth => ⟨hboth.2, hboth.1⟩, fun hcond => ⟨hcond.once, hcond.stored⟩⟩

/-- The overlay of a dataset whose two views agree repeats nothing. -/
theorem wrap_closes {num : Numbering} {compacted : Finset Row} (h : Serves st S Known)
    (hbacks : Backs (storeDataset st) num S compacted) (hagree : Concordant (merge S) (stored num compacted)) :
    ∃ rd pairs, Returns (fun fuel => ReasoningDataset.wrap fuel (storeDataset st)) rd ∧
      (∀ x y, (x, y) ∈ pairs ↔ ∃ q ∈ S, q.predicate = owlSameAs ∧ q.subject.toTerm = x ∧ q.object = y) ∧
      (∀ t, t ∈ rd.inferred ↔ (∃ q, tripleOf q = t) ∧ Derived Entails (merge S) t ∧ t ∉ merge S) ∧
      ∀ pattern, AskableClasses Known pairs pattern →
        (rd.AnswersClosed pairs S pattern ↔ ∀ m, Met pairs S rd.inferred pattern m → Accepts pattern m) := by
  obtain ⟨rd, pairs, hret, hinner, hbuild, hpairs, hnodup, hinferred⟩ := wrap_builds hbacks hagree
  refine ⟨rd, pairs, hret, hpairs, hinferred, fun pattern hask => ?_⟩
  have hfresh : (rd.inferredMatches pattern).Nodup ∧
      ∀ q ∈ selected S pattern.graph, q.found ∉ rd.inferredMatches pattern := by
    refine ⟨nodup_inferredMatches hnodup, fun q hsel hq => ?_⟩
    -- an inferred triple is none of the dataset's
    obtain ⟨-, -, hin, -⟩ := mem_inferredMatches_iff.mp hq
    exact ((hinferred _).mp hin).2.2 ⟨q, (Finset.mem_filter.mp hsel).1, rfl⟩
  obtain ⟨ms, hfind, hnodup', hmem⟩ := mem_findQuads h hinner hbuild hask
  rw [answersClosed_iff hfind hmem, hnodup']
  exact and_iff_right fun _ => hfresh

end Answers

/-! ## The sample of the source's tests -/

def alice : Term := .namedNode ⟨"http://ex/alice"⟩
def bob : Term := .namedNode ⟨"http://ex/bob"⟩
def carol : Term := .namedNode ⟨"http://ex/carol"⟩

/-- Alice is Bob, and knows Carol. -/
def knowsStore : MemoryStore where
  quads := [⟨.namedNode ⟨"http://ex/alice"⟩, owlSameAs, bob, .defaultGraph⟩,
    ⟨.namedNode ⟨"http://ex/alice"⟩, ⟨"http://ex/knows"⟩, carol, .defaultGraph⟩]
  namedGraphIris := []
  nodup := by decide +kernel

def knowsOverlay : ReasoningDataset :=
  ⟨storeDataset knowsStore.quadStore, [], [], .build [(alice, bob)]⟩

/-- Who knows Carol? Alice and Bob. -/
theorem closed_returns_knows :
    knowsOverlay.AnswersClosed [(alice, bob)] knowsStore.quads.toFinset
      ⟨.wildcard, .bound (.namedNode ⟨"http://ex/knows"⟩), .bound carol, .default⟩ := by
  refine (closed_returns_iff (MemoryStore.serves knowsStore) rfl rfl fun _ _ _ _ _ => trivial).mpr
    ⟨fun m hm => ⟨rfl, ?_, ?_⟩, fun hnil => by cases hnil⟩
  all_goals rcases hm.2.2 with ⟨q, -, rfl, hp⟩ | ⟨-, -, hin, -⟩
  · exact accepts_iff.mpr fun v hv => by
      rw [← PatternTerm.bound.inj hv]
      exact congrArg Term.namedNode (hp _ rfl)
  · cases hin
  · -- Carol is alone in her class
    refine accepts_iff.mpr fun v hv => ?_
    rcases eqvGen_cases (s := {alice, bob}) (fun x y hxy => by simp_all) (hm.2.1 v hv) with heq | ⟨hv', -⟩
    · exact heq.symm
    · rw [← PatternTerm.bound.inj hv] at hv'
      revert hv'
      simp [carol, alice, bob]
  · cases hin

/-- Whom does Bob know? The answer names Alice. -/
theorem asked_member_not_returned :
    knowsOverlay.findQuads ⟨.bound bob, .bound (.namedNode ⟨"http://ex/knows"⟩), .wildcard, .default⟩ =
        .ok [⟨alice, .namedNode ⟨"http://ex/knows"⟩, carol, .defaultGraph⟩] ∧
      ¬knowsOverlay.AnswersClosed [(alice, bob)] knowsStore.quads.toFinset
        ⟨.bound bob, .bound (.namedNode ⟨"http://ex/knows"⟩), .wildcard, .default⟩ := by
  have hfind : knowsOverlay.findQuads ⟨.bound bob, .bound (.namedNode ⟨"http://ex/knows"⟩), .wildcard, .default⟩ =
      .ok [⟨alice, .namedNode ⟨"http://ex/knows"⟩, carol, .defaultGraph⟩] := by
    decide +kernel
  refine ⟨hfind, ?_⟩
  rintro ⟨ms, hms, -, hmem⟩
  cases hms
  have hacc := ((hmem _).mp mem_cons_self).1.1
  revert hacc
  decide +kernel

/-! ## The overlay of a compacted store -/

open LoudsStore Dictionary DictCompact

/-- The classes are those of the stored `owl:sameAs` quads, and what is added are the
consequences that are not stored. A lookup returns the closure of both just when every quad
that it meets has the very terms that were asked for. -/
theorem overlay_closes {bs : Nat} (hbs : 0 < bs) (threshold : Option Nat)
    (shapes : GraphRing → PhysicalShape → Option (List (List Nat))) {events : List Event}
    (h : Machine.Meets (step (api bs)) (DictOk bs) (openNew bs threshold) events)
    {s : LoudsStore Dictionary} (hs : (Machine.run (step (api bs)) (openNew bs threshold) events).2 = s)
    (hempty : s.delta.isEmpty = true) :
    ∃ (S : Finset Quad) (rd : ReasoningDataset) (pairs : List (Term × Term)),
      (∀ q, q ∈ S ↔ q.stored ∈ LiveSet (api bs) s) ∧
      Returns (fun fuel => ReasoningDataset.wrap fuel (storeDataset (quadStore (api bs) shapes s))) rd ∧
      (∀ x y, (x, y) ∈ pairs ↔ ∃ q ∈ S, q.predicate = owlSameAs ∧ q.subject.toTerm = x ∧ q.object = y) ∧
      (∀ t, t ∈ rd.inferred ↔ (∃ q, tripleOf q = t) ∧ Derived Entails (merge S) t ∧ t ∉ merge S) ∧
      ∀ pattern : QuadPattern,
        (∀ t, pattern.subject = .bound t ∨ pattern.object = .bound t → ∀ u, Equal pairs t u →
          ∃ id, (api bs).getId s.dict u = .ok id) →
        (rd.AnswersClosed pairs S pattern ↔ ∀ m, Met pairs S rd.inferred pattern m → Accepts pattern m) := by
  have I := implements hbs
  rcases reached_inv hbs threshold h with ⟨n, hle, hinv⟩
  rw [hs] at hinv
  rcases exists_liveSet I hinv with ⟨S, hS⟩
  rcases wrap_closes (serves shapes I hinv hS) (louds_backs I hinv (Names.graph_of_le hle rfl) hS)
    (compacted_concordant I hinv hempty hS) with ⟨rd, pairs, hret, hpairs, hinferred, hanswers⟩
  refine ⟨S, rd, pairs, fun q => ?_, hret, hpairs, hinferred, fun pattern hask => ?_⟩
  · rw [hS, liveSet_eq I hinv, Quad.stored_injective.mem_set_image]
    rfl
  · refine hanswers pattern fun t ht u heq => ?_
    rcases hask t ht u heq with ⟨id, hid⟩
    exact askable_of_getId I hinv hid

def knowsEvents : List Event := (knowsStore.quads.map fun q => .call (.insert q)) ++ [.call .compact]

/-- After a compaction all that is known of Alice is known of Bob. -/
theorem overlay_closes_knows :
    ∃ rd ms, Returns (sampleWrap knowsEvents) rd ∧
      rd.findQuads anyPattern = .ok ms ∧ ⟨bob, .namedNode ⟨"http://ex/knows"⟩, carol, .defaultGraph⟩ ∈ ms := by
  have hmeets : Machine.Meets (step (api sourceBlockSize)) (fun s e =>
      (stepCompactsAt (api sourceBlockSize) s e).all (fitsBlock sourceBlockSize) = true)
      (openNew sourceBlockSize none) knowsEvents := by
    decide +kernel
  have hread : readAll (api sourceBlockSize) (sampleState knowsEvents) =
      some (knowsStore.quads.map Quad.stored) := by
    decide +kernel
  rcases overlay_closes (by decide) none (fun _ _ => none) (hmeets.imp fun s e he => dictOk_of_fitsBlock he)
    (s := sampleState _) rfl (by decide +kernel) with ⟨S, rd, pairs, hS, hret, hpairs, -, hanswers⟩
  have hmem : ∀ q ∈ knowsStore.quads, q ∈ S := by
    intro q hq
    rw [hS, liveSet_of_readAll hread]
    exact mem_map_of_mem hq
  rcases (hanswers anyPattern fun t ht => by rcases ht with
    ht | ht <;> cases ht).mpr fun _ _ => ⟨rfl, rfl, rfl⟩ with
    ⟨ms, hfind, -, hms⟩
  refine ⟨rd, ms, hret, hfind, (hms _).mpr ⟨⟨rfl, rfl, rfl⟩, _, .inl ⟨knowsStore.quads[1], ?_, rfl⟩,
    .rel _ _ ?_, .refl _, rfl, rfl⟩⟩
  · exact Finset.mem_filter.mpr ⟨hmem _ (mem_cons_of_mem _ mem_cons_self), rfl⟩
  · exact (hpairs alice bob).mpr ⟨_, hmem _ mem_cons_self, rfl, rfl, rfl⟩

end Nova.Reasoning
