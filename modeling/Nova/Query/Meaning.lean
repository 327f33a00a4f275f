import Nova.Memory.Store
import Nova.Query.Bgp
import Mathlib.Algebra.Group.Nat.Units

/-!
# The meaning of a basic graph pattern

A mapping solves a BGP over a selection of graphs when it binds the variables of
the BGP, and no others, and every pattern instantiated by it is a triple of some
selected graph: this is matching over the merge of these graphs, where a blank
node that two graphs share is one node. An evaluation is right when it returns
every such mapping once (`ReturnsOnce`).

`nested_returnsOnce_iff` says exactly when the nested loops are right: no way to
fit the patterns reads past a predicate, and no triple that a solution uses
stands in two of the selected graphs. Over one graph the second condition is
void.
-/

namespace Nova

open Nova.Lib List

/-- Every pattern instantiated by the mapping is a triple of a selected graph. -/
def Solves (S : Finset Quad) (graph : GraphSelector) (patterns : List TriplePattern) (μ : Mapping) :
    Prop :=
  HasDomain μ (bgpVars patterns) ∧ ∀ tp ∈ patterns, ∃ q ∈ selected S graph, tp.Matches μ q

open Classical in
/-- The solutions are the mappings with the property, each once. -/
def ReturnsOnce (sols : List Solution) (P : Mapping → Prop) : Prop :=
  ∀ μ, copies sols μ = if P μ then 1 else 0

/-- Some pattern reads past its predicate. -/
def Misread : List Variable → List TriplePattern → Mapping → Prop
  | _, [], _ => False
  | before, tp :: rest, μ => Bypassed before tp.predicate μ ∨ Misread (before ++ tp.vars) rest μ

/-- Every pattern has a quad that fits it. -/
def FitsAll (S : Finset Quad) (graph : GraphSelector) :
    List Variable → List TriplePattern → Mapping → Prop
  | _, [], _ => True
  | before, tp :: rest, μ =>
    (∃ q ∈ selected S graph, Fits before tp μ q) ∧ FitsAll S graph (before ++ tp.vars) rest μ

/-- No way to fit the patterns to selected quads reads past a predicate: a
predicate variable that an earlier pattern bound is bound to an IRI. -/
def NoMisread (S : Finset Quad) (graph : GraphSelector) (patterns : List TriplePattern) : Prop :=
  ∀ μ, HasDomain μ (bgpVars patterns) → FitsAll S graph [] patterns μ → ¬Misread [] patterns μ

/-- No triple that a solution uses stands in two of the selected graphs. -/
def NoDuplicate (S : Finset Quad) (graph : GraphSelector) (patterns : List TriplePattern) : Prop :=
  ∀ μ, Solves S graph patterns μ → ∀ tp ∈ patterns, ∀ q ∈ selected S graph, ∀ q' ∈ selected S graph,
    tp.Matches μ q → tp.Matches μ q' → q.graphName = q'.graphName

/-! ## The instance of a pattern is one triple -/

variable {μ : Mapping}

theorem NamedNodePattern.Matches.unique {nnp : NamedNodePattern} {t t' : Term}
    (h : nnp.Matches μ t) (h' : nnp.Matches μ t') : t = t' := by
  cases nnp with
  | namedNode n => exact h.trans h'.symm
  | var v => exact Option.some.inj (h.symm.trans h')

theorem TermPattern.Matches.unique : ∀ {tp : TermPattern} {t t' : Term},
    tp.Matches μ t → tp.Matches μ t' → t = t' := by
  intro tp
  induction tp with
  | namedNode n => exact fun h h' => h.trans h'.symm
  | literal l => exact fun h h' => h.trans h'.symm
  | blankNode b => exact fun h h' => Option.some.inj (h.symm.trans h')
  | var v => exact fun h h' => Option.some.inj (h.symm.trans h')
  | triple s p o ihs iho =>
    intro t t' h h'
    cases t with
    | triple s₁ p₁ o₁ =>
      cases t' with
      | triple s₂ p₂ o₂ =>
        rcases h with ⟨hs, hp, ho⟩
        rcases h' with ⟨hs', hp', ho'⟩
        rw [Subject.toTerm_injective (ihs hs hs'), Term.namedNode.inj (hp.unique hp'), iho ho ho']
      | _ => exact h'.elim
    | _ => exact h.elim

variable {tp : TriplePattern}

variable {q : Quad}

theorem TriplePattern.Matches.eq_of_graph {q' : Quad}
    (h : tp.Matches μ q) (h' : tp.Matches μ q') (hg : q.graphName = q'.graphName) : q = q' := by
  rcases h with ⟨hs, hp, ho⟩
  rcases h' with ⟨hs', hp', ho'⟩
  rcases q with ⟨s, p, o, g⟩
  rcases q' with ⟨s', p', o', g'⟩
  have hs := Subject.toTerm_injective (hs.unique hs')
  have hp := Term.namedNode.inj (hp.unique hp')
  have ho := ho.unique ho'
  simp only at hs hp ho hg
  rw [hs, hp, ho, hg]

theorem TriplePattern.Matches.fits (h : tp.Matches μ q) (before : List Variable) : Fits before tp μ q :=
  ⟨h.1, .inl h.2.1, h.2.2⟩

theorem TriplePattern.Matches.not_bypassed
    (h : tp.Matches μ q) (before : List Variable) : ¬Bypassed before tp.predicate μ := by
  intro hb
  rcases hb with ⟨v, t, hv, -, ht, hiri⟩
  have hp := h.2.1
  rw [hv] at hp
  exact hiri _ (Option.some.inj (ht.symm.trans hp))

theorem Fits.matches {before : List Variable}
    (h : Fits before tp μ q) (hno : ¬Bypassed before tp.predicate μ) : tp.Matches μ q :=
  ⟨h.1, h.2.1.resolve_right hno, h.2.2⟩

/-! ## When the nested loops are right -/

section Nested

variable {S : Finset Quad} {graph : GraphSelector} {μ : Mapping}

theorem mem_fitting {before : List Variable} :
    q ∈ fitting S graph before tp μ ↔ q ∈ selected S graph ∧ Fits before tp μ q := by
  classical
  exact Finset.mem_filter

variable {patterns : List TriplePattern}

theorem timesFitted_ne_zero : ∀ {before : List Variable},
    timesFitted S graph before patterns μ ≠ 0 ↔ FitsAll S graph before patterns μ := by
  induction patterns with
  | nil => simp [timesFitted, FitsAll]
  | cons tp rest ih =>
    intro before
    rw [timesFitted, FitsAll, Nat.mul_ne_zero_iff, ih, ← Nat.pos_iff_ne_zero, Finset.card_pos]
    refine and_congr_left fun _ => ?_
    constructor
    · intro h
      rcases h with ⟨q, hq⟩
      exact ⟨q, mem_fitting.mp hq⟩
    · intro h
      rcases h with ⟨q, hq⟩
      exact ⟨q, mem_fitting.mpr hq⟩

theorem not_misread_of_matches : ∀ {before : List Variable},
    (∀ tp ∈ patterns, ∃ q ∈ selected S graph, tp.Matches μ q) → ¬Misread before patterns μ := by
  induction patterns with
  | nil => exact fun _ h => h
  | cons tp rest ih =>
    intro before h hmis
    rcases h tp mem_cons_self with ⟨q, -, hm⟩
    rcases hmis with hb | hrest
    · exact hm.not_bypassed before hb
    · exact ih (fun tp' htp' => h tp' (mem_cons_of_mem _ htp')) hrest

theorem matches_of_fitsAll : ∀ {before : List Variable},
    FitsAll S graph before patterns μ → ¬Misread before patterns μ →
      ∀ tp ∈ patterns, ∃ q ∈ selected S graph, tp.Matches μ q := by
  induction patterns with
  | nil => exact fun _ _ tp htp => by cases htp
  | cons tp rest ih =>
    intro before hfits hmis tp' htp'
    rcases hfits with ⟨⟨q, hq, hf⟩, hrest⟩
    rcases not_or.mp hmis with ⟨hno, hmis'⟩
    rcases mem_cons.mp htp' with rfl | htp'
    · exact ⟨q, hq, hf.matches hno⟩
    · exact ih hrest hmis' tp' htp'

/-- One way to fit means one quad for every pattern, and conversely. -/
theorem timesFitted_eq_one : ∀ {before : List Variable},
    (∀ tp ∈ patterns, ∃ q ∈ selected S graph, tp.Matches μ q) →
      (timesFitted S graph before patterns μ = 1 ↔
        ∀ tp ∈ patterns, ∀ q ∈ selected S graph, ∀ q' ∈ selected S graph,
          tp.Matches μ q → tp.Matches μ q' → q.graphName = q'.graphName) := by
  induction patterns with
  | nil => simp [timesFitted]
  | cons tp rest ih =>
    intro before h
    rcases h tp mem_cons_self with ⟨q₀, hq₀, hm₀⟩
    have hrest : ∀ tp' ∈ rest, ∃ q ∈ selected S graph, tp'.Matches μ q :=
      fun tp' htp' => h tp' (mem_cons_of_mem _ htp')
    have hno := hm₀.not_bypassed before
    have hcard : (fitting S graph before tp μ).card = 1 ↔
        ∀ q ∈ selected S graph, ∀ q' ∈ selected S graph, tp.Matches μ q → tp.Matches μ q' →
          q.graphName = q'.graphName := by
      rw [Finset.card_eq_one]
      constructor
      · intro hone q hq q' hq' hm hm'
        rcases hone with ⟨q₁, hset⟩
        have h₁ : q = q₁ := Finset.mem_singleton.mp (hset ▸ mem_fitting.mpr ⟨hq, hm.fits before⟩)
        have h₂ : q' = q₁ := Finset.mem_singleton.mp (hset ▸ mem_fitting.mpr ⟨hq', hm'.fits before⟩)
        rw [h₁, h₂]
      · intro hsame
        refine ⟨q₀, Finset.eq_singleton_iff_unique_mem.mpr ⟨mem_fitting.mpr ⟨hq₀, hm₀.fits before⟩, ?_⟩⟩
        intro q hq
        rcases mem_fitting.mp hq with ⟨hsel, hf⟩
        have hm := hf.matches hno
        exact hm.eq_of_graph hm₀ (hsame q hsel q₀ hq₀ hm hm₀)
    rw [timesFitted, mul_eq_one, hcard, ih hrest]
    simp only [mem_cons, forall_eq_or_imp]

/-- The nested loops return the solutions over the selected graphs, each once,
exactly when no way to fit the patterns reads past a predicate and no triple that
a solution uses stands in two of the graphs. -/
theorem nested_returnsOnce_iff {st : QuadStore} {Known : Term → Prop} (h : Serves st S Known)
    (patterns : List TriplePattern) (graph : GraphSelector)
    (hquoted : ∀ tp ∈ patterns, tp.isQuoted = true → ∀ t, Askable Known t) :
    ∃ sols, evalBgpNested (storeDataset st) .new patterns graph = .ok sols ∧
      (ReturnsOnce sols (Solves S graph patterns) ↔
        NoMisread S graph patterns ∧ NoDuplicate S graph patterns) := by
  classical
  rcases nested_count h patterns graph hquoted with ⟨sols, hr, hcount⟩
  refine ⟨sols, hr, ?_⟩
  constructor
  · intro honce
    have heq : ∀ μ, HasDomain μ (bgpVars patterns) →
        timesFitted S graph [] patterns μ = if Solves S graph patterns μ then 1 else 0 := by
      intro μ hdom
      have hμ := honce μ
      rw [hcount, if_pos hdom] at hμ
      rw [hμ]
    constructor
    · intro μ hdom hfits
      have hne := timesFitted_ne_zero.mpr hfits
      rw [heq μ hdom] at hne
      have hsolves : Solves S graph patterns μ := by
        by_contra hno
        rw [if_neg hno] at hne
        exact hne rfl
      exact not_misread_of_matches hsolves.2
    · intro μ hsolves
      have hone := heq μ hsolves.1
      rw [if_pos hsolves] at hone
      exact (timesFitted_eq_one hsolves.2).mp hone
  · intro hcond μ
    rcases hcond with ⟨hmis, hdup⟩
    rw [hcount]
    by_cases hdom : HasDomain μ (bgpVars patterns)
    · rw [if_pos hdom]
      by_cases hsolves : Solves S graph patterns μ
      · rw [if_pos hsolves]
        exact (timesFitted_eq_one hsolves.2).mpr (hdup μ hsolves)
      · rw [if_neg hsolves]
        by_contra hne
        have hfits := timesFitted_ne_zero.mp hne
        exact hsolves ⟨hdom, matches_of_fitsAll hfits (hmis μ hdom hfits)⟩
    · have hno : ¬Solves S graph patterns μ := fun hs => hdom hs.1
      rw [if_neg hdom, if_neg hno]

/-! ## One graph -/

/-- A selector of one graph. -/
def GraphSelector.Single (graph : GraphSelector) : Prop :=
  graph = .default ∨ ∃ g, graph = .named g

theorem graphName_of_single {graph : GraphSelector} (hsingle : graph.Single) {q' : Quad}
    (hq : q ∈ selected S graph) (hq' : q' ∈ selected S graph) : q.graphName = q'.graphName := by
  have hg := (Finset.mem_filter.mp hq).2
  have hg' := (Finset.mem_filter.mp hq').2
  rcases hsingle with rfl | ⟨g, rfl⟩
  · simp only [graphMatches, decide_eq_true_eq] at hg hg'
    rw [hg, hg']
  · simp only [graphMatches, decide_eq_true_eq] at hg hg'
    rw [← hg, ← hg']

/-- Over one graph the nested loops return exactly the solutions, each once, if
and only if no way to fit the patterns reads past a predicate. -/
theorem nested_single_iff {st : QuadStore} {Known : Term → Prop} (h : Serves st S Known)
    (patterns : List TriplePattern) {graph : GraphSelector} (hsingle : graph.Single)
    (hquoted : ∀ tp ∈ patterns, tp.isQuoted = true → ∀ t, Askable Known t) :
    ∃ sols, evalBgpNested (storeDataset st) .new patterns graph = .ok sols ∧
      (ReturnsOnce sols (Solves S graph patterns) ↔ NoMisread S graph patterns) := by
  rcases nested_returnsOnce_iff h patterns graph hquoted with ⟨sols, hr, hiff⟩
  refine ⟨sols, hr, hiff.trans (and_iff_left ?_)⟩
  intro μ _ tp _ q hq q' hq' _ _
  exact graphName_of_single hsingle hq hq'

/-- One quad of the default graph with a literal object. -/
def literalStore : MemoryStore :=
  (MemoryStore.new.insert ⟨.namedNode ⟨"http://ex/s"⟩, ⟨"http://ex/p"⟩, .literal (.string "l"),
    .defaultGraph⟩).2

/-- The objects of `p`. -/
def objectsOf : TriplePattern := ⟨.var ⟨"a"⟩, .namedNode ⟨"http://ex/p"⟩, .var ⟨"v"⟩⟩

/-- The triples whose predicate is such an object. -/
def usedAsPredicate : TriplePattern := ⟨.var ⟨"b"⟩, .var ⟨"v"⟩, .var ⟨"c"⟩⟩

/-- An object of `p` that is an IRI, and a triple with this IRI as predicate. -/
def linkStore : MemoryStore where
  quads := [⟨.namedNode ⟨"http://ex/s"⟩, ⟨"http://ex/p"⟩, .namedNode ⟨"http://ex/q"⟩, .defaultGraph⟩,
    ⟨.namedNode ⟨"http://ex/s"⟩, ⟨"http://ex/q"⟩, .literal (.string "l"), .defaultGraph⟩]
  namedGraphIris := []
  nodup := by decide +kernel

/-- The one object of `p` is an IRI: no predicate is read past. -/
theorem noMisread_linkStore : NoMisread linkStore.quads.toFinset .default [objectsOf, usedAsPredicate] := by
  rintro μ _ ⟨⟨q, hq, -, hp, ho⟩, -⟩ hmis
  have hv : μ ⟨"v"⟩ = some q.object := ho
  have hpred : q.predicate = ⟨"http://ex/p"⟩ := by
    rcases hp with hp | ⟨v, t, -, hmem, -⟩
    · exact Term.namedNode.inj hp
    · cases hmem
  have hobject : q.object = .namedNode ⟨"http://ex/q"⟩ := by
    have hmem : q ∈ linkStore.quads := List.mem_toFinset.mp (Finset.mem_filter.mp hq).1
    rcases mem_cons.mp hmem with rfl | hmem
    · rfl
    · rw [mem_singleton.mp hmem] at hpred
      exact absurd hpred (by decide)
  rcases hmis with ⟨v, t, -, hmem, -⟩ | ⟨v, t, hpattern, -, ht, hno⟩ | hnil
  · cases hmem
  · cases hpattern
    rw [hv, hobject] at ht
    exact hno _ (Option.some.inj ht).symm
  · exact hnil

/-- A single pattern has no earlier one that could bind its predicate, and an IRI that an
earlier one binds is not read past. -/
theorem nested_single_iff_objectsOf :
    (∃ sols, evalBgpNested (storeDataset literalStore.quadStore) .new [objectsOf] .default = .ok sols ∧
      ReturnsOnce sols (Solves literalStore.quads.toFinset .default [objectsOf])) ∧
    ∃ sols, evalBgpNested (storeDataset linkStore.quadStore) .new [objectsOf,
      usedAsPredicate] .default = .ok sols ∧
      ReturnsOnce sols (Solves linkStore.quads.toFinset .default [objectsOf, usedAsPredicate]) := by
  constructor
  · rcases nested_single_iff literalStore.serves [objectsOf] (.inl rfl) (fun _ _ _ _ _ => trivial)
      with ⟨sols, hr, hiff⟩
    refine ⟨sols, hr, hiff.mpr ?_⟩
    intro μ _ _ hmis
    rcases hmis with ⟨v, t, -, hmem, -⟩ | hnil
    · cases hmem
    · exact hnil
  · rcases nested_single_iff linkStore.serves [objectsOf, usedAsPredicate] (.inl rfl) (fun _ _ _ _ _ => trivial)
      with ⟨sols, hr, hiff⟩
    exact ⟨sols, hr, hiff.mpr noMisread_linkStore⟩

/-- What the loops return for the two patterns. -/
def literalRow : Solution where
  vars := [⟨"a"⟩, ⟨"v"⟩, ⟨"b"⟩, ⟨"c"⟩]
  values := [some (.namedNode ⟨"http://ex/s"⟩), some (.literal (.string "l")),
    some (.namedNode ⟨"http://ex/s"⟩), some (.literal (.string "l"))]
  length_eq := rfl

/-- A literal as predicate: the scan runs unconstrained and returns a mapping that
is no solution. -/
theorem nested_reads_past_predicate :
    ¬∀ (m : MemoryStore) (patterns : List TriplePattern) (graph : GraphSelector), graph.Single →
      ∃ sols, evalBgpNested (storeDataset m.quadStore) .new patterns graph = .ok sols ∧
        ReturnsOnce sols (Solves m.quads.toFinset graph patterns) := by
  intro hclaim
  rcases hclaim literalStore [objectsOf, usedAsPredicate] .default (.inl rfl) with ⟨sols, hr, honce⟩
  have hrun : evalBgpNested (storeDataset literalStore.quadStore) .new [objectsOf, usedAsPredicate]
      .default = .ok [literalRow] := by decide +kernel
  rw [hrun] at hr
  cases hr
  -- the only row is returned, but it does not solve the second pattern
  have hcount := honce literalRow.get
  rw [copies_singleton] at hcount
  split at hcount
  · next hsolves =>
    rcases hsolves.2 usedAsPredicate (by simp) with ⟨q, -, -, hp, -⟩
    have hv : literalRow.get ⟨"v"⟩ = some (.literal (.string "l")) := by decide
    have hiri : literalRow.get ⟨"v"⟩ = some (.namedNode q.predicate) := hp
    cases hiri
  · cases hcount

end Nested

end Nova
