import Nova.Reasoning.Store

/-!
# Inference along a run

What `infer` returns in a state of the store that some run reaches. The seed is read
from the live quads, the other premises of a rule from the rings. A triple that is
pending, or removed but still in a ring, is known to one side only.

* `infer_live`: in every state reached in which no rule instance has such a triple
  as a premise, `infer` returns what the rules derive from the live triples and is
  not live. `infer_misses_pending_keeps_removed` has runs that end in other states.
* `seed_suffices`: without pending writes the seed of `infer` misses no consequence;
  for other rules and seeds, `closure_over_store` is exact if the join has no trap.
-/

namespace Nova.Reasoning

open Nova Nova.Lib Nova.Lib.SemiNaive List

variable {D : Type} {A : DictApi D} {Knows : D → Names → Prop} {CompactOk : Names → Prop} {n : Names}
  {s : LoudsStore D}

/-- The triples that a reader finds, in any graph. -/
def liveTriples (A : DictApi D) (s : LoudsStore D) : Set Triple :=
  {t | ∃ sq ∈ LoudsStore.LiveSet A s, t = ⟨sq.subject, sq.predicate, sq.object⟩}

/-- The triples of the rings: what a reader would find if no write were pending. -/
def compactedTriples (A : DictApi D) (s : LoudsStore D) : Set Triple :=
  liveTriples A { s with delta := .new }

theorem liveTriples_eq (I : Implements A Knows CompactOk) (h : LoudsStore.Inv Knows n s) {S : Finset Quad}
    (hS : ∀ q, q ∈ S ↔ LoudsStore.Live n s q) : liveTriples A s = merge S := by
  ext t
  simp only [liveTriples, LoudsStore.liveSet_eq I h, merge, Set.mem_image, Set.mem_ofPred_eq]
  constructor
  · rintro ⟨_, ⟨q, hq, rfl⟩, rfl⟩
    exact ⟨q, (hS q).mpr hq, rfl⟩
  · rintro ⟨q, hq, rfl⟩
    exact ⟨_, ⟨q, (hS q).mp hq, rfl⟩, rfl⟩

theorem inv_settled (h : LoudsStore.Inv Knows n s) : LoudsStore.Inv Knows n { s with delta := .new } where
  knows := h.knows
  rows := h.rows
  keys := by
    intro k b hk
    cases hk

theorem live_settled (h : LoudsStore.Inv Knows n s) {q : Quad} :
    LoudsStore.Live n { s with delta := .new } q ↔
      ∃ g sId pId oId, n.quadIds q = some (g, sId, pId, oId) ∧ s.ringContains g sId pId oId = true := by
  have hinv := inv_settled h
  have hbase : ∀ {g sId pId oId}, packQuad g sId pId oId ∈ (LoudsStore.view { s with delta := .new }).live ↔
      s.ringContains g sId pId oId = true := by
    intro g sId pId oId
    rw [hinv.live_iff]
    simp [LoudsStore.ringContains]
  constructor
  · rintro ⟨k, hk, hlive⟩
    rcases Names.keyOf_eq_some.mp hk with ⟨g, sId, pId, oId, hids, rfl⟩
    exact ⟨g, sId, pId, oId, hids, hbase.mp hlive⟩
  · rintro ⟨g, sId, pId, oId, hids, hin⟩
    exact ⟨_, Names.keyOf_eq_some.mpr ⟨g, sId, pId, oId, hids, rfl⟩, hbase.mpr hin⟩

theorem ringContains_iff {g : GraphId} {sId pId oId : TermId} :
    s.ringContains g sId pId oId = true ↔
      ∃ ring, s.graphs[g]? = some ring ∧ LoudsStore.rowOf sId pId oId ∈ ring.triples := by
  rw [LoudsStore.ringContains]
  cases s.graphs[g]? with
  | none => simp
  | some ring => simp [GraphRing.contains_iff, LoudsStore.rowOf]

theorem compactedTriples_eq (I : Implements A Knows CompactOk) (h : LoudsStore.Inv Knows n s) :
    compactedTriples A s = stored (numbering n) (compactedRows s) := by
  have hinv := inv_settled h
  rcases LoudsStore.exists_liveSet I hinv with ⟨S, hS⟩
  have hterm : ∀ {id : TermId} {t : Term}, n.term id = some t →
      (numbering n).termOf id.asU64 = some t := by
    intro id t ht
    show (TermId.new id.asU64).toOption.bind n.term = some t
    rw [toOption_new.mpr rfl, Option.bind_some, ht]
  rw [compactedTriples, liveTriples_eq I hinv hS]
  ext t
  constructor
  · rintro ⟨q, hq, rfl⟩
    rcases (live_settled h).mp ((hS q).mp hq) with ⟨g, sId, pId, oId, hids, hin⟩
    rcases ringContains_iff.mp hin with ⟨ring, hring, hrow⟩
    rcases Names.quadIds_eq_some.mp hids with ⟨_, hs, hp, ho⟩
    exact ⟨_, mem_compactedRows.mpr ⟨g, ring, hring, _, hrow, rfl⟩, hterm hs, hterm hp, hterm ho⟩
  · rintro ⟨row, hrow, hs, hp, ho⟩
    rcases mem_compactedRows.mp hrow with ⟨g, ring, hring, t, ht, rfl⟩
    rcases h.rows g ring hring t ht with ⟨q, sId, pId, oId, hids, rfl⟩
    rcases Names.quadIds_eq_some.mp hids with ⟨_, hs', hp', ho'⟩
    refine ⟨q, (hS q).mpr ((live_settled h).mpr ⟨g, sId, pId, oId, hids,
      ringContains_iff.mpr ⟨ring, hring, ht⟩⟩), ?_⟩
    have heq : ∀ {id : TermId} {t t' : Term}, (numbering n).termOf id.asU64 = some t → n.term id = some t' →
        t' = t := by
      intro id t t' ht ht'
      rw [hterm ht'] at ht
      exact Option.some.inj ht
    rw [tripleOf, heq hs hs', heq hp hp', heq ho ho']

theorem compactedTriples_of_isEmpty (I : Implements A Knows CompactOk) (h : LoudsStore.Inv Knows n s)
    (hempty : s.delta.isEmpty = true) : compactedTriples A s = liveTriples A s := by
  have hget : ∀ k, s.delta.get k = none := by
    intro k
    rw [Delta.get, Std.TreeMap.getElem?_of_isEmpty hempty]
  have hlive : ∀ q, LoudsStore.Live n { s with delta := .new } q ↔ LoudsStore.Live n s q := by
    intro q
    rw [live_settled h]
    constructor
    · rintro ⟨g, sId, pId, oId, hids, hin⟩
      exact ⟨_, Names.keyOf_eq_some.mpr ⟨g, sId, pId, oId, hids, rfl⟩, h.live_iff.mpr (.inr ⟨hget _, hin⟩)⟩
    · rintro ⟨k, hk, hmem⟩
      rcases Names.keyOf_eq_some.mp hk with ⟨g, sId, pId, oId, hids, rfl⟩
      rcases h.live_iff.mp hmem with hins | ⟨_, hin⟩
      · rw [hget] at hins
        cases hins
      · exact ⟨g, sId, pId, oId, hids, hin⟩
  unfold compactedTriples liveTriples
  rw [LoudsStore.liveSet_eq I (inv_settled h), LoudsStore.liveSet_eq I h]
  simp only [hlive]

/-! ## Every state of a run -/

section Source

open LoudsStore Dictionary DictCompact

variable {bs : Nat}

/-- A state reached with safe dictionary compactions is a dataset as the engine needs
it. -/
theorem reached_backs (shapes : GraphRing → PhysicalShape → Option (List (List Nat))) (hbs : 0 < bs)
    (threshold : Option Nat) {events : List Event}
    (h : Machine.Meets (step (api bs)) (DictOk bs) (openNew bs threshold) events)
    {s : LoudsStore Dictionary} (hs : (Machine.run (step (api bs)) (openNew bs threshold) events).2 = s) :
    ∃ num S compacted, Backs (storeDataset (quadStore (api bs) shapes s)) num S compacted ∧
      liveTriples (api bs) s = merge S ∧ compactedTriples (api bs) s = stored num compacted := by
  have I := implements hbs
  rcases reached_inv hbs threshold h with ⟨n, hle, hinv⟩
  rw [hs] at hinv
  have hdefault : n.graph graphDefault = some .defaultGraph := Names.graph_of_le hle rfl
  rcases exists_liveSet I hinv with ⟨S, hS⟩
  exact ⟨numbering n, S, compactedRows s, louds_backs I hinv hdefault hS, liveTriples_eq I hinv hS,
    compactedTriples_eq I hinv⟩

/-- In every state reached in which no rule instance has a premise that only the live
view or only the rings know, `infer` returns what the rules derive from the live
triples and is not live, each quad once. -/
theorem infer_live (hbs : 0 < bs) (threshold : Option Nat)
    (shapes : GraphRing → PhysicalShape → Option (List (List Nat))) {events : List Event}
    (h : Machine.Meets (step (api bs)) (DictOk bs) (openNew bs threshold) events)
    {s : LoudsStore Dictionary} (hs : (Machine.run (step (api bs)) (openNew bs threshold) events).2 = s)
    (hagree : Concordant (liveTriples (api bs) s) (compactedTriples (api bs) s)) :
    ∃ quads diagnostics,
      Returns (fun fuel => infer fuel (storeDataset (quadStore (api bs) shapes s))) (quads, diagnostics) ∧
      quads.Nodup ∧ ∀ q, q ∈ quads ↔ q.graphName = .defaultGraph ∧
        Derived Entails (liveTriples (api bs) s) (tripleOf q) ∧ tripleOf q ∉ liveTriples (api bs) s := by
  rcases reached_backs shapes hbs threshold h hs with ⟨num, S, compacted, hbacks, hlive, hrings⟩
  rw [hlive, hrings] at hagree
  rw [hlive]
  exact infer_returns hbacks hagree

/-- An edge whose property has a domain, and the declaration of the domain. -/
def edgeQuad : Quad :=
  ⟨.namedNode ⟨"http://ex/x"⟩, ⟨"http://ex/p"⟩, .namedNode ⟨"http://ex/y"⟩, .defaultGraph⟩

def domainQuad : Quad :=
  ⟨.namedNode ⟨"http://ex/p"⟩, Vocab.rdfsDomain.node, .namedNode ⟨"http://ex/C"⟩, .defaultGraph⟩

def typeQuad : Quad :=
  ⟨.namedNode ⟨"http://ex/x"⟩, Vocab.rdfType.node, .namedNode ⟨"http://ex/C"⟩, .defaultGraph⟩

def subClassQuad : Quad :=
  ⟨.namedNode ⟨"http://ex/C"⟩, Vocab.rdfsSubClassOf.node, .namedNode ⟨"http://ex/D"⟩, .defaultGraph⟩

theorem liveTriples_of_readAll {s : LoudsStore D} {qs : List Quad}
    (h : readAll A s = some (qs.map Quad.stored)) : liveTriples A s = {t | ∃ q ∈ qs, t = tripleOf q} := by
  ext t
  simp only [liveTriples, liveSet_of_readAll h, Set.mem_ofPred_eq, mem_map]
  constructor
  · rintro ⟨_, ⟨q, hq, rfl⟩, rfl⟩
    exact ⟨q, hq, rfl⟩
  · rintro ⟨q, hq, rfl⟩
    exact ⟨_, ⟨q, hq, rfl⟩, rfl⟩

/-- The state at the end of a run. -/
def sampleState (events : List Event) : LoudsStore Dictionary :=
  (Machine.run (step (api sourceBlockSize)) (openNew sourceBlockSize none) events).2

/-- The engine over such a state. -/
def sampleInfer (events : List Event) (fuel : Nat) : Except InferError (List Quad × List Diagnostic) :=
  infer fuel (storeDataset (quadStore (api sourceBlockSize) (fun _ _ => none) (sampleState events)))

/-- What the engine returns over a sample state in which the core triples of the rings
are live. -/
theorem sample_visible {events : List Event}
    (hmeets : Machine.Meets (step (api sourceBlockSize)) (fun s e =>
      (stepCompactsAt (api sourceBlockSize) s e).all (fitsBlock sourceBlockSize) = true)
      (openNew sourceBlockSize none) events) (live rings : List Quad)
    (hlive : readAll (api sourceBlockSize) (sampleState events) = some (live.map Quad.stored))
    (hrings : readAll (api sourceBlockSize) { sampleState events with delta := .new } =
      some (rings.map Quad.stored))
    (hcore : ∀ q ∈ rings, (∃ v ∈ corePredicates, q.predicate = v.node) → q ∈ live) :
    ∃ quads diagnostics, Returns (sampleInfer events) (quads, diagnostics) ∧
      ∀ q, q ∈ quads ↔ q.graphName = .defaultGraph ∧
        Derived Entails (visible {t | ∃ q ∈ live, t = tripleOf q} {t | ∃ q ∈ rings, t = tripleOf q})
          (tripleOf q) ∧ ¬∃ q' ∈ live, tripleOf q = tripleOf q' := by
  have hok := hmeets.imp (Q := DictOk sourceBlockSize) fun s e he => dictOk_of_fitsBlock he
  rcases reached_backs (fun _ _ => none) (by decide) none hok rfl with
    ⟨num, S, compacted, hbacks, hmerge, hstored⟩
  have hl := hmerge.symm.trans (liveTriples_of_readAll hlive)
  have hr := hstored.symm.trans (liveTriples_of_readAll hrings)
  have hroused : Roused (merge S) (stored num compacted) := by
    rw [hl, hr]
    apply roused_of_core
    rintro _ ⟨q, hq, rfl⟩ ⟨v, hv, hp⟩
    exact ⟨q, hcore q hq ⟨v, hv, Term.namedNode.inj hp⟩, rfl⟩
  rcases infer_visible hbacks hroused with ⟨quads, diagnostics, hret, _, hmem⟩
  rw [hl, hr] at hmem
  exact ⟨quads, diagnostics, hret, hmem⟩

/-- The type of an instance is pending, its class has a superclass in the ring: the
instance is inferred to be in the superclass. -/
theorem infer_live_pending_type :
    ∃ quads diagnostics, Returns
        (sampleInfer [.call (.insert subClassQuad), .call .compact, .call (.insert typeQuad)])
        (quads, diagnostics) ∧
      { typeQuad with object := .namedNode ⟨"http://ex/D"⟩ } ∈ quads := by
  have hmeets : Machine.Meets (step (api sourceBlockSize)) (fun s e =>
      (stepCompactsAt (api sourceBlockSize) s e).all (fitsBlock sourceBlockSize) = true)
      (openNew sourceBlockSize none)
      [.call (.insert subClassQuad), .call .compact, .call (.insert typeQuad)] := by
    decide +kernel
  have hok := hmeets.imp (Q := DictOk sourceBlockSize) fun s e he => dictOk_of_fitsBlock he
  generalize hs : sampleState [.call (.insert subClassQuad), .call .compact, .call (.insert typeQuad)] = s
  have hlive : liveTriples (api sourceBlockSize) s = {t | ∃ q ∈ [typeQuad, subClassQuad], t = tripleOf q} := by
    rw [← hs]
    exact liveTriples_of_readAll (by decide +kernel)
  have hrings : compactedTriples (api sourceBlockSize) s = {t | ∃ q ∈ [subClassQuad], t = tripleOf q} := by
    rw [← hs]
    exact liveTriples_of_readAll (by decide +kernel)
  -- the pending triple is seeded
  have hagree : Concordant (liveTriples (api sourceBlockSize) s) (compactedTriples (api sourceBlockSize) s) := by
    rw [hlive, hrings]
    apply concordant_of_subset
    · rintro t ⟨q, hq, rfl⟩
      exact ⟨q, mem_cons_of_mem _ hq, rfl⟩
    · rintro t ⟨q, hq, rfl⟩
      have hcore : ∀ q ∈ [typeQuad, subClassQuad], ∃ v ∈ corePredicates, q.predicate = v.node := by decide
      rcases hcore q hq with ⟨v, hv, hp⟩
      exact .inr (.inl ⟨v, hv, congrArg Term.namedNode hp⟩)
  rcases infer_live (by decide) none (fun _ _ => none) hok hs hagree with ⟨quads, diagnostics, hret, _, hmem⟩
  rw [← hs] at hret
  refine ⟨quads, diagnostics, hret, (hmem _).mpr ⟨rfl, ?_, ?_⟩⟩
  · rw [hlive]
    refine ⟨[tripleOf typeQuad, tripleOf subClassQuad], .type_subClassOf _ _ _, ?_⟩
    intro t ht
    refine .base ?_
    rcases mem_cons.mp ht with rfl | ht
    · exact ⟨typeQuad, by decide, rfl⟩
    · exact ⟨subClassQuad, by decide, mem_singleton.mp ht⟩
  · rw [hlive]
    rintro ⟨q, hq, heq⟩
    have hne : ∀ q ∈ [typeQuad, subClassQuad],
        tripleOf { typeQuad with object := .namedNode ⟨"http://ex/D"⟩ } ≠ tripleOf q := by decide
    exact hne q hq heq

theorem not_derived_domain {t : Triple} : ¬Derived Entails {t | ∃ q ∈ [domainQuad], t = tripleOf q} t := by
  have hstuck : ∀ body a, Entails body a → ¬∀ b ∈ body, b = tripleOf domainQuad := by
    intro body a hent hbody
    cases hent
    case domain p c x y =>
      have hrule := hbody _ mem_cons_self
      have hedge := hbody _ (mem_cons_of_mem _ mem_cons_self)
      simp only [tripleOf, domainQuad, Triple.mk.injEq] at hrule hedge
      exact absurd (hrule.1.symm.trans hedge.2.1) (by decide)
    all_goals
      have hrule := hbody _ mem_cons_self
      simp only [tripleOf, domainQuad, Triple.mk.injEq, Vocab.term, Term.namedNode.injEq] at hrule
      exact absurd hrule.2.1 (by decide)
  rintro ⟨body, hent, hbody⟩
  refine hstuck body t hent fun b hb => ?_
  refine (hbody b hb).mem_of_closed (M := {b | b = tripleOf domainQuad}) ?_ ?_
  · rintro t ⟨q, hq, rfl⟩
    exact congrArg tripleOf (mem_singleton.mp hq)
  · exact fun body a hent hall => absurd hall (hstuck body a hent)

theorem derived_type {T : Set Triple} (hdom : tripleOf domainQuad ∈ T) (hedge : tripleOf edgeQuad ∈ T) :
    Derived Entails T (tripleOf typeQuad) := by
  refine ⟨[tripleOf domainQuad, tripleOf edgeQuad], .domain _ _ _ _, ?_⟩
  intro t ht
  refine .base ?_
  rcases mem_cons.mp ht with rfl | ht
  · exact hdom
  · rw [mem_singleton.mp ht]
    exact hedge

/-- The two ways in which the views differ. A pending edge does not meet the
declaration of its property; a removed edge that is still in the ring does. -/
theorem infer_misses_pending_keeps_removed :
    (¬∀ events : List Event, ∃ quads diagnostics, Returns (sampleInfer events) (quads, diagnostics) ∧
      ∀ q : Quad, q.graphName = .defaultGraph →
        Derived Entails (liveTriples (api sourceBlockSize) (sampleState events)) (tripleOf q) →
        tripleOf q ∉ liveTriples (api sourceBlockSize) (sampleState events) → q ∈ quads) ∧
    ¬∀ events : List Event, ∃ quads diagnostics, Returns (sampleInfer events) (quads, diagnostics) ∧
      ∀ q ∈ quads, Derived Entails (liveTriples (api sourceBlockSize) (sampleState events)) (tripleOf q) := by
  constructor
  · intro hclaim
    have hlive : readAll (api sourceBlockSize)
        (sampleState [.call (.insert domainQuad), .call (.insert edgeQuad)]) =
          some ([domainQuad, edgeQuad].map Quad.stored) := by
      decide +kernel
    rcases hclaim [.call (.insert domainQuad), .call (.insert edgeQuad)] with ⟨quads, diagnostics, hret, hall⟩
    rw [liveTriples_of_readAll hlive] at hall
    have htype := hall typeQuad rfl (derived_type ⟨domainQuad, by decide, rfl⟩ ⟨edgeQuad, by decide, rfl⟩)
      (by rintro ⟨q, hq, heq⟩; revert q; decide)
    rcases sample_visible (by decide +kernel) _ [] hlive (by decide +kernel) (by decide) with
      ⟨quads', diagnostics', hret', hmem⟩
    cases hret.unique hret'
    -- only the declaration is visible
    refine not_derived_domain (((hmem typeQuad).mp htype).2.1.mono ?_)
    rintro t (⟨q, hq, _⟩ | ⟨⟨q, hq, rfl⟩, hseeded⟩)
    · cases hq
    · refine ⟨q, ?_, rfl⟩
      have hpred : ∀ q ∈ [domainQuad, edgeQuad], (∃ v ∈ corePredicates, (tripleOf q).predicate = v.term) →
          q ∈ [domainQuad] := by decide
      have hdecl : ∀ q ∈ [domainQuad, edgeQuad], ∀ c ∈ declaredClasses, ∀ q' ∈ [domainQuad, edgeQuad],
          (⟨(tripleOf q).predicate, Vocab.rdfType.term, c.1.term⟩ : Triple) ≠ tripleOf q' := by decide
      rcases hseeded with hcore | ⟨c, hc, q', hq', heq⟩
      · exact hpred q hq hcore
      · exact absurd heq (hdecl q hq c hc q' hq')
  · intro hclaim
    have hlive : readAll (api sourceBlockSize) (sampleState [.call (.insert domainQuad),
        .call (.insert edgeQuad), .call .compact, .call (.remove edgeQuad)]) =
          some ([domainQuad].map Quad.stored) := by
      decide +kernel
    rcases hclaim [.call (.insert domainQuad), .call (.insert edgeQuad), .call .compact,
      .call (.remove edgeQuad)] with ⟨quads, diagnostics, hret, hall⟩
    rw [liveTriples_of_readAll hlive] at hall
    rcases sample_visible (by decide +kernel) _ [domainQuad, edgeQuad] hlive (by decide +kernel)
      (by decide) with ⟨quads', diagnostics', hret', hmem⟩
    cases hret.unique hret'
    refine not_derived_domain (hall typeQuad ((hmem typeQuad).mpr ⟨rfl, ?_, by decide⟩))
    exact derived_type (.inl ⟨domainQuad, by decide, rfl⟩) (.inl ⟨edgeQuad, by decide, rfl⟩)

/-! ## Compacted stores -/

/-- Without pending writes the two views of a reached state agree. -/
theorem compacted_backs (shapes : GraphRing → PhysicalShape → Option (List (List Nat))) (hbs : 0 < bs)
    (threshold : Option Nat) {events : List Event}
    (h : Machine.Meets (step (api bs)) (DictOk bs) (openNew bs threshold) events)
    {s : LoudsStore Dictionary} (hs : (Machine.run (step (api bs)) (openNew bs threshold) events).2 = s)
    (hempty : s.delta.isEmpty = true) :
    ∃ num S compacted, Backs (storeDataset (quadStore (api bs) shapes s)) num S compacted ∧
      liveTriples (api bs) s = merge S ∧ Concordant (merge S) (stored num compacted) := by
  rcases reached_inv hbs threshold h with ⟨n, _, hinv⟩
  rw [hs] at hinv
  rcases reached_backs shapes hbs threshold h hs with ⟨num, S, compacted, hbacks, hlive, hrings⟩
  rw [compactedTriples_of_isEmpty (implements hbs) hinv hempty] at hrings
  refine ⟨num, S, compacted, hbacks, hlive, ?_⟩
  rw [← hrings, hlive]
  exact concordant_of_subset (fun t ht => ht) fun t ht => .inl ht

/-- The seed misses no consequence. For any rules and seed such that each rule has a
premise whose predicate is seeded, `closure_over_store` returns the seed and the
consequences of the store exactly if no rule that it activates has a trap; in every
state reached without pending writes, `infer` returns the consequences of the live
triples that are not live. -/
theorem seed_suffices {rules : List Rule} (hsafe : ∀ r ∈ rules, r.Safe) {store : AtomSource}
    {E : Finset Row} (hstore : Scans store (· ∈ E)) {seed : List Row} (hsub : ∀ row ∈ seed, row ∈ E)
    (hseed : ∀ r ∈ rules, r.SeededByPredicate E seed) (hbs : 0 < bs) (threshold : Option Nat)
    (shapes : GraphRing → PhysicalShape → Option (List (List Nat))) {events : List Event}
    (h : Machine.Meets (step (api bs)) (DictOk bs) (openNew bs threshold) events)
    {s : LoudsStore Dictionary} (hs : (Machine.run (step (api bs)) (openNew bs threshold) events).2 = s)
    (hempty : s.delta.isEmpty = true) :
    ((∃ rows, Returns (fun fuel => closureOverStore fuel (RuleSet.new rules) store seed) rows ∧
        rows.Nodup ∧ ∀ row, row ∈ rows ↔ row ∈ seed ∨ Derived (Instance rules) E row) ↔
      ∀ r ∈ rules, (∃ row, (row ∈ seed ∨ Derived (Instance rules) E row) ∧ r.Activates row) →
        ¬r.Trapped {row | Derivable (Instance rules) E row}) ∧
    ∃ quads diagnostics,
      Returns (fun fuel => infer fuel (storeDataset (quadStore (api bs) shapes s))) (quads, diagnostics) ∧
      quads.Nodup ∧ ∀ q, q ∈ quads ↔ q.graphName = .defaultGraph ∧
        Derived Entails (liveTriples (api bs) s) (tripleOf q) ∧ tripleOf q ∉ liveTriples (api bs) s := by
  refine ⟨closureOverStore_iff hsafe hstore hsub hseed, ?_⟩
  rcases compacted_backs shapes hbs threshold h hs hempty with ⟨num, S, compacted, hbacks, hlive, hagree⟩
  rw [hlive]
  exact infer_returns hbacks hagree

/-- The rule of domains with the declaration as seed finds the type of an edge that is
not seeded; so does the engine after a compaction. -/
theorem seed_suffices_domain :
    (∃ rows, Returns (fun fuel => closureOverStore fuel (RuleSet.new [Rule.domain 7 8])
        (sliceSource [⟨10, 7, 20⟩, ⟨1, 10, 2⟩]) [⟨10, 7, 20⟩]) rows ∧ ⟨1, 8, 20⟩ ∈ rows) ∧
    ∃ quads diagnostics, Returns (sampleInfer [.call (.insert domainQuad), .call (.insert edgeQuad),
      .call .compact]) (quads, diagnostics) ∧ typeQuad ∈ quads := by
  have htidy := Rule.safe_of_tidy (r := Rule.domain 7 8) rfl
  have hsafe := forall_mem_singleton.mpr htidy.1
  have hstore : Scans (sliceSource [⟨10, 7, 20⟩, ⟨1, 10, 2⟩])
      (· ∈ ({⟨10, 7, 20⟩, ⟨1, 10, 2⟩} : Finset Row)) := by
    simpa using scans_sliceSource [⟨10, 7, 20⟩, ⟨1, 10, 2⟩]
  have hsub : ∀ row ∈ [(⟨10, 7, 20⟩ : Row)], row ∈ ({⟨10, 7, 20⟩, ⟨1, 10, 2⟩} : Finset Row) := by decide
  have hseed : ∀ r ∈ [Rule.domain 7 8], r.SeededByPredicate {⟨10, 7, 20⟩, ⟨1, 10, 2⟩} [⟨10, 7, 20⟩] :=
    forall_mem_singleton.mpr ⟨_, mem_cons_self, 7, rfl, by decide⟩
  have hfree : ∀ r ∈ [Rule.domain 7 8], ¬r.Trapped {row | Derivable (Instance [Rule.domain 7 8])
      (({⟨10, 7, 20⟩, ⟨1, 10, 2⟩} : Finset Row) : Set Row) row} := by
    rcases @derivations_over_store [Rule.domain 7 8] _ (by decide) _ hsub with ⟨hfired, hfacts⟩
    rw [← hfired, ← hfacts]
    exact forall_mem_singleton.mpr (not_trapped hsafe (by decide) htidy.2)
  have hmeets : Machine.Meets (step (api sourceBlockSize)) (fun s e =>
      (stepCompactsAt (api sourceBlockSize) s e).all (fitsBlock sourceBlockSize) = true)
      (openNew sourceBlockSize none)
      [.call (.insert domainQuad), .call (.insert edgeQuad), .call .compact] := by
    decide +kernel
  have hlive : readAll (api sourceBlockSize)
      (sampleState [.call (.insert domainQuad), .call (.insert edgeQuad), .call .compact]) =
        some ([domainQuad, edgeQuad].map Quad.stored) := by
    decide +kernel
  rcases seed_suffices hsafe hstore hsub hseed (by decide) none (fun _ _ => none)
    (hmeets.imp fun s e he => dictOk_of_fitsBlock he) (s := sampleState _) rfl (by decide +kernel) with
    ⟨hiff, quads, diagnostics, hret, _, hmem⟩
  constructor
  · rcases hiff.mpr fun r hr _ => hfree r hr with ⟨rows, hrows, _, hderived⟩
    refine ⟨rows, hrows, (hderived _).mpr (.inr ⟨[⟨10, 7, 20⟩, ⟨1, 10, 2⟩], ?_, fun row hrow => .base ?_⟩)⟩
    · exact ⟨_, mem_singleton_self _, fun u => [10, 20, 1, 2].getD u 0, rfl, rfl⟩
    · simpa using hrow
  · rw [liveTriples_of_readAll hlive] at hmem
    refine ⟨quads, diagnostics, hret, (hmem _).mpr ⟨rfl, ?_, ?_⟩⟩
    · exact derived_type ⟨domainQuad, by decide, rfl⟩ ⟨edgeQuad, by decide, rfl⟩
    · rintro ⟨q, hq, heq⟩
      revert q
      decide

end Source

end Nova.Reasoning
