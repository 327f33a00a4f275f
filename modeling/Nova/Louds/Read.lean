import Nova.Louds.Invariant
import Nova.Lib.Reader

/-!
# The read path

`contains` and `quadsForPattern` against the live set. The scan of one graph
takes the delta's entries in the key range of the pattern and then the ring's
matches, without the keys the delta has decided; `scanGraphs_spec` carries the
set of decided keys along and gets every live quad that matches once.

The readers look terms up, and a lookup may panic (see `Implements`); the
results are stated for lookups that return.
-/

namespace Nova

open Nova.Lib List Names

/-- A quad as the readers return it. -/
def Quad.stored (q : Quad) : StoredQuad :=
  ⟨q.subject.toTerm, .namedNode q.predicate, q.object, q.graphName⟩

theorem Quad.stored_injective : Function.Injective Quad.stored := by
  intro q q' h
  rcases q with ⟨s, p, o, g⟩
  rcases q' with ⟨s', p', o', g'⟩
  simp only [Quad.stored, StoredQuad.mk.injEq, Term.namedNode.injEq] at h
  rcases h with ⟨hs, rfl, rfl, rfl⟩
  rw [Subject.toTerm_injective hs]

namespace LoudsStore

variable {D : Type} {A : DictApi D} {Knows : D → Names → Prop} {CompactOk : Names → Prop}
variable {n : Names} {s : LoudsStore D}

theorem mem_knownNamedGraphs {g : GraphName} :
    g ∈ knownNamedGraphs A s ↔ ∃ gId, (gId ∈ s.namedGraphIds ∨ s.graphs[gId]?.isSome = true ∧
      gId ≠ graphDefault) ∧ A.getGraph s.dict gId = some g := by
  simp [knownNamedGraphs, mem_filterMap, Std.TreeMap.mem_keys]

/-- The quad's key is live. -/
def Live (n : Names) (s : LoudsStore D) (q : Quad) : Prop := ∃ k, n.keyOf q = some k ∧ k ∈ s.view.live

section

variable (I : Implements A Knows CompactOk)
include I

/-! ## Single quads -/

variable {q : Quad}

/-- `contains` answers for the live set, unless the lookup panics. -/
theorem contains_spec (h : Inv Knows n s) (hlook : n.lookupQuad q = .ok (n.quadIds q)) :
    ∃ b, contains A s q = .ok b ∧ (b = true ↔ Live n s q) := by
  rw [contains, lookupQuad_spec I h.knows, hlook]
  cases hids : n.quadIds q with
  | none =>
    refine ⟨false, rfl, by simp, ?_⟩
    intro hlive
    rcases hlive with ⟨k, hk, -⟩
    rw [keyOf_eq_none.mpr hids] at hk
    cases hk
  | some ids =>
    rcases ids with ⟨g, sId, pId, oId⟩
    have hkey := keyOf_eq_some.mpr ⟨g, sId, pId, oId, hids, rfl⟩
    have hlive : Live n s q ↔ packQuad g sId pId oId ∈ s.view.live := by
      simp [Live, hkey]
    rw [hlive, h.live_iff]
    simp only
    cases s.delta.get (packQuad g sId pId oId) with
    | none => exact ⟨_, rfl, by simp⟩
    | some b => cases b <;> exact ⟨_, rfl, by simp⟩

variable {g : GraphId}

variable {sId pId oId : TermId}

variable {d : D}

theorem decodeStoredQuad_spec (h : Knows d n) (hids : n.quadIds q = some (g, sId, pId, oId)) :
    ∃ d', decodeStoredQuad A d g sId pId oId = .ok (some q.stored, d') ∧ Knows d' n := by
  rcases quadIds_eq_some.mp hids with ⟨hg, hs, hp, ho⟩
  rcases I.getTermArc d n sId h with ⟨d₁, h₁, hd₁⟩
  rcases I.getTermArc d₁ n pId hd₁ with ⟨d₂, h₂, hd₂⟩
  rcases I.getTermArc d₂ n oId hd₂ with ⟨d₃, h₃, hd₃⟩
  refine ⟨d₃, ?_, hd₃⟩
  rw [hs] at h₁
  rw [hp] at h₂
  rw [ho] at h₃
  simp only [decodeStoredQuad, I.getGraph d n g h, hg, h₁, h₂, h₃, ok_bind]
  cases hsub : q.subject with
  | namedNode name => simp [Quad.stored, hsub, Subject.toTerm]
  | blankNode b => simp [Quad.stored, hsub, Subject.toTerm]

/-! ## Scans -/

omit I

/-- The scan went on: it has added the quads with these keys. -/
structure Grew (Knows : D → Names → Prop) (n : Names) (sc sc' : Scan D) (keys : List Nat) : Prop where
  knows : Knows sc'.dict n
  added : ∃ qs : List Quad, qs.map n.keyOf = keys.map some ∧
    sc'.results = sc.results ++ qs.map Quad.stored

variable {sc : Scan D}

theorem Grew.refl (h : Knows sc.dict n) : Grew Knows n sc sc [] :=
  ⟨h, [], rfl, by simp⟩

theorem Grew.trans {sc' sc'' : Scan D} {ks ks' : List Nat} (h : Grew Knows n sc sc' ks)
    (h' : Grew Knows n sc' sc'' ks') : Grew Knows n sc sc'' (ks ++ ks') := by
  rcases h.added with ⟨qs, hqs, hres⟩
  rcases h'.added with ⟨qs', hqs', hres'⟩
  refine ⟨h'.knows, qs ++ qs', ?_, ?_⟩
  · rw [map_append, map_append, hqs, hqs']
  · rw [hres', hres, map_append, append_assoc]

/-- The key belongs to graph `g` and has the ids that are bound. -/
def picks (g : GraphId) (sb pb ob : Option TermId) (k : Nat) : Bool :=
  let (dkG, dkS, dkP, dkO) := unpackQuad k
  decide (dkG = g ∧ Delta.Agrees sb dkS ∧ Delta.Agrees pb dkP ∧ Delta.Agrees ob dkO)

variable {sb pb ob : Option TermId}

theorem picks_packQuad {g' : GraphId} : picks g sb pb ob (packQuad g' sId pId oId) = true ↔
      g' = g ∧ Delta.Agrees sb sId ∧ Delta.Agrees pb pId ∧ Delta.Agrees ob oId := by
  rw [picks, unpackQuad_packQuad]
  exact decide_eq_true_iff

/-- The four tests of the loop are one. -/
theorem scanDelta_cons (g : GraphId) (sb pb ob : Option TermId) (sc : Scan D) (key : Nat)
    (isInsert : Bool) (rest : List (Nat × Bool)) :
    scanDelta A g sb pb ob sc ((key, isInsert) :: rest) =
      if picks g sb pb ob key then
        if isInsert then
          Scan.push A { sc with seen := key :: sc.seen } g (unpackQuad key).2.1 (unpackQuad key).2.2.1
            (unpackQuad key).2.2.2 >>= fun sc => scanDelta A g sb pb ob sc rest
        else scanDelta A g sb pb ob { sc with seen := key :: sc.seen } rest
      else scanDelta A g sb pb ob sc rest := by
  rw [scanDelta, picks]
  rcases unpackQuad key with ⟨dkG, dkS, dkP, dkO⟩
  by_cases hg : dkG = g
  · by_cases hs : Delta.Agrees sb dkS
    · by_cases hp : Delta.Agrees pb dkP
      · by_cases ho : Delta.Agrees ob dkO
        · simp [hg, hs, hp, ho]
        · simp [hg, hs, hp, ho]
      · simp [hg, hs, hp]
    · simp [hg, hs]
  · simp [hg]

theorem scanRing_cons (g : GraphId) (sc : Scan D) (sId pId oId : TermId) (rest : List Row) :
    scanRing A g sc (rowOf sId pId oId :: rest) =
      if rowKey g (rowOf sId pId oId) ∈ sc.seen then scanRing A g sc rest
      else sc.push A g sId pId oId >>= fun sc => scanRing A g sc rest := by
  rw [rowOf, scanRing]
  simp

include I

theorem push_spec (sc : Scan D) (h : Knows sc.dict n)
    (hids : n.quadIds q = some (g, sId, pId, oId)) : ∃ sc', sc.push A g sId pId oId = .ok sc' ∧
      Grew Knows n sc sc' [packQuad g sId pId oId] ∧ sc'.seen = sc.seen := by
  rcases decodeStoredQuad_spec I h hids with ⟨d', hr, hd⟩
  have hkey := keyOf_eq_some.mpr ⟨g, sId, pId, oId, hids, rfl⟩
  refine ⟨{ sc with dict := d', results := sc.results ++ [q.stored] }, ?_, ⟨hd, [q], ?_, rfl⟩, rfl⟩
  · rw [Scan.push, hr]
    rfl
  · simp [hkey]

/-- Scanning entries of the delta: the matching inserts are added, and every
matching key is noted. -/
theorem scanDelta_spec (g : GraphId) (sb pb ob : Option TermId) (entries : List (Nat × Bool))
    (hkeys : ∀ e ∈ entries, ∃ q, n.keyOf q = some e.1) :
    ∀ sc : Scan D, Knows sc.dict n → ∃ sc', scanDelta A g sb pb ob sc entries = .ok sc' ∧
      Grew Knows n sc sc' ((entries.filter fun e => picks g sb pb ob e.1 && e.2).map Prod.fst) ∧
      ∀ k, k ∈ sc'.seen ↔
        k ∈ sc.seen ∨ k ∈ (entries.filter fun e => picks g sb pb ob e.1).map Prod.fst := by
  induction entries with
  | nil =>
    intro sc hsc
    exact ⟨sc, rfl, .refl hsc, by simp⟩
  | cons e entries ih =>
    intro sc hsc
    rcases e with ⟨key, isInsert⟩
    have ih := ih fun e he => hkeys e (mem_cons_of_mem _ he)
    rw [scanDelta_cons]
    by_cases hpick : picks g sb pb ob key = true
    · rw [if_pos hpick]
      cases isInsert with
      | true =>
        -- a matching insert: decode it
        rcases hkeys (key, true) mem_cons_self with ⟨q, hq⟩
        rcases keyOf_eq_some.mp hq with ⟨g', sId, pId, oId, hids, hkey⟩
        simp only at hkey
        have hg := (picks_packQuad.mp (hkey ▸ hpick)).1
        rw [hg] at hids hkey
        rcases push_spec I { sc with seen := key :: sc.seen } hsc hids
          with ⟨sc₁, hpush, hgrew, hseen⟩
        rcases ih sc₁ hgrew.knows with ⟨sc', hrun, hgrew', hseen'⟩
        rw [if_pos rfl, ← hkey, unpackQuad_packQuad, hkey, hpush, ok_bind]
        refine ⟨sc', hrun, ?_, ?_⟩
        · rw [filter_cons_of_pos (by simp [hpick])]
          rw [hkey] at hgrew
          have hall := hgrew.trans hgrew'
          exact ⟨hall.knows, hall.added⟩
        · intro k
          rw [hseen', hseen, filter_cons_of_pos (by simp [hpick])]
          simp only [mem_cons, map_cons]
          tauto
      | false =>
        -- a matching tombstone: only noted
        rcases ih { sc with seen := key :: sc.seen } hsc with ⟨sc', hrun, hgrew', hseen'⟩
        refine ⟨sc', hrun, ?_, ?_⟩
        · rw [filter_cons_of_neg (by simp)]
          exact ⟨hgrew'.knows, hgrew'.added⟩
        · intro k
          rw [hseen', filter_cons_of_pos (by simp [hpick])]
          simp only [mem_cons, map_cons]
          tauto
    · -- a key that does not match is skipped
      rcases ih sc hsc with ⟨sc', hrun, hgrew, hseen⟩
      rw [if_neg hpick]
      refine ⟨sc', hrun, ?_, ?_⟩
      · rw [filter_cons_of_neg (by simp [hpick])]
        exact hgrew
      · intro k
        rw [hseen, filter_cons_of_neg (by simpa using hpick)]

theorem scanRing_spec (g : GraphId) (rows : List Row) (hrows : ∀ t ∈ rows, RowsKnown n g t) :
    ∀ sc : Scan D, Knows sc.dict n → ∃ sc', scanRing A g sc rows = .ok sc' ∧
      Grew Knows n sc sc' ((rows.map (rowKey g)).filter fun k => k ∉ sc.seen) ∧
      sc'.seen = sc.seen := by
  induction rows with
  | nil =>
    intro sc hsc
    exact ⟨sc, rfl, .refl hsc, rfl⟩
  | cons t rows ih =>
    intro sc hsc
    rcases hrows t mem_cons_self with ⟨q, sId, pId, oId, hids, rfl⟩
    have ih := ih fun t ht => hrows t (mem_cons_of_mem _ ht)
    rw [scanRing_cons, map_cons]
    by_cases hseen : rowKey g (rowOf sId pId oId) ∈ sc.seen
    · rcases ih sc hsc with ⟨sc', hrun, hgrew, hsame⟩
      refine ⟨sc', by rw [if_pos hseen, hrun], ?_, hsame⟩
      rw [filter_cons_of_neg (by simpa using hseen)]
      exact hgrew
    · rcases push_spec I sc hsc hids with ⟨sc₁, hpush, hgrew₁, hsame₁⟩
      rcases ih sc₁ hgrew₁.knows with ⟨sc', hrun, hgrew, hsame⟩
      refine ⟨sc', ?_, ?_, hsame.trans hsame₁⟩
      · rw [if_neg hseen, hpush, ok_bind, hrun]
      · rw [filter_cons_of_pos (by simpa using hseen), rowKey_rowOf]
        rw [hsame₁] at hgrew
        exact hgrew₁.trans hgrew

/-! ## One graph -/

omit I in
theorem picks_iff_agrees : GraphRing.Matches (sb.map TermId.asU64) (pb.map TermId.asU64) (ob.map TermId.asU64)
      (rowOf sId pId oId) ↔ picks g sb pb ob (packQuad g sId pId oId) = true := by
  have hfield : ∀ (b : Option TermId) (id : TermId),
      (∀ v, b.map TermId.asU64 = some v → id.asU64 = v) ↔ Delta.Agrees b id := by
    intro b id
    cases b with
    | none => simp [Delta.Agrees]
    | some id' =>
      simp only [Option.map_some, Option.some.injEq, forall_eq', Delta.Agrees]
      constructor
      · exact TermId.eq_of_asU64
      · exact congrArg TermId.asU64
  rw [picks_packQuad]
  simp only [GraphRing.Matches, rowOf, hfield, true_and]

omit I in
theorem Inv.mem_range_picks (h : Inv Knows n s) (g : GraphId) (sb pb ob : Option TermId) {k : Nat}
    {b : Bool} :
    ((k, b) ∈ s.delta.rangeInclusive (Delta.graphRange g sb pb ob).1 (Delta.graphRange g sb pb ob).2 ∧
      picks g sb pb ob k = true) ↔ s.delta.get k = some b ∧ picks g sb pb ob k = true := by
  rw [Delta.mem_rangeInclusive]
  constructor
  · exact fun hk => ⟨hk.1.1, hk.2⟩
  · intro hk
    rcases h.keys k b hk.1 with ⟨q, hq⟩
    rcases keyOf_eq_some.mp hq with ⟨g', sId, pId, oId, -, rfl⟩
    rcases picks_packQuad.mp hk.2 with ⟨rfl, hs, hp, ho⟩
    exact ⟨⟨hk.1, Delta.graphRange_covers g' hs hp ho⟩, hk.2⟩

omit I in
/-- The ring's matches, as keys. -/
theorem Inv.mem_ring_picks (h : Inv Knows n s) (g : GraphId) (sb pb ob : Option TermId)
    {ring : GraphRing} (hring : s.graphs[g]? = some ring) {k : Nat} :
    k ∈ (ring.matchTriples (sb.map TermId.asU64) (pb.map TermId.asU64)
        (ob.map TermId.asU64)).map (rowKey g) ↔
      k ∈ s.view.base ∧ picks g sb pb ob k = true := by
  rw [mem_map]
  constructor
  · intro hk
    rcases hk with ⟨t, ht, rfl⟩
    rcases GraphRing.mem_matchTriples.mp ht with ⟨hmem, hmatch⟩
    rcases h.rows g ring hring t hmem with ⟨q, sId, pId, oId, -, rfl⟩
    rw [rowKey_rowOf, h.mem_base, ringContains, hring]
    exact ⟨GraphRing.contains_iff.mpr hmem, picks_iff_agrees.mp hmatch⟩
  · intro hk
    rcases hk with ⟨hbase, hpick⟩
    rcases h.base_keys hbase with ⟨q, hq⟩
    rcases keyOf_eq_some.mp hq with ⟨g', sId, pId, oId, -, rfl⟩
    have hg := (picks_packQuad.mp hpick).1
    subst hg
    rw [h.mem_base, ringContains, hring] at hbase
    refine ⟨rowOf sId pId oId, ?_, rowKey_rowOf _ _ _ _⟩
    exact GraphRing.mem_matchTriples.mpr
      ⟨GraphRing.contains_iff.mp hbase, picks_iff_agrees.mpr hpick⟩

omit I in
theorem rowKey_nodup {rows : List Row} (hrows : ∀ t ∈ rows, RowsKnown n g t) (hnodup : rows.Nodup) :
    (rows.map (rowKey g)).Nodup := by
  refine List.Nodup.map_on ?_ hnodup
  intro t ht t' ht' hkey
  rcases hrows t ht with ⟨q, s₁, p₁, o₁, -, rfl⟩
  rcases hrows t' ht' with ⟨q', s₂, p₂, o₂, -, rfl⟩
  rw [rowKey_rowOf, rowKey_rowOf] at hkey
  rcases packQuad_injective hkey with ⟨-, rfl, rfl, rfl⟩
  rfl

/-- A scan of one graph: it adds every live key of the graph that matches once;
keys noted on the way are keys of this graph. -/
def ScansGraph (Knows : D → Names → Prop) (n : Names) (live : Finset Nat) (sb pb ob : Option TermId)
    (scan : Scan D → GraphId → Except Panic (Scan D)) : Prop :=
  ∀ (g : GraphId) (sc : Scan D), Knows sc.dict n → (∀ k ∈ sc.seen, picks g sb pb ob k = false) →
    ∃ sc' ks, scan sc g = .ok sc' ∧ Grew Knows n sc sc' ks ∧ ks.Nodup ∧
      (∀ k, k ∈ ks ↔ k ∈ live ∧ picks g sb pb ob k = true) ∧
      ∀ k ∈ sc'.seen, k ∈ sc.seen ∨ picks g sb pb ob k = true

/-- The delta first, then the base triples of the graph, however they are found. -/
theorem scanRows_spec (h : Inv Knows n s) (sb pb ob : Option TermId) (g : GraphId)
    (hsc : Knows sc.dict n) (hseen : ∀ k ∈ sc.seen, picks g sb pb ob k = false) {rows : List Row}
    (hrows : ∀ t ∈ rows, RowsKnown n g t)
    (hbase : ∀ k, k ∈ rows.map (rowKey g) ↔ k ∈ s.view.base ∧ picks g sb pb ob k = true)
    (hrowsNodup : (rows.map (rowKey g)).Nodup) : ∃ sc₁ sc' ks, scanDelta A g sb pb ob sc
        (s.delta.rangeInclusive (Delta.graphRange g sb pb ob).1 (Delta.graphRange g sb pb ob).2) = .ok sc₁ ∧
      scanRing A g sc₁ rows = .ok sc' ∧ Grew Knows n sc sc' ks ∧ ks.Nodup ∧
      (∀ k, k ∈ ks ↔ k ∈ s.view.live ∧ picks g sb pb ob k = true) ∧
      ∀ k ∈ sc'.seen, k ∈ sc.seen ∨ picks g sb pb ob k = true := by
  have hrange := fun k b => h.mem_range_picks g sb pb ob (k := k) (b := b)
  generalize hentries : s.delta.rangeInclusive (Delta.graphRange g sb pb ob).1
    (Delta.graphRange g sb pb ob).2 = entries at hrange
  have hkeys : ∀ e ∈ entries, ∃ q, n.keyOf q = some e.1 := by
    intro e he
    rw [← hentries] at he
    exact h.keys e.1 e.2 (Delta.mem_rangeInclusive.mp he).1
  have hnodup : (entries.map Prod.fst).Nodup := by
    rw [← hentries]
    exact s.delta.iter_keys_nodup.sublist (filter_sublist.map _)
  rcases scanDelta_spec I g sb pb ob entries hkeys sc hsc with ⟨sc₁, hrun₁, hgrew₁, hseen₁⟩
  -- the keys from the delta
  have hins : ∀ k, k ∈ (entries.filter fun e => picks g sb pb ob e.1 && e.2).map Prod.fst ↔
      s.delta.get k = some true ∧ picks g sb pb ob k = true := by
    intro k
    rw [← hrange, mem_map]
    constructor
    · intro hk
      rcases hk with ⟨⟨k', b⟩, he, rfl⟩
      rw [mem_filter, Bool.and_eq_true] at he
      rcases he with ⟨he, hp, rfl⟩
      exact ⟨he, hp⟩
    · intro hk
      exact ⟨(k, true), mem_filter.mpr ⟨hk.1, by simp [hk.2]⟩, rfl⟩
  have hdec : ∀ k, k ∈ sc₁.seen ↔
      k ∈ sc.seen ∨ (s.delta.get k ≠ none ∧ picks g sb pb ob k = true) := by
    intro k
    rw [hseen₁, mem_map]
    constructor
    · intro hk
      rcases hk with hk | ⟨⟨k', b⟩, he, rfl⟩
      · exact .inl hk
      · rw [mem_filter] at he
        rcases (hrange k' b).mp he with ⟨hget, hp⟩
        exact .inr ⟨by rw [hget]; simp, hp⟩
    · intro hk
      rcases hk with hk | ⟨hget, hp⟩
      · exact .inl hk
      · rcases Option.ne_none_iff_exists'.mp hget with ⟨b, hb⟩
        exact .inr ⟨(k, b), mem_filter.mpr ((hrange k b).mpr ⟨hb, hp⟩), rfl⟩
  have hinsNodup : ((entries.filter fun e => picks g sb pb ob e.1 && e.2).map Prod.fst).Nodup :=
    hnodup.sublist (filter_sublist.map _)
  have hlive : ∀ k, k ∈ s.view.live ↔
      s.delta.get k = some true ∨ s.delta.get k = none ∧ k ∈ s.view.base := by
    intro k
    rw [Overlay.mem_live]
    simp only [view, Delta.mem_marked]
    cases s.delta.get k with
    | none => simp
    | some b => cases b <;> simp
  rcases scanRing_spec I g rows hrows sc₁ hgrew₁.knows with ⟨sc₂, hrun₂, hgrew₂, hsame⟩
  -- the keys from the rows
  have hringKeys : ∀ k, k ∈ (rows.map (rowKey g)).filter (fun k => k ∉ sc₁.seen) ↔
      (s.delta.get k = none ∧ k ∈ s.view.base) ∧ picks g sb pb ob k = true := by
    intro k
    rw [mem_filter, hbase, decide_eq_true_iff, hdec]
    constructor
    · intro hk
      rcases hk with ⟨⟨hbase, hp⟩, hns⟩
      refine ⟨⟨?_, hbase⟩, hp⟩
      by_contra hget
      exact hns (.inr ⟨hget, hp⟩)
    · intro hk
      rcases hk with ⟨⟨hget, hbase⟩, hp⟩
      refine ⟨⟨hbase, hp⟩, ?_⟩
      intro hs
      rcases hs with hs | ⟨hne, -⟩
      · rw [hseen k hs] at hp
        cases hp
      · exact hne hget
  refine ⟨sc₁, sc₂, _, hrun₁, hrun₂, hgrew₁.trans hgrew₂, ?_, ?_, ?_⟩
  · rw [nodup_append]
    refine ⟨hinsNodup, hrowsNodup.filter _, ?_⟩
    intro k hk k' hk' heq
    rw [hins] at hk
    rw [← heq, hringKeys] at hk'
    rw [hk.1] at hk'
    cases hk'.1.1
  · intro k
    rw [mem_append, hins, hringKeys, hlive]
    constructor
    · intro hk
      rcases hk with hk | hk
      · exact ⟨.inl hk.1, hk.2⟩
      · exact ⟨.inr hk.1, hk.2⟩
    · intro hk
      rcases hk with ⟨hk | hk, hp⟩
      · exact .inl ⟨hk, hp⟩
      · exact .inr ⟨hk, hp⟩
  · intro k hk
    rw [hsame, hdec] at hk
    rcases hk with hk | hk
    · exact .inl hk
    · exact .inr hk.2

omit I in
theorem Inv.not_base_of_no_ring (h : Inv Knows n s)
    (hring : s.graphs[g]? = none) {k : Nat} (hp : picks g sb pb ob k = true) : k ∉ s.view.base := by
  intro hk
  rcases h.base_keys hk with ⟨q, hq⟩
  rcases keyOf_eq_some.mp hq with ⟨g', sId, pId, oId, -, rfl⟩
  rw [(picks_packQuad.mp hp).1, h.mem_base, ringContains, hring] at hk
  cases hk

/-- Without a ring, the delta is all there is. -/
theorem scanRows_none (h : Inv Knows n s) (hring : s.graphs[g]? = none) (sb pb ob : Option TermId)
    (hsc : Knows sc.dict n) (hseen : ∀ k ∈ sc.seen, picks g sb pb ob k = false) :
    ∃ sc' ks, scanDelta A g sb pb ob sc
        (s.delta.rangeInclusive (Delta.graphRange g sb pb ob).1 (Delta.graphRange g sb pb ob).2) = .ok sc' ∧
      Grew Knows n sc sc' ks ∧ ks.Nodup ∧ (∀ k, k ∈ ks ↔ k ∈ s.view.live ∧ picks g sb pb ob k = true) ∧
      ∀ k ∈ sc'.seen, k ∈ sc.seen ∨ picks g sb pb ob k = true := by
  have hrows : ∀ t ∈ ([] : List Row), RowsKnown n g t := by simp
  rcases scanRows_spec I h sb pb ob g hsc hseen hrows
    (fun k => by simpa using fun hb hp => h.not_base_of_no_ring hring hp hb) (by simp)
    with ⟨sc₁, sc', ks, hrun₁, hrun₂, hrest⟩
  cases hrun₂
  exact ⟨sc₁, ks, hrun₁, hrest⟩

theorem scanGraph_spec (h : Inv Knows n s) (sb pb ob : Option TermId) :
    ScansGraph Knows n s.view.live sb pb ob (scanGraph A s sb pb ob) := by
  intro g sc hsc hseen
  unfold scanGraph
  simp only
  cases hring : s.graphs[g]? with
  | none =>
    rcases scanRows_none I h hring sb pb ob hsc hseen with ⟨sc', ks, hrun, hrest⟩
    rw [hrun, ok_bind]
    exact ⟨sc', ks, rfl, hrest⟩
  | some ring =>
    have hrows : ∀ t ∈ ring.matchTriples (sb.map TermId.asU64) (pb.map TermId.asU64)
        (ob.map TermId.asU64), RowsKnown n g t := fun t ht =>
      h.rows g ring hring t (GraphRing.mem_matchTriples.mp ht).1
    rcases scanRows_spec I h sb pb ob g hsc hseen hrows (fun k => h.mem_ring_picks g sb pb ob hring)
      (rowKey_nodup hrows (ring.matchTriples_nodup _ _ _)) with ⟨sc₁, sc', ks, hrun₁, hrun₂, hrest⟩
    rw [hrun₁, ok_bind]
    exact ⟨sc', ks, hrun₂, hrest⟩

/-! ## All graphs -/

omit I

theorem scanGraphs_eq (s : LoudsStore D) (sb pb ob : Option TermId) (gs : List GraphId) : ∀ sc : Scan D,
    scanGraphs A s sb pb ob sc gs = gs.foldlM (scanGraph A s sb pb ob) sc := by
  induction gs with
  | nil => exact fun _ => rfl
  | cons g gs ih =>
    intro sc
    exact congrArg _ (funext ih)

/-- By induction on the graphs: each adds its own quads, none twice. -/
theorem ScansGraph.all {live : Finset Nat}
    {scan : Scan D → GraphId → Except Panic (Scan D)} (hscan : ScansGraph Knows n live sb pb ob scan)
    (gs : List GraphId) (hgs : gs.Nodup) :
    ∀ sc : Scan D, Knows sc.dict n → (∀ g ∈ gs, ∀ k ∈ sc.seen, picks g sb pb ob k = false) →
      ∃ sc' ks, gs.foldlM scan sc = .ok sc' ∧ Grew Knows n sc sc' ks ∧ ks.Nodup ∧
        ∀ k, k ∈ ks ↔ k ∈ live ∧ ∃ g ∈ gs, picks g sb pb ob k = true := by
  induction gs with
  | nil =>
    intro sc hsc _
    exact ⟨sc, [], rfl, .refl hsc, .nil, by simp⟩
  | cons g gs ih =>
    intro sc hsc hseen
    rw [nodup_cons] at hgs
    -- a key is picked by its own graph only
    have hone : ∀ g' ∈ gs, ∀ k, picks g sb pb ob k = true → picks g' sb pb ob k = false := by
      intro g' hg' k hp
      rw [← Bool.not_eq_true]
      intro hp'
      unfold picks at hp hp'
      rw [decide_eq_true_iff] at hp hp'
      exact hgs.1 (hp.1 ▸ hp'.1 ▸ hg')
    rcases hscan g sc hsc (hseen g mem_cons_self)
      with ⟨sc₁, ks₁, hrun₁, hgrew₁, hnodup₁, hmem₁, hseen₁⟩
    have hseen' : ∀ g' ∈ gs, ∀ k ∈ sc₁.seen, picks g' sb pb ob k = false := by
      intro g' hg' k hk
      rcases hseen₁ k hk with hk | hp
      · exact hseen g' (mem_cons_of_mem _ hg') k hk
      · exact hone g' hg' k hp
    rcases ih hgs.2 sc₁ hgrew₁.knows hseen' with ⟨sc₂, ks₂, hrun₂, hgrew₂, hnodup₂, hmem₂⟩
    refine ⟨sc₂, ks₁ ++ ks₂, ?_, hgrew₁.trans hgrew₂, ?_, ?_⟩
    · rw [foldlM_cons, hrun₁, ok_bind, hrun₂]
    · rw [nodup_append]
      refine ⟨hnodup₁, hnodup₂, ?_⟩
      intro k hk k' hk' heq
      rw [hmem₁] at hk
      rw [← heq, hmem₂] at hk'
      rcases hk'.2 with ⟨g', hg', hp'⟩
      rw [hone g' hg' k hk.2] at hp'
      cases hp'
    · intro k
      rw [mem_append, hmem₁, hmem₂, exists_mem_cons_iff]
      tauto

/-! ## Patterns -/

/-- The quad has the given values where the pattern is bound. -/
structure PatternMatches (subject : Option Term) (predicate : Option NamedNode) (object : Option Term)
    (graphName : Option GraphName) (q : Quad) : Prop where
  subject : ∀ t, subject = some t → q.subject.toTerm = t
  predicate : ∀ p, predicate = some p → q.predicate = p
  object : ∀ t, object = some t → q.object = t
  graphName : ∀ g, graphName = some g → q.graphName = g

/-- A lookup of a bound position that returns. -/
def Returns (A : DictApi D) (n : Names) (d : D) (bound : Option Term) : Prop :=
  ∀ t, bound = some t → A.getId d t = .ok (n.termId t)

/-- Either a bound term is unknown, or its id tells the terms that agree with
it. -/
theorem encode_spec {bound : Option Term} (hret : Returns A n d bound) :
    (encode A d bound = .ok none ∧ ∃ t, bound = some t ∧ n.termId t = none) ∨
      ∃ b, encode A d bound = .ok (some b) ∧
        ∀ id t', n.term id = some t' → (Delta.Agrees b id ↔ ∀ t, bound = some t → t' = t) := by
  cases bound with
  | none => exact .inr ⟨none, rfl, by simp [Delta.Agrees]⟩
  | some t =>
    have hr := hret t rfl
    cases hid : n.termId t with
    | none =>
      rw [hid] at hr
      exact .inl ⟨by rw [encode, hr], t, rfl, hid⟩
    | some id₀ =>
      rw [hid] at hr
      refine .inr ⟨some id₀, by rw [encode, hr], ?_⟩
      intro id t' ht'
      simp only [Delta.Agrees, Option.some.injEq, forall_eq']
      constructor
      · intro heq
        rw [heq, termId_eq_some.mp hid] at ht'
        exact (Option.some.inj ht').symm
      · intro heq
        rw [heq] at ht'
        have hid' := termId_eq_some.mpr ht'
        rw [hid] at hid'
        exact (Option.some.inj hid').symm

theorem encode_known {bound : Option Term} (hret : Returns A n d bound) {b : Option TermId}
    (h : encode A d bound = .ok (some b)) : ∀ t, bound = some t → n.termId t ≠ none := by
  intro t ht hnone
  have hr := hret t ht
  rw [hnone] at hr
  rw [ht, encode, hr] at h
  cases h

theorem Inv.graph_known (h : Inv Knows n s)
    (hlive : packQuad g sId pId oId ∈ s.view.live) : g ∈ s.knownGraphIds := by
  rw [knownGraphIds, mem_dedup, mem_append, mem_append]
  rcases h.live_iff.mp hlive with hget | ⟨-, hring⟩
  · right
    refine mem_map.mpr ⟨(packQuad g sId pId oId, true), Delta.mem_iter.mpr hget, ?_⟩
    rw [unpackQuad_packQuad]
  · left
    left
    rw [ringContains] at hring
    cases hg : s.graphs[g]? with
    | none =>
      rw [hg] at hring
      cases hring
    | some ring =>
      rw [Std.TreeMap.mem_keys, Std.TreeMap.mem_iff_isSome_getElem?, hg]
      rfl

/-- The reader returned the live quads that satisfy `P`, each once, and left the
data alone. -/
def ReturnsQuads (Knows : D → Names → Prop) (n : Names) (s : LoudsStore D) (P : Quad → Prop)
    (r : Except Panic (List StoredQuad × LoudsStore D)) : Prop :=
  ∃ (qs : List Quad) (d' : D), r = .ok (qs.map Quad.stored, { s with dict := d' }) ∧
    Knows d' n ∧ qs.Nodup ∧ ∀ q, q ∈ qs ↔ Live n s q ∧ P q

/-- What a scan collected are the live quads that satisfy `P`, each once. -/
def Finds (Knows : D → Names → Prop) (n : Names) (s : LoudsStore D) (P : Quad → Prop)
    (r : Except Panic (List StoredQuad × D)) : Prop :=
  ∃ (qs : List Quad) (d' : D), r = .ok (qs.map Quad.stored, d') ∧
    Knows d' n ∧ qs.Nodup ∧ ∀ q, q ∈ qs ↔ Live n s q ∧ P q

theorem finds_none (hd : Knows d n) {P : Quad → Prop} (hnone : ∀ q, Live n s q → ¬P q) :
    Finds Knows n s P (.ok ([], d)) := by
  refine ⟨[], d, rfl, hd, .nil, ?_⟩
  intro q
  simp only [not_mem_nil, false_iff, not_and]
  exact hnone q

theorem Live.terms_known (h : Live n s q) :
    n.termId q.subject.toTerm ≠ none ∧ n.termId (.namedNode q.predicate) ≠ none ∧
      n.termId q.object ≠ none := by
  rcases h with ⟨k, hk, -⟩
  rcases keyOf_eq_some.mp hk with ⟨g, sId, pId, oId, hids, -⟩
  rcases quadIds_eq_some.mp hids with ⟨-, hs, hp, ho⟩
  simp [termId_eq_some.mpr hs, termId_eq_some.mpr hp, termId_eq_some.mpr ho]

/-- What the bound ids and the searched graphs select. -/
def Selects (n : Names) (sb pb ob : Option TermId) (gs : List GraphId) (q : Quad) : Prop :=
  ∃ g ∈ gs, ∃ sId pId oId, n.quadIds q = some (g, sId, pId, oId) ∧
    Delta.Agrees sb sId ∧ Delta.Agrees pb pId ∧ Delta.Agrees ob oId

theorem selects_iff {gs : List GraphId} {k : Nat} (hk : n.keyOf q = some k) :
    Selects n sb pb ob gs q ↔ ∃ g ∈ gs, picks g sb pb ob k = true := by
  rcases keyOf_eq_some.mp hk with ⟨g', sId, pId, oId, hids, rfl⟩
  constructor
  · intro h
    rcases h with ⟨g, hg, s', p', o', hids', hags⟩
    rw [hids] at hids'
    cases hids'
    exact ⟨_, hg, picks_packQuad.mpr ⟨rfl, hags⟩⟩
  · intro h
    rcases h with ⟨g, hg, hpick⟩
    rcases picks_packQuad.mp hpick with ⟨rfl, hags⟩
    exact ⟨_, hg, sId, pId, oId, hids, hags⟩

/-- Scanning the selected graphs finds the selected quads. -/
theorem scan_finds {scan : Scan D → GraphId → Except Panic (Scan D)}
    (hscan : ScansGraph Knows n s.view.live sb pb ob scan) (hd : Knows d n) {gs : List GraphId}
    (hgs : gs.Nodup) : Finds Knows n s (Selects n sb pb ob gs) (do
      let sc ← gs.foldlM scan ⟨d, [], []⟩
      return (sc.results, sc.dict)) := by
  rcases hscan.all gs hgs ⟨d, [], []⟩ hd (by simp) with ⟨sc', ks, hrun, hgrew, hnodup, hmem⟩
  rcases hgrew.added with ⟨qs, hqs, hres⟩
  have hqsNodup : (qs.map n.keyOf).Nodup := by
    rw [hqs]
    exact hnodup.map (Option.some_injective _)
  -- the quads and the keys are the same
  have hin : ∀ q, q ∈ qs ↔ ∃ k ∈ ks, n.keyOf q = some k := by
    intro q
    constructor
    · intro hq
      have hmap : n.keyOf q ∈ ks.map some := by
        rw [← hqs]
        exact mem_map_of_mem hq
      rcases mem_map.mp hmap with ⟨k, hk, heq⟩
      exact ⟨k, hk, heq.symm⟩
    · intro hq
      rcases hq with ⟨k, hk, hkey⟩
      have hmap : some k ∈ qs.map n.keyOf := by
        rw [hqs]
        exact mem_map_of_mem hk
      rcases mem_map.mp hmap with ⟨q', hq', hkey'⟩
      rw [keyOf_inj hkey hkey']
      exact hq'
  refine ⟨qs, sc'.dict, ?_, hgrew.knows, hqsNodup.of_map, ?_⟩
  · rw [hrun, ok_bind, hres]
    rfl
  · intro q
    rw [hin]
    constructor
    · intro hq
      rcases hq with ⟨k, hk, hkey⟩
      rcases (hmem k).mp hk with ⟨hlive, hpick⟩
      exact ⟨⟨k, hkey, hlive⟩, (selects_iff hkey).mpr hpick⟩
    · intro hq
      rcases hq with ⟨⟨k, hkey, hlive⟩, hsel⟩
      exact ⟨k, (hmem k).mpr ⟨hlive, (selects_iff hkey).mp hsel⟩, hkey⟩

/-- What the readers of a pattern have in common: the ids of the bound terms, then
the graphs to search, one after another. -/
def readPattern (A : DictApi D) (d : D) (known : List GraphId)
    (scan : Option TermId → Option TermId → Option TermId → Scan D → GraphId → Except Panic (Scan D))
    (subject : Option Term) (predicate : Option NamedNode) (object : Option Term)
    (graphName : Option GraphName) : Except Panic (List StoredQuad × D) := do
  match ← encode A d subject with
  | none => return ([], d)
  | some sId =>
    match ← encode A d (predicate.map .namedNode) with
    | none => return ([], d)
    | some pId =>
      match ← encode A d object with
      | none => return ([], d)
      | some oId =>
        match graphName.elim (some known) fun g => (A.getGraphId d g).map fun id => [id] with
        | none => return ([], d)
        | some gIds => do
          let sc ← gIds.foldlM (scan sId pId oId) ⟨d, [], []⟩
          return (sc.results, sc.dict)

theorem quadsForPattern_eq (s : LoudsStore D) (subject : Option Term) (predicate : Option NamedNode)
    (object : Option Term) (graphName : Option GraphName) :
    quadsForPattern A s subject predicate object graphName =
      (readPattern A s.dict s.knownGraphIds (scanGraph A s) subject predicate object graphName).map
        fun r => (r.1, { s with dict := r.2 }) := by
  unfold quadsForPattern readPattern
  rcases encode A s.dict subject with e | _ | sId
  · rfl
  · rfl
  rcases encode A s.dict (predicate.map .namedNode) with e | _ | pId
  · rfl
  · rfl
  rcases encode A s.dict object with e | _ | oId
  · rfl
  · rfl
  have hscan : ∀ gs : List GraphId, (do
      let sc ← scanGraphs A s sId pId oId ⟨s.dict, [], []⟩ gs
      return (sc.results, { s with dict := sc.dict })) = Except.map (fun r => (r.1, { s with dict := r.2 })) (do
        let sc ← gs.foldlM (scanGraph A s sId pId oId) ⟨s.dict, [], []⟩
        return (sc.results, sc.dict)) := by
    intro gs
    rw [scanGraphs_eq]
    rcases gs.foldlM (scanGraph A s sId pId oId) ⟨s.dict, [], []⟩ with e | sc <;> rfl
  rcases graphName with _ | g
  · exact hscan _
  · rw [searchGraphs, Option.elim_some]
    rcases A.getGraphId s.dict g with _ | gId
    · rfl
    · exact hscan [gId]

include I

/-- A pattern is answered with every live quad that matches, each once, if its
lookups return. The object is looked up only where subject and predicate are
known. -/
theorem readPattern_finds (hd : Knows d n) {known : List GraphId} (hnodup : known.Nodup)
    (hknown : ∀ g sId pId oId, packQuad g sId pId oId ∈ s.view.live → g ∈ known)
    {scan : Option TermId → Option TermId → Option TermId → Scan D → GraphId → Except Panic (Scan D)}
    (hscan : ∀ sb pb ob, ScansGraph Knows n s.view.live sb pb ob (scan sb pb ob)) (subject : Option Term)
    (predicate : Option NamedNode) (object : Option Term) (graphName : Option GraphName)
    (hs : Returns A n d subject) (ho : (∀ t, subject = some t → n.termId t ≠ none) →
      (∀ p, predicate = some p → n.termId (.namedNode p) ≠ none) → Returns A n d object) :
    Finds Knows n s (PatternMatches subject predicate object graphName)
      (readPattern A d known scan subject predicate object graphName) := by
  have hp : Returns A n d (predicate.map .namedNode) := by
    intro t ht
    rcases Option.map_eq_some_iff.mp ht with ⟨p, -, rfl⟩
    rw [I.getId _ _ _ hd, Names.getId]
    cases n.termId (.namedNode p) with
    | some id => rfl
    | none => rfl
  rw [readPattern]
  -- a bound term without an id: no live quad has it
  rcases encode_spec hs with ⟨hr, t, ht, hnone⟩ | ⟨sb, hrs, hsb⟩
  · rw [hr]
    refine finds_none hd fun q hlive hm => hlive.terms_known.1 ?_
    rw [hm.subject t ht, hnone]
  rcases encode_spec hp with ⟨hr, t, ht, hnone⟩ | ⟨pb, hrp, hpb⟩
  · rw [hrs, ok_bind, hr]
    refine finds_none hd fun q hlive hm => hlive.terms_known.2.1 ?_
    rcases Option.map_eq_some_iff.mp ht with ⟨p, hp, rfl⟩
    rw [hm.predicate p hp, hnone]
  have ho := ho (encode_known hs hrs) fun p hpr => encode_known hp hrp _ (congrArg _ hpr)
  rcases encode_spec ho with ⟨hr, t, ht, hnone⟩ | ⟨ob, hro, hob⟩
  · simp only [hrs, hrp, hr, ok_bind]
    refine finds_none hd fun q hlive hm => hlive.terms_known.2.2 ?_
    rw [hm.object t ht, hnone]
  simp only [hrs, hrp, hro, ok_bind]
  -- the ids say the same as the bound terms
  have hmatch : ∀ (gs : List GraphId) (q : Quad), Live n s q →
      (∀ g sId pId oId, n.quadIds q = some (g, sId, pId, oId) →
        (g ∈ gs ↔ ∀ name, graphName = some name → q.graphName = name)) →
      (Selects n sb pb ob gs q ↔ PatternMatches subject predicate object graphName q) := by
    intro gs q hlive hgraph
    rcases hlive with ⟨k, hk, -⟩
    rcases keyOf_eq_some.mp hk with ⟨g, sId, pId, oId, hids, -⟩
    rcases quadIds_eq_some.mp hids with ⟨-, hsT, hpT, hoT⟩
    have hpred : Delta.Agrees pb pId ↔ ∀ p, predicate = some p → q.predicate = p := by
      rw [hpb pId _ hpT]
      simp
    constructor
    · intro hsel
      rcases hsel with ⟨g', hg', s', p', o', hids', hs', hp', ho'⟩
      rw [hids] at hids'
      cases hids'
      exact ⟨(hsb _ _ hsT).mp hs', hpred.mp hp', (hob _ _ hoT).mp ho',
        (hgraph _ _ _ _ hids).mp hg'⟩
    · intro hm
      exact ⟨g, (hgraph _ _ _ _ hids).mpr hm.graphName, sId, pId, oId, hids,
        (hsb _ _ hsT).mpr hm.subject, hpred.mpr hm.predicate, (hob _ _ hoT).mpr hm.object⟩
  have hfound : ∀ gs : List GraphId, gs.Nodup → (∀ q, Live n s q → ∀ g sId pId oId,
      n.quadIds q = some (g, sId, pId, oId) →
        (g ∈ gs ↔ ∀ name, graphName = some name → q.graphName = name)) →
      Finds Knows n s (PatternMatches subject predicate object graphName) (do
        let sc ← gs.foldlM (scan sb pb ob) ⟨d, [], []⟩
        return (sc.results, sc.dict)) := by
    intro gs hgs hgraph
    rcases scan_finds (hscan sb pb ob) hd hgs with ⟨qs, d', hr, hd', hqs, hmem⟩
    refine ⟨qs, d', hr, hd', hqs, ?_⟩
    intro q
    rw [hmem]
    constructor
    · exact fun hq => ⟨hq.1, (hmatch gs q hq.1 (hgraph q hq.1)).mp hq.2⟩
    · exact fun hq => ⟨hq.1, (hmatch gs q hq.1 (hgraph q hq.1)).mpr hq.2⟩
  cases hgn : graphName with
  | none =>
    rw [hgn] at hfound
    refine hfound known hnodup ?_
    intro q hlive g sId pId oId hids
    rcases hlive with ⟨k, hk, hkl⟩
    rw [keyOf_eq_some.mpr ⟨g, sId, pId, oId, hids, rfl⟩] at hk
    cases hk
    simp [hknown _ _ _ _ hkl]
  | some name =>
    rw [hgn] at hfound
    rw [Option.elim_some, I.getGraphId d n name hd]
    cases hgid : n.graphId name with
    | none =>
      -- an unknown graph holds nothing
      refine finds_none hd fun q hlive hm => ?_
      rcases hlive with ⟨k, hk, -⟩
      rcases keyOf_eq_some.mp hk with ⟨g, sId, pId, oId, hids, -⟩
      have hg := (quadIds_eq_some.mp hids).1
      rw [hm.graphName name rfl, ← graphId_eq_some, hgid] at hg
      cases hg
    | some gid =>
      refine hfound [gid] (nodup_singleton _) ?_
      intro q _ g sId pId oId hids
      have hg := (quadIds_eq_some.mp hids).1
      have hgid' := graphId_eq_some.mp hgid
      rw [mem_singleton]
      constructor
      · intro heq name' hname
        cases hname
        rw [heq, hgid'] at hg
        exact (Option.some.inj hg).symm
      · intro hall
        rw [hall name rfl, ← graphId_eq_some, hgid] at hg
        exact (Option.some.inj hg).symm

/-- `quads_for_pattern` returns every live quad that matches the pattern, each
once. -/
theorem quadsForPattern_spec (h : Inv Knows n s) (subject : Option Term)
    (predicate : Option NamedNode) (object : Option Term) (graphName : Option GraphName)
    (hs : Returns A n s.dict subject) (ho : (∀ t, subject = some t → n.termId t ≠ none) →
      (∀ p, predicate = some p → n.termId (.namedNode p) ≠ none) → Returns A n s.dict object) :
    ReturnsQuads Knows n s (PatternMatches subject predicate object graphName)
      (quadsForPattern A s subject predicate object graphName) := by
  rcases readPattern_finds I h.knows (nodup_dedup _) (fun _ _ _ _ => h.graph_known)
    (scanGraph_spec I h) subject predicate object graphName hs ho
    with ⟨qs, d', hr, hd, hnodup, hmem⟩
  refine ⟨qs, d', ?_, hd, hnodup, hmem⟩
  rw [quadsForPattern_eq]
  exact congrArg _ hr

end

end LoudsStore

end Nova
