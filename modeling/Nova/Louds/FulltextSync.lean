import Nova.Lib.DocIndex
import Nova.Louds.Fulltext

/-!
# The index and the rings

`Synced` is what the index is for: one document for each quad of the rings whose object
is a literal, and no other. In terms of keys the documents index the base of the store
(`synced_iff`), and a compaction, which marks the keys of the delta one after another,
leaves them an index of the live keys, which are the new base.

A bulk load that brings a literal to the rings while full-text search is enabled bypasses
the index. The runs over these calls, and what a marker hides from every later
`enableFulltext`, are in `Nova.Louds.FulltextRuns`.
-/

namespace Nova

open Nova.Lib List
open Wal (WalRecord)

/-! ## Documents of keys -/

/-- The document of a key whose object is a literal. -/
def docOf (n : Names) (k : Nat) : Option Document :=
  let (g, sId, pId, oId) := unpackQuad k
  ((n.term oId).bind literalText).map (documentOf g sId pId oId)

@[simp] theorem docOf_packQuad (n : Names) (g : GraphId) (sId pId oId : TermId) :
    docOf n (packQuad g sId pId oId) = ((n.term oId).bind literalText).map (documentOf g sId pId oId) := by
  rw [docOf, unpackQuad_packQuad]

theorem docOf_quadKey {n : Names} {q : Quad} {k : Nat} {doc : Document} (hq : n.keyOf q = some k)
    (h : docOf n k = some doc) : doc.quadKey = k := by
  rcases Names.keyOf_eq_some.mp hq with ⟨g, sId, pId, oId, -, rfl⟩
  rw [docOf_packQuad] at h
  rcases Option.map_eq_some_iff.mp h with ⟨text, -, rfl⟩
  rfl

/-- The documents index the keys. -/
abbrev IndexOf (n : Names) (ks : Finset Nat) (docs : List Document) : Prop :=
  Indexes Document.quadKey (docOf n) ks docs

theorem docOf_of_le {n n' : Names} (hle : n.Le n') {k : Nat} {q : Quad} (hq : n.keyOf q = some k) :
    docOf n' k = docOf n k := by
  rcases Names.keyOf_eq_some.mp hq with ⟨g, sId, pId, oId, hids, rfl⟩
  have ho := (Names.quadIds_eq_some.mp hids).2.2.2
  rw [docOf_packQuad, docOf_packQuad, ho, Names.term_of_le hle ho]

theorem IndexOf.of_le {n n' : Names} {ks : Finset Nat} {docs : List Document} (h : IndexOf n ks docs)
    (hle : n.Le n') (hkeys : ∀ k ∈ ks, ∃ q, n.keyOf q = some k) : IndexOf n' ks docs := by
  refine h.congr (fun _ _ _ => Iff.rfl) ?_
  intro k doc hk
  rcases hkeys k hk with ⟨q, hq⟩
  rw [docOf_of_le hle hq]

/-! ## Feeding the index -/

section Feeding

variable {D : Type} {A : DictApi D} {Knows : D → Names → Prop} {CompactOk : Names → Prop}
variable {n : Names} {d : D} {ft : FulltextIndex} {ks : Finset Nat}

/-- What reading the dictionary and writing to the index leave: a dictionary with the
same names, and a writer that indexes the keys. Nothing is committed. -/
structure Fed (A : DictApi D) (Knows : D → Names → Prop) (n : Names) (d : D) (ft : FulltextIndex)
    (ks : Finset Nat) (x : FulltextIndex × D) : Prop where
  knows : Knows x.2 n
  committed : x.1.committed = ft.committed
  writer : IndexOf n ks x.1.writer
  read : ∀ P : D → Prop, (∀ d id r d', A.getTermArc d id = .ok (r, d') → P d → P d') → P d → P x.2

theorem Fed.trans {ks' : Finset Nat} {x y : FulltextIndex × D} (h : Fed A Knows n d ft ks x)
    (h' : Fed A Knows n x.2 x.1 ks' y) : Fed A Knows n d ft ks' y where
  knows := h'.knows
  committed := h'.committed.trans h.committed
  writer := h'.writer
  read := fun P hP hd => h'.read P hP (h.read P hP hd)

variable (I : Implements A Knows CompactOk)
include I

theorem indexQuadInsert_spec (hd : Knows d n) (h : IndexOf n ks ft.writer) (g : GraphId) (sId pId oId : TermId) :
    ∃ x, indexQuadInsert A d ft g sId pId oId = .ok x ∧
      Fed A Knows n d ft (insert (packQuad g sId pId oId) ks) x := by
  rcases I.getTermArc d n oId hd with ⟨d', hr, hd'⟩
  rw [indexQuadInsert, hr]
  simp only [ok_bind]
  cases htext : (n.term oId).bind literalText with
  | none =>
    have hnone : docOf n (packQuad g sId pId oId) = none := by rw [docOf_packQuad, htext]; rfl
    exact ⟨_, rfl, hd', rfl, h.skip hnone, fun P hP => hP _ _ _ _ hr⟩
  | some text =>
    have hdoc : docOf n (documentOf g sId pId oId text).quadKey = some (documentOf g sId pId oId text) := by
      rw [show (documentOf g sId pId oId text).quadKey = packQuad g sId pId oId from rfl, docOf_packQuad, htext]
      rfl
    exact ⟨_, rfl, hd', rfl, h.add hdoc, fun P hP => hP _ _ _ _ hr⟩

theorem indexEntries_spec : ∀ {entries : List (Nat × Bool)} {d : D} {ft : FulltextIndex} {ks : Finset Nat},
    Knows d n → IndexOf n ks ft.writer → (∀ e ∈ entries, ∃ q, n.keyOf q = some e.1) →
    ∃ x, indexEntries A d ft entries = .ok x ∧ Fed A Knows n d ft (markAll ks entries) x := by
  intro entries
  induction entries with
  | nil => exact fun hd h _ => ⟨_, rfl, hd, rfl, h, fun P _ hP => hP⟩
  | cons e entries ih =>
    intro d ft ks hd h hkeys
    rcases forall_mem_cons.mp hkeys with ⟨⟨q, hq⟩, hrest⟩
    rcases e with ⟨k, b⟩
    rcases Names.keyOf_eq_some.mp hq with ⟨g, sId, pId, oId, -, hk⟩
    subst hk
    rw [indexEntries, unpackQuad_packQuad]
    cases b with
    | true =>
      rcases indexQuadInsert_spec I hd h g sId pId oId with ⟨x, hr, hx⟩
      rcases ih hx.knows hx.writer hrest with ⟨y, hr', hy⟩
      refine ⟨y, ?_, hx.trans hy⟩
      simp only [if_true, hr]
      exact hr'
    | false =>
      have hwriter : IndexOf n _ (indexQuadRemove ft g sId pId oId).writer := h.delete (packQuad g sId pId oId)
      rcases ih hd hwriter hrest with ⟨y, hr', hy⟩
      exact ⟨y, hr', hy.knows, hy.committed, hy.writer, hy.read⟩

theorem rebuildGraph_spec (g : GraphId) : ∀ {triples : List Row} {d : D} {ft : FulltextIndex} {ks : Finset Nat},
    Knows d n → IndexOf n ks ft.writer → (∀ t ∈ triples, LoudsStore.RowsKnown n g t) →
    ∃ x, rebuildGraph A g d ft triples = .ok x ∧
      Fed A Knows n d ft (ks ∪ (triples.map (LoudsStore.rowKey g)).toFinset) x := by
  intro triples
  induction triples with
  | nil => exact fun hd h _ => ⟨_, rfl, hd, rfl, by simpa using h, fun P _ hP => hP⟩
  | cons t triples ih =>
    intro d ft ks hd h hrows
    rcases forall_mem_cons.mp hrows with ⟨⟨q, sId, pId, oId, -, rfl⟩, hrest⟩
    rcases indexQuadInsert_spec I hd h g sId pId oId with ⟨x, hr, hx⟩
    rcases ih hx.knows hx.writer hrest with ⟨y, hr', hy⟩
    have hid : ∀ id : TermId, ringId id.asU64 = .ok id := by
      intro id
      rw [ringId, TermId.new_asU64]
    refine ⟨y, ?_, ?_⟩
    · simp only [LoudsStore.rowOf, rebuildGraph, hid]
      show (Except.mapError Fault.panic (indexQuadInsert A d ft g sId pId oId) >>= _) = _
      rw [hr]
      exact hr'
    · rw [map_cons, toFinset_cons, LoudsStore.rowKey_rowOf, Finset.union_insert, ← Finset.insert_union]
      exact hx.trans hy

theorem rebuildGraphs_spec : ∀ {graphs : List (GraphId × GraphRing)} {d : D} {ft : FulltextIndex}
    {ks : Finset Nat},
    Knows d n → IndexOf n ks ft.writer → (∀ e ∈ graphs, ∀ t ∈ e.2.spoTriples, LoudsStore.RowsKnown n e.1 t) →
    ∃ x, rebuildGraphs A d ft graphs = .ok x ∧ Fed A Knows n d ft
      (ks ∪ (graphs.flatMap fun e => e.2.spoTriples.map (LoudsStore.rowKey e.1)).toFinset) x := by
  intro graphs
  induction graphs with
  | nil => exact fun hd h _ => ⟨_, rfl, hd, rfl, by simpa using h, fun P _ hP => hP⟩
  | cons e graphs ih =>
    intro d ft ks hd h hrows
    rcases forall_mem_cons.mp hrows with ⟨hfirst, hrest⟩
    rcases rebuildGraph_spec I e.1 hd h hfirst with ⟨x, hr, hx⟩
    rcases ih hx.knows hx.writer hrest with ⟨y, hr', hy⟩
    refine ⟨y, ?_, ?_⟩
    · rw [rebuildGraphs, hr]
      exact hr'
    · rw [flatMap_cons, toFinset_append, ← Finset.union_assoc]
      exact hx.trans hy

theorem rebuildAll_spec {s : LoudsStore D} (h : LoudsStore.Inv Knows n s) (ft : FulltextIndex) :
    ∃ x, rebuildAll A s.dict s.graphs ft = .ok x ∧ Fed A Knows n s.dict ft.clear s.view.base x := by
  have hrows : ∀ e ∈ s.graphs.toList, ∀ t ∈ e.2.spoTriples, LoudsStore.RowsKnown n e.1 t := by
    intro e he t ht
    have hring := Std.TreeMap.mem_toList_iff_getElem?_eq_some.mp he
    exact h.rows e.1 e.2 hring t (GraphRing.mem_triples.mpr ht)
  have hclear : IndexOf n ∅ ft.clear.writer := indexes_nil
  rcases rebuildGraphs_spec I h.knows hclear hrows with ⟨x, hr, hx⟩
  exact ⟨x, hr, hx⟩

end Feeding

/-! ## What the index is for -/

namespace LoudsStore

variable {D : Type} (A : DictApi D)

/-- The rings hold the quad. -/
def isCompacted (s : LoudsStore D) (q : Quad) : Bool :=
  match lookupQuad A s.dict q with
  | .ok (some (g, sId, pId, oId)) => s.ringContains g sId pId oId
  | _ => false

/-- The document of a quad of the rings whose object is a literal. -/
def documentFor (s : LoudsStore D) (q : Quad) : Option Document :=
  match lookupQuad A s.dict q with
  | .ok (some (g, sId, pId, oId)) =>
    if s.ringContains g sId pId oId then (literalText q.object).map (documentOf g sId pId oId) else none
  | _ => none

/-- One document for each quad of the rings whose object is a literal, and no other. -/
structure Synced (s : LoudsStore D) (docs : List Document) : Prop where
  one : ∀ q doc, documentFor A s q = some doc → docs.count doc = 1
  only : ∀ doc ∈ docs, ∃! q, documentFor A s q = some doc

variable {A} {Knows : D → Names → Prop} {CompactOk : Names → Prop} {n : Names} {s : LoudsStore D} {q : Quad}

section

variable (I : Implements A Knows CompactOk)
include I

theorem isCompacted_iff (h : Inv Knows n s) :
    isCompacted A s q = true ↔ ∃ k ∈ s.view.base, n.keyOf q = some k := by
  rw [isCompacted, lookupQuad_spec I h.knows]
  constructor
  · intro hin
    split at hin
    · next g sId pId oId hl =>
      rcases n.lookupQuad_cases q with hr | ⟨-, -, p, hr⟩
      · rw [hl] at hr
        exact ⟨_, h.mem_base.mpr hin, Names.keyOf_eq_some.mpr ⟨g, sId, pId, oId, (Except.ok.inj hr).symm, rfl⟩⟩
      · rw [hl] at hr
        cases hr
    · cases hin
  · rintro ⟨k, hk, hq⟩
    rcases Names.keyOf_eq_some.mp hq with ⟨g, sId, pId, oId, hids, rfl⟩
    rw [Names.lookupQuad_known hids]
    exact h.mem_base.mp hk

theorem documentFor_eq_some (h : Inv Knows n s) {doc : Document} :
    documentFor A s q = some doc ↔ ∃ k ∈ s.view.base, n.keyOf q = some k ∧ docOf n k = some doc := by
  rw [documentFor, lookupQuad_spec I h.knows]
  constructor
  · intro hdoc
    split at hdoc
    · next g sId pId oId hl =>
      rcases n.lookupQuad_cases q with hr | ⟨-, -, p, hr⟩
      · rw [hl] at hr
        have hids := (Except.ok.inj hr).symm
        by_cases hin : s.ringContains g sId pId oId = true
        · rw [if_pos hin] at hdoc
          refine ⟨_, h.mem_base.mpr hin, Names.keyOf_eq_some.mpr ⟨g, sId, pId, oId, hids, rfl⟩, ?_⟩
          rw [docOf_packQuad, (Names.quadIds_eq_some.mp hids).2.2.2]
          exact hdoc
        · rw [if_neg hin] at hdoc
          cases hdoc
      · rw [hl] at hr
        cases hr
    · cases hdoc
  · rintro ⟨k, hk, hq, hdoc⟩
    rcases Names.keyOf_eq_some.mp hq with ⟨g, sId, pId, oId, hids, rfl⟩
    rw [Names.lookupQuad_known hids]
    rw [docOf_packQuad, (Names.quadIds_eq_some.mp hids).2.2.2] at hdoc
    simp only [if_pos (h.mem_base.mp hk)]
    exact hdoc

/-- In terms of keys. -/
theorem synced_iff (h : Inv Knows n s) {docs : List Document} : Synced A s docs ↔ IndexOf n s.view.base docs := by
  constructor
  · intro hs
    have hkey : ∀ doc ∈ docs, doc.quadKey ∈ s.view.base ∧ docOf n doc.quadKey = some doc := by
      intro doc hdoc
      rcases hs.only doc hdoc with ⟨q, hq, -⟩
      rcases (documentFor_eq_some I h).mp hq with ⟨k, hk, hkq, hd⟩
      rw [docOf_quadKey hkq hd]
      exact ⟨hk, hd⟩
    refine ⟨?_, fun doc => ⟨hkey doc, fun hin => ?_⟩⟩
    · apply List.Nodup.map_on
      · intro x hx y hy heq
        have hdx := (hkey x hx).2
        rw [heq, (hkey y hy).2] at hdx
        exact (Option.some.inj hdx).symm
      · rw [nodup_iff_count_le_one]
        intro doc
        by_cases hin : doc ∈ docs
        · rcases hs.only doc hin with ⟨q, hq, -⟩
          exact (hs.one q doc hq).le
        · rw [count_eq_zero_of_not_mem hin]
          exact Nat.zero_le 1
    · rcases h.base_keys hin.1 with ⟨q, hq⟩
      have hone := hs.one q doc ((documentFor_eq_some I h).mpr ⟨_, hin.1, hq, hin.2⟩)
      exact count_pos_iff.mp (by omega)
  · intro hi
    refine ⟨fun q doc hdoc => ?_, fun doc hdoc => ?_⟩
    · rcases (documentFor_eq_some I h).mp hdoc with ⟨k, hk, hkq, hd⟩
      have hin : doc ∈ docs := by
        rw [hi.mem, docOf_quadKey hkq hd]
        exact ⟨hk, hd⟩
      exact count_eq_one_of_mem (hi.unique.of_map _) hin
    · rcases (hi.mem doc).mp hdoc with ⟨hk, hd⟩
      rcases h.base_keys hk with ⟨q, hq⟩
      refine ⟨q, (documentFor_eq_some I h).mpr ⟨_, hk, hq, hd⟩, fun q' hq' => ?_⟩
      rcases (documentFor_eq_some I h).mp hq' with ⟨k', -, hkq', hd'⟩
      rw [docOf_quadKey hkq' hd'] at hq
      exact Names.keyOf_inj hkq' hq

end

end LoudsStore

end Nova
