import Nova.Louds.Store
import Nova.Lib.Overlay

/-!
# The store invariant and the write path

`view` reads the store as a set of keys with pending changes: the rings are the
base, the delta the pending inserts and removals. `Inv` says that every key in
there belongs to a quad whose names the dictionary knows. One lemma for each
write says which change of the view it makes: `applyInsert_spec`,
`applyRemove_spec`, `compactLocked_spec`, `bulkLoad_spec`.
-/

namespace Nova

open Nova.Lib List GraphRing Delta

namespace LoudsStore

variable {D : Type} {A : DictApi D} {Knows : D → Names → Prop} {CompactOk : Names → Prop}
variable {n : Names} {s : LoudsStore D} {q : Quad}

/-! ## Keys -/

@[simp] theorem idOrZero_asU64 (id : TermId) : idOrZero id.asU64 = id := by
  simp [idOrZero]

@[simp] theorem unwrapId_asU64 (id : TermId) : unwrapId id.asU64 = .ok id := by
  simp [unwrapId]

@[simp] theorem rowKey_rowOf (g : GraphId) (sId pId oId : TermId) :
    rowKey g (rowOf sId pId oId) = packQuad g sId pId oId := by
  simp [rowKey, rowOf]

theorem rowOf_injective {s s' p p' o o' : TermId} (h : rowOf s p o = rowOf s' p' o') :
    s = s' ∧ p = p' ∧ o = o' := by
  simp only [rowOf, Prod.mk.injEq] at h
  exact ⟨TermId.eq_of_asU64 h.1, TermId.eq_of_asU64 h.2.1, TermId.eq_of_asU64 h.2.2⟩

/-- The keys of all triples in the rings. -/
def ringKeys (s : LoudsStore D) : List Nat :=
  s.graphs.toList.flatMap fun e => e.2.spoTriples.map (rowKey e.1)

def view (s : LoudsStore D) : Overlay Nat where
  base := s.ringKeys.toFinset
  inserted := s.delta.marked true
  removed := s.delta.marked false
  disjoint := s.delta.marked_disjoint

/-- Triples whose ids are the ids of a quad in graph `g`. -/
def RowsKnown (n : Names) (g : GraphId) (t : Row) : Prop :=
  ∃ q sId pId oId, n.quadIds q = some (g, sId, pId, oId) ∧ t = rowOf sId pId oId

structure Inv (Knows : D → Names → Prop) (n : Names) (s : LoudsStore D) : Prop where
  knows : Knows s.dict n
  rows : ∀ g ring, s.graphs[g]? = some ring → ∀ t ∈ ring.triples, RowsKnown n g t
  keys : ∀ k b, s.delta.get k = some b → ∃ q, n.keyOf q = some k

theorem RowsKnown.of_le {n n' : Names} (hle : n.Le n') {g : GraphId} {t : Row}
    (h : RowsKnown n g t) : RowsKnown n' g t := by
  rcases h with ⟨q, sId, pId, oId, hids, ht⟩
  exact ⟨q, sId, pId, oId, Names.quadIds_of_le hle hids, ht⟩

theorem RowsKnown.exists_key {g : GraphId} {t : Row} (h : RowsKnown n g t) :
    ∃ q, n.keyOf q = some (rowKey g t) := by
  rcases h with ⟨q, sId, pId, oId, hids, rfl⟩
  exact ⟨q, Names.keyOf_eq_some.mpr ⟨g, sId, pId, oId, hids, by rw [rowKey_rowOf]⟩⟩

theorem inv_new {d : D} (h : Knows d n) : Inv Knows n (new d) where
  knows := h
  rows := by
    intro g ring hring
    simp [new] at hring
  keys := by
    intro k b hk
    simp [new] at hk

theorem Inv.with_dict (h : Inv Knows n s) {n' : Names} {d' : D} (hle : n.Le n')
    (hd : Knows d' n') : Inv Knows n' { s with dict := d' } where
  knows := hd
  rows := fun g ring hring t ht => (h.rows g ring hring t ht).of_le hle
  keys := by
    intro k b hk
    rcases h.keys k b hk with ⟨q, hq⟩
    exact ⟨q, Names.keyOf_of_le hle hq⟩

theorem Inv.mem_base (h : Inv Knows n s) {g : GraphId} {sId pId oId : TermId} :
    packQuad g sId pId oId ∈ s.view.base ↔ s.ringContains g sId pId oId = true := by
  rw [view, mem_toFinset, ringKeys, mem_flatMap, ringContains]
  constructor
  · intro hmem
    rcases hmem with ⟨⟨g', ring⟩, he, ht⟩
    rcases mem_map.mp ht with ⟨t, ht, hkey⟩
    have hring := Std.TreeMap.mem_toList_iff_getElem?_eq_some.mp he
    have hmem := mem_triples.mpr ht
    rcases h.rows g' ring hring t hmem with ⟨q, s', p', o', -, rfl⟩
    rw [rowKey_rowOf] at hkey
    rcases packQuad_injective hkey with ⟨rfl, rfl, rfl, rfl⟩
    rw [hring]
    exact contains_iff.mpr hmem
  · intro hin
    cases hring : s.graphs[g]? with
    | none =>
      rw [hring] at hin
      cases hin
    | some ring =>
      rw [hring] at hin
      refine ⟨(g, ring), Std.TreeMap.mem_toList_iff_getElem?_eq_some.mpr hring, ?_⟩
      refine mem_map.mpr ⟨rowOf sId pId oId, ?_, rowKey_rowOf g sId pId oId⟩
      exact mem_triples.mp (contains_iff.mp hin)

variable {k : Nat}

section

variable (h : Inv Knows n s)
include h

theorem Inv.base_keys (hk : k ∈ s.view.base) : ∃ q, n.keyOf q = some k := by
  rw [view, mem_toFinset, ringKeys, mem_flatMap] at hk
  rcases hk with ⟨⟨g, ring⟩, he, hmem⟩
  rcases mem_map.mp hmem with ⟨t, ht, rfl⟩
  have hring := Std.TreeMap.mem_toList_iff_getElem?_eq_some.mp he
  exact (h.rows g ring hring t (mem_triples.mpr ht)).exists_key

theorem Inv.live_keys (hk : k ∈ s.view.live) : ∃ q, n.keyOf q = some k := by
  rcases Overlay.mem_live.mp hk with hins | ⟨-, hbase⟩
  · exact h.keys k true (mem_marked.mp hins)
  · exact h.base_keys hbase

theorem Inv.live_iff {g : GraphId} {sId pId oId : TermId} : packQuad g sId pId oId ∈ s.view.live ↔
      s.delta.get (packQuad g sId pId oId) = some true ∨
        s.delta.get (packQuad g sId pId oId) = none ∧ s.ringContains g sId pId oId = true := by
  rw [Overlay.mem_live, h.mem_base]
  simp only [view, mem_marked]
  cases s.delta.get (packQuad g sId pId oId) with
  | none => simp
  | some b => cases b <;> simp

theorem Inv.ringKeys_nodup : s.ringKeys.Nodup := by
  have hkeys : s.graphs.toList.Pairwise fun e e' => e.1 ≠ e'.1 := by
    refine Std.TreeMap.distinct_keys_toList.imp ?_
    intro a b hab heq
    exact hab (by rw [heq]; exact Std.ReflCmp.compare_self)
  rw [ringKeys, nodup_flatMap]
  constructor
  · intro e he
    have hring := Std.TreeMap.mem_toList_iff_getElem?_eq_some.mp he
    refine List.Nodup.map_on ?_ e.2.spoTriples_nodup
    intro t ht t' ht' hkey
    rcases h.rows e.1 e.2 hring t (mem_triples.mpr ht) with ⟨q, s₁, p₁, o₁, -, rfl⟩
    rcases h.rows e.1 e.2 hring t' (mem_triples.mpr ht') with ⟨q', s₂, p₂, o₂, -, rfl⟩
    rw [rowKey_rowOf, rowKey_rowOf] at hkey
    rcases packQuad_injective hkey with ⟨-, rfl, rfl, rfl⟩
    rfl
  · refine hkeys.imp ?_
    intro e e' hne k hk hk'
    rcases mem_map.mp hk with ⟨t, -, hkey⟩
    rcases mem_map.mp hk' with ⟨t', -, hkey'⟩
    exact hne (packQuad_injective (hkey.trans hkey'.symm)).1

/-- `len` and `triple_count` compute with the three sizes. -/
theorem Inv.len_eq : s.len = s.view.base.card - s.view.removed.card + s.view.inserted.card := by
  have hbase : s.view.base.card = (s.graphs.toList.map fun e => e.2.n).sum := by
    rw [view, toFinset_card_of_nodup h.ringKeys_nodup, ringKeys, length_flatMap]
    congr 1
    refine map_congr_left ?_
    intro e _
    rw [length_map, n_eq_card, GraphRing.triples,
      toFinset_card_of_nodup e.2.spoTriples_nodup]
  rw [hbase, len, insertCount_eq, tombstoneCount_eq]
  rfl

end

/-! ## Dictionary calls -/

section Calls

variable (I : Implements A Knows CompactOk)
include I

theorem intern_spec (h : Knows s.dict n) (t : Term) :
    ∃ d', intern A s t = ((n.intern t).1.mapError Fault.err, { s with dict := d' }) ∧
      Knows d' (n.intern t).2 := by
  rcases I.intern s.dict n t h with ⟨d', hr, hd⟩
  refine ⟨d', ?_, hd⟩
  rw [intern, hr]
  cases (n.intern t).1 with
  | error e => rfl
  | ok id => rfl

theorem internGraph_spec (h : Knows s.dict n) (g : GraphName) :
    ∃ d', internGraph A s g = ((n.internGraph g).1.mapError Fault.err, { s with dict := d' }) ∧
      Knows d' (n.internGraph g).2 := by
  rcases I.internGraph s.dict n g h with ⟨d', hr, hd⟩
  refine ⟨d', ?_, hd⟩
  rw [internGraph, hr]
  cases (n.internGraph g).1 with
  | error e => rfl
  | ok id => rfl

theorem internQuad_spec (h : Knows s.dict n) (q : Quad) :
    ∃ d', internQuad A s q = ((n.internQuad q).1.mapError Fault.err, { s with dict := d' }) ∧
      Knows d' (n.internQuad q).2 := by
  rw [internQuad, Names.internQuad]
  -- graph
  rcases internGraph_spec I h q.graphName with ⟨d₁, h₁, hd₁⟩
  rcases hn₁ : n.internGraph q.graphName with ⟨r₁, n₁⟩
  rw [hn₁] at h₁ hd₁
  simp only [h₁]
  cases r₁ with
  | error e => exact ⟨d₁, rfl, hd₁⟩
  | ok g =>
    -- subject
    rcases intern_spec (s := { s with dict := d₁ }) I hd₁ q.subject.toTerm with ⟨d₂, h₂, hd₂⟩
    rcases hn₂ : n₁.intern q.subject.toTerm with ⟨r₂, n₂⟩
    rw [hn₂] at h₂ hd₂
    simp only [andThen, Except.mapError, h₂, hn₂]
    cases r₂ with
    | error e => exact ⟨d₂, rfl, hd₂⟩
    | ok sId =>
      -- predicate
      rcases intern_spec (s := { s with dict := d₂ }) I hd₂ (.namedNode q.predicate)
        with ⟨d₃, h₃, hd₃⟩
      rcases hn₃ : n₂.intern (.namedNode q.predicate) with ⟨r₃, n₃⟩
      rw [hn₃] at h₃ hd₃
      simp only [Except.mapError, h₃, hn₃]
      cases r₃ with
      | error e => exact ⟨d₃, rfl, hd₃⟩
      | ok pId =>
        -- object
        rcases intern_spec (s := { s with dict := d₃ }) I hd₃ q.object with ⟨d₄, h₄, hd₄⟩
        rcases hn₄ : n₃.intern q.object with ⟨r₄, n₄⟩
        rw [hn₄] at h₄ hd₄
        simp only [Except.mapError, h₄, hn₄]
        cases r₄ with
        | error e => exact ⟨d₄, rfl, hd₄⟩
        | ok oId => exact ⟨d₄, rfl, hd₄⟩

theorem lookupQuad_spec {d : D} (h : Knows d n) (q : Quad) : lookupQuad A d q = n.lookupQuad q := by
  unfold lookupQuad
  rw [I.getGraphId d n q.graphName h, I.getId d n q.subject.toTerm h,
    I.getId d n (.namedNode q.predicate) h, I.getId d n q.object h]
  rfl

end Calls

/-! ## Writes to the delta -/

/-- A step that adds names and makes the view `v`. -/
structure Next (Knows : D → Names → Prop) (n n' : Names) (s s' : LoudsStore D) (v : Overlay Nat) :
    Prop where
  le : n.Le n'
  inv : Inv Knows n' s'
  view : s'.view = v
  auto : s'.autoCompactThreshold = s.autoCompactThreshold

theorem view_insertKey (s : LoudsStore D) (k : Nat) :
    view { s with delta := s.delta.insertKey k } = s.view.insert k := by
  simp only [view, Overlay.insert, Overlay.mk.injEq]
  refine ⟨rfl, ?_, ?_⟩
  · ext x
    rw [Finset.mem_insert, mem_marked, mem_marked, get_insertKey]
    by_cases hx : k = x
    · simp [hx]
    · simp [hx, Ne.symm hx]
  · ext x
    rw [Finset.mem_erase, mem_marked, mem_marked, get_insertKey]
    by_cases hx : k = x
    · simp [hx]
    · simp [hx, Ne.symm hx]

theorem view_tombstoneKey (s : LoudsStore D) (k : Nat) :
    view { s with delta := s.delta.tombstoneKey k } = s.view.remove k := by
  simp only [view, Overlay.remove, Overlay.mk.injEq]
  refine ⟨rfl, ?_, ?_⟩
  · ext x
    rw [Finset.mem_erase, mem_marked, mem_marked, get_tombstoneKey]
    by_cases hx : k = x
    · simp [hx]
    · simp [hx, Ne.symm hx]
  · ext x
    rw [Finset.mem_insert, mem_marked, mem_marked, get_tombstoneKey]
    by_cases hx : k = x
    · simp [hx]
    · simp [hx, Ne.symm hx]

theorem Inv.insertKey (h : Inv Knows n s) (hq : n.keyOf q = some k) :
    Inv Knows n { s with delta := s.delta.insertKey k } where
  knows := h.knows
  rows := h.rows
  keys := by
    intro k' b hk
    rw [get_insertKey] at hk
    by_cases heq : k = k'
    · exact ⟨q, by rw [← heq, hq]⟩
    · rw [if_neg heq] at hk
      exact h.keys k' b hk

theorem Inv.tombstoneKey (h : Inv Knows n s) (hq : n.keyOf q = some k) :
    Inv Knows n { s with delta := s.delta.tombstoneKey k } where
  knows := h.knows
  rows := h.rows
  keys := by
    intro k' b hk
    rw [get_tombstoneKey] at hk
    by_cases heq : k = k'
    · exact ⟨q, by rw [← heq, hq]⟩
    · rw [if_neg heq] at hk
      exact h.keys k' b hk

theorem Inv.with_named (h : Inv Knows n s) (ids : List GraphId) :
    Inv Knows n { s with namedGraphIds := ids } :=
  ⟨h.knows, h.rows, h.keys⟩

/-- The view after inserting a key: only a key that is not live changes it. -/
def viewInsert (v : Overlay Nat) (k : Nat) : Overlay Nat := if k ∈ v.live then v else v.insert k

/-- The view after removing a key: only a live key changes it. -/
def viewRemove (v : Overlay Nat) (k : Nat) : Overlay Nat := if k ∈ v.live then v.remove k else v

section Writes

variable (I : Implements A Knows CompactOk)
include I

/-- An insert fails exactly where the names do not fit, and then changes
nothing but the names. -/
theorem applyInsert_error (h : Inv Knows n s) {e : Oxigraph} (he : (n.internQuad q).1 = .error e) :
    ∃ s', applyInsert A s q = (.error (.err e), s') ∧
      Next Knows n (n.internQuad q).2 s s' s.view := by
  rcases internQuad_spec I h.knows q with ⟨d', hr, hd⟩
  have hle := (n.internQuad_spec q).1
  refine ⟨{ s with dict := d' }, ?_, hle, h.with_dict hle hd, rfl, rfl⟩
  rw [applyInsert, hr, he]
  rfl

/-- An insert returns whether the quad was absent, and makes it present. -/
theorem applyInsert_ok (h : Inv Knows n s) {ids : GraphId × TermId × TermId × TermId}
    (hids : (n.internQuad q).1 = .ok ids) :
    ∃ k s', (n.internQuad q).2.keyOf q = some k ∧
      applyInsert A s q = (.ok (decide (k ∉ s.view.live)), s') ∧
      Next Knows n (n.internQuad q).2 s s' (viewInsert s.view k) := by
  rcases internQuad_spec I h.knows q with ⟨d', hr, hd⟩
  have hle := (n.internQuad_spec q).1
  have hq := (n.internQuad_spec q).2 ids hids
  have h' := h.with_dict hle hd
  rcases ids with ⟨g, sId, pId, oId⟩
  have hkey : (n.internQuad q).2.keyOf q = some (packQuad g sId pId oId) :=
    Names.keyOf_eq_some.mpr ⟨g, sId, pId, oId, hq, rfl⟩
  have hlive := @Inv.live_iff _ _ _ _ h' g sId pId oId
  have hview : view { s with dict := d' } = s.view := rfl
  rw [hview] at hlive
  refine ⟨packQuad g sId pId oId, ?_⟩
  rw [applyInsert, hr, hids]
  simp only [Except.mapError, andThen]
  cases hget : s.delta.get (packQuad g sId pId oId) with
  | some b =>
    rw [hget] at hlive
    cases b with
    | true =>
      -- pending insert: nothing to do
      have hin : packQuad g sId pId oId ∈ s.view.live := hlive.mpr (.inl rfl)
      refine ⟨_, hkey, by simp [hin], hle, h', ?_, rfl⟩
      rw [viewInsert, if_pos hin]
      rfl
    | false =>
      -- pending removal: it is taken back
      have hout : packQuad g sId pId oId ∉ s.view.live := by
        rw [hlive]
        simp
      refine ⟨_, hkey, by simp [hout], hle, h'.insertKey hkey, ?_, rfl⟩
      rw [viewInsert, if_neg hout]
      exact view_insertKey { s with dict := d' } _
  | none =>
    rw [hget] at hlive
    cases hring : ringContains { s with dict := d' } g sId pId oId with
    | true =>
      -- in the ring
      have hin : packQuad g sId pId oId ∈ s.view.live := hlive.mpr (.inr ⟨rfl, hring⟩)
      refine ⟨_, hkey, by simp [hin], hle, h', ?_, rfl⟩
      rw [viewInsert, if_pos hin]
      rfl
    | false =>
      -- new: the graph is registered if it is named by an IRI
      have hout : packQuad g sId pId oId ∉ s.view.live := by
        rw [hlive, hring]
        simp
      have hnew := h'.insertKey hkey
      rw [viewInsert, if_neg hout]
      cases hgraph : q.graphName with
      | namedNode name =>
        refine ⟨_, hkey, ?_, hle, hnew.with_named (s.namedGraphIds.insert g), ?_, rfl⟩
        · simp [hout]
        · exact view_insertKey { s with dict := d' } _
      | defaultGraph =>
        refine ⟨_, hkey, by simp [hout], hle, hnew, ?_, rfl⟩
        exact view_insertKey { s with dict := d' } _
      | blankNode b =>
        refine ⟨_, hkey, by simp [hout], hle, hnew, ?_, rfl⟩
        exact view_insertKey { s with dict := d' } _

/-- A remove of a quad with known names returns whether it was present, and
makes it absent. -/
theorem applyRemove_known (h : Inv Knows n s) (hk : n.keyOf q = some k) :
    ∃ s', applyRemove A s q = (.ok (decide (k ∈ s.view.live)), s') ∧
      Next Knows n n s s' (viewRemove s.view k) := by
  rcases Names.keyOf_eq_some.mp hk with ⟨g, sId, pId, oId, hids, rfl⟩
  have hlook : lookupQuad A s.dict q = .ok (some (g, sId, pId, oId)) := by
    rw [lookupQuad_spec I h.knows, Names.lookupQuad_known hids]
  have hlive := @Inv.live_iff _ _ _ _ h g sId pId oId
  rw [applyRemove, hlook]
  simp only
  cases hget : s.delta.get (packQuad g sId pId oId) with
  | some b =>
    rw [hget] at hlive
    cases b with
    | true =>
      have hin : packQuad g sId pId oId ∈ s.view.live := hlive.mpr (.inl rfl)
      refine ⟨_, by simp [hin], n.le_refl, h.tombstoneKey hk, ?_, rfl⟩
      rw [viewRemove, if_pos hin]
      exact view_tombstoneKey s _
    | false =>
      have hout : packQuad g sId pId oId ∉ s.view.live := by
        rw [hlive]
        simp
      refine ⟨_, by simp [hout], n.le_refl, h, ?_, rfl⟩
      rw [viewRemove, if_neg hout]
  | none =>
    rw [hget] at hlive
    cases hring : s.ringContains g sId pId oId with
    | true =>
      have hin : packQuad g sId pId oId ∈ s.view.live := hlive.mpr (.inr ⟨rfl, hring⟩)
      refine ⟨_, by simp [hin], n.le_refl, h.tombstoneKey hk, ?_, rfl⟩
      rw [viewRemove, if_pos hin]
      exact view_tombstoneKey s _
    | false =>
      have hout : packQuad g sId pId oId ∉ s.view.live := by
        rw [hlive, hring]
        simp
      refine ⟨_, by simp [hout], n.le_refl, h, ?_, rfl⟩
      rw [viewRemove, if_neg hout]

theorem applyRemove_unknown (h : Inv Knows n s) (hk : n.keyOf q = none) :
    applyRemove A s q = (match n.lookupQuad q with
      | .error p => .error (.panic p)
      | .ok _ => .ok false, s) := by
  rw [applyRemove, lookupQuad_spec I h.knows]
  rcases n.lookupQuad_cases q with hr | ⟨-, -, p, hr⟩
  · rw [hr, Names.keyOf_eq_none.mp hk]
  · rw [hr]

end Writes

/-! ## Merging -/

/-- The key of a collected triple. -/
def Collected (m : GraphMap (List Row)) (k : Nat) : Prop :=
  ∃ g sId pId oId, packQuad g sId pId oId = k ∧ ∃ ts, m[g]? = some ts ∧ rowOf sId pId oId ∈ ts

def AllKnown (n : Names) (m : GraphMap (List Row)) : Prop :=
  ∀ g ts, m[g]? = some ts → ∀ t ∈ ts, RowsKnown n g t

variable {m : GraphMap (List Row)}

theorem AllKnown.of_le {n' : Names} (hle : n.Le n') (h : AllKnown n m) : AllKnown n' m :=
  fun g ts hts t ht => (h g ts hts t ht).of_le hle

theorem collected_iff {g : GraphId} {sId pId oId : TermId} :
    Collected m (packQuad g sId pId oId) ↔ ∃ ts, m[g]? = some ts ∧ rowOf sId pId oId ∈ ts := by
  constructor
  · intro h
    rcases h with ⟨g', s', p', o', hkey, hts⟩
    rcases packQuad_injective hkey with ⟨rfl, rfl, rfl, rfl⟩
    exact hts
  · intro h
    exact ⟨g, sId, pId, oId, rfl, h⟩

theorem getElem?_alter_graph {α : Type} (m : GraphMap α) (g g' : GraphId) (f : Option α → Option α) :
    (m.alter g f)[g']? = if g = g' then f m[g]? else m[g']? := by
  rw [Std.TreeMap.getElem?_alter]
  simp only [Std.LawfulEqCmp.compare_eq_iff_eq]

/-- One entry decides its own key and no other. -/
theorem collected_mergeEntry (m : GraphMap (List Row)) (g : GraphId) (sId pId oId : TermId)
    (b : Bool) (g' : GraphId) (s' p' o' : TermId) :
    Collected (mergeEntry m (packQuad g sId pId oId, b)) (packQuad g' s' p' o') ↔
      if packQuad g' s' p' o' = packQuad g sId pId oId then b = true
      else Collected m (packQuad g' s' p' o') := by
  rw [collected_iff, collected_iff, mergeEntry, unpackQuad_packQuad]
  simp only [getElem?_alter_graph]
  by_cases hg : g = g'
  · rw [if_pos hg, ← hg]
    by_cases hrow : rowOf s' p' o' = rowOf sId pId oId
    · rcases rowOf_injective hrow with ⟨rfl, rfl, rfl⟩
      cases b <;> simp
    · have hne : packQuad g s' p' o' ≠ packQuad g sId pId oId := by
        intro heq
        rcases packQuad_injective heq with ⟨-, rfl, rfl, rfl⟩
        exact hrow rfl
      rw [if_neg hne]
      cases hm : m[g]? with
      | none => cases b <;> simp [hrow]
      | some ts => cases b <;> simp [hrow]
  · have hne : packQuad g' s' p' o' ≠ packQuad g sId pId oId := by
      intro heq
      exact hg (packQuad_injective heq).1.symm
    rw [if_neg hg, if_neg hne]

theorem AllKnown.mergeEntry (h : AllKnown n m) (hq : n.keyOf q = some k) (b : Bool) :
    AllKnown n (mergeEntry m (k, b)) := by
  rcases Names.keyOf_eq_some.mp hq with ⟨g, sId, pId, oId, hids, rfl⟩
  intro g' ts hts t ht
  rw [LoudsStore.mergeEntry, unpackQuad_packQuad] at hts
  simp only [getElem?_alter_graph] at hts
  by_cases hg : g = g'
  · rw [if_pos hg] at hts
    have hold : ∀ t ∈ m[g]?.getD [], RowsKnown n g t := by
      intro t ht
      cases hm : m[g]? with
      | none =>
        rw [hm] at ht
        cases ht
      | some ts' =>
        rw [hm] at ht
        exact h g ts' hm t ht
    rw [← hg]
    cases b with
    | true =>
      simp only [if_true, Option.some.injEq] at hts
      rw [← hts, mem_append, mem_singleton] at ht
      rcases ht with ht | rfl
      · exact hold t ht
      · exact ⟨q, sId, pId, oId, hids, rfl⟩
    | false =>
      simp only [Bool.false_eq_true, if_false, Option.some.injEq] at hts
      rw [← hts, mem_filter] at ht
      exact hold t ht.1
  · rw [if_neg hg] at hts
    exact h g' ts hts t ht

/-- The whole delta merged: the last word on a key is its entry's, if it has
one. -/
theorem merge_spec (entries : List (Nat × Bool)) (hnodup : (entries.map Prod.fst).Nodup)
    (hkeys : ∀ e ∈ entries, ∃ q, n.keyOf q = some e.1) :
    ∀ m, AllKnown n m → AllKnown n (entries.foldl LoudsStore.mergeEntry m) ∧
      ∀ g sId pId oId, Collected (entries.foldl LoudsStore.mergeEntry m) (packQuad g sId pId oId) ↔
        (packQuad g sId pId oId, true) ∈ entries ∨
          packQuad g sId pId oId ∉ entries.map Prod.fst ∧ Collected m (packQuad g sId pId oId) := by
  induction entries with
  | nil =>
    intro m hm
    exact ⟨hm, by simp⟩
  | cons e entries ih =>
    intro m hm
    rcases e with ⟨k, b⟩
    rcases hkeys (k, b) mem_cons_self with ⟨q, hq⟩
    rw [map_cons, nodup_cons] at hnodup
    rcases ih hnodup.2 (fun e he => hkeys e (mem_cons_of_mem _ he)) _ (hm.mergeEntry hq b)
      with ⟨hall, hiff⟩
    refine ⟨hall, ?_⟩
    intro g sId pId oId
    rw [foldl_cons, hiff]
    rcases Names.keyOf_eq_some.mp hq with ⟨g₀, s₀, p₀, o₀, -, rfl⟩
    rw [collected_mergeEntry]
    have hnot := hnodup.1
    simp only at hnot
    by_cases hk : packQuad g sId pId oId = packQuad g₀ s₀ p₀ o₀
    · -- no later entry has this key
      have hlater : (packQuad g₀ s₀ p₀ o₀, true) ∉ entries := fun hmem =>
        hnot (mem_map_of_mem hmem)
      rw [if_pos hk, hk]
      simp [hlater, hnot, eq_comm]
    · simp [hk]

theorem getElem?_perGraph (s : LoudsStore D) (g : GraphId) :
    s.perGraph[g]? = s.graphs[g]?.map GraphRing.spoTriples := by
  rw [perGraph, Std.TreeMap.getElem?_map]

theorem Inv.perGraph_known (h : Inv Knows n s) : AllKnown n s.perGraph := by
  intro g ts hts t ht
  rw [getElem?_perGraph] at hts
  rcases Option.map_eq_some_iff.mp hts with ⟨ring, hring, rfl⟩
  exact h.rows g ring hring t (mem_triples.mpr ht)

theorem collected_perGraph (s : LoudsStore D) {g : GraphId} {sId pId oId : TermId} :
    Collected s.perGraph (packQuad g sId pId oId) ↔ s.ringContains g sId pId oId = true := by
  rw [collected_iff, getElem?_perGraph, ringContains]
  cases s.graphs[g]? with
  | none => simp
  | some ring => simp [contains_iff, mem_triples, rowOf]

theorem getElem?_buildGraphs (m : GraphMap (List Row)) (g : GraphId) :
    (buildGraphsFromTriples m)[g]? =
      m[g]?.bind fun ts => if ts.isEmpty then none else some (ringBuild ts) := by
  rw [buildGraphsFromTriples, Std.TreeMap.getElem?_filterMap]
  cases m[g]? with
  | none => simp
  | some ts => simp

theorem Inv.commit (h : Inv Knows n s) (hm : AllKnown n m) (clearDelta : Bool) :
    Inv Knows n (s.commitCompaction (buildGraphsFromTriples m) clearDelta) where
  knows := h.knows
  rows := by
    intro g ring hring t ht
    simp only [commitCompaction, getElem?_buildGraphs] at hring
    rcases Option.bind_eq_some_iff.mp hring with ⟨ts, hts, hbuild⟩
    split at hbuild
    · cases hbuild
    · cases hbuild
      exact hm g ts hts t (mem_triples_ringBuild.mp ht)
  keys := by
    intro k b hk
    cases clearDelta with
    | true => simp [commitCompaction, Delta.clear] at hk
    | false => exact h.keys k b hk

theorem ringContains_commit (s : LoudsStore D) (m : GraphMap (List Row)) (clearDelta : Bool)
    (g : GraphId) (sId pId oId : TermId) :
    (s.commitCompaction (buildGraphsFromTriples m) clearDelta).ringContains g sId pId oId = true ↔
      Collected m (packQuad g sId pId oId) := by
  rw [collected_iff, ringContains, commitCompaction, getElem?_buildGraphs]
  cases m[g]? with
  | none => simp
  | some ts =>
    cases ts with
    | nil => simp
    | cons t ts => simp [contains_iff, mem_triples_ringBuild, rowOf]

theorem keys_ext {x y : Finset Nat} (hx : ∀ k ∈ x, ∃ q, n.keyOf q = some k)
    (hy : ∀ k ∈ y, ∃ q, n.keyOf q = some k)
    (h : ∀ g sId pId oId, packQuad g sId pId oId ∈ x ↔ packQuad g sId pId oId ∈ y) : x = y := by
  ext k
  constructor
  · intro hk
    rcases hx k hk with ⟨q, hq⟩
    rcases Names.keyOf_eq_some.mp hq with ⟨g, sId, pId, oId, -, rfl⟩
    exact (h g sId pId oId).mp hk
  · intro hk
    rcases hy k hk with ⟨q, hq⟩
    rcases Names.keyOf_eq_some.mp hq with ⟨g, sId, pId, oId, -, rfl⟩
    exact (h g sId pId oId).mpr hk

section Merges

variable (I : Implements A Knows CompactOk)
include I

theorem compactDict_spec (h : Inv Knows n s) (hok : CompactOk n) :
    ∃ d' b, compactDict A s = (.ok (), { s with dict := d' }) ∧
      Inv Knows (n.withSealed b) { s with dict := d' } := by
  rcases I.compact s.dict n h.knows hok with ⟨d', b, hr, hd⟩
  exact ⟨d', b, by rw [compactDict, hr], h.with_dict (n.le_withSealed b) hd⟩

/-- A compaction merges the delta and changes nothing a reader can see. -/
theorem compactLocked_spec (h : Inv Knows n s) (hok : CompactOk n) :
    ∃ s' b, compactLocked A s = (.ok (), s') ∧ Next Knows n (n.withSealed b) s s' s.view.merge := by
  rcases compactDict_spec I h hok with ⟨d', b, hr, h'⟩
  have hkeys : ∀ e ∈ s.delta.iter, ∃ q, n.keyOf q = some e.1 := fun e he =>
    h.keys e.1 e.2 (Delta.mem_iter.mp he)
  rcases merge_spec s.delta.iter s.delta.iter_keys_nodup hkeys s.perGraph h.perGraph_known
    with ⟨hall, hiff⟩
  have hinv := h'.commit (hall.of_le (n.le_withSealed b)) true
  refine ⟨_, b, by rw [compactLocked, hr]; rfl, n.le_withSealed b, hinv, ?_, rfl⟩
  -- the new base is the old live set
  have hbase : (commitCompaction { s with dict := d' } (buildGraphsFromTriples
      (s.delta.iter.foldl mergeEntry s.perGraph)) true).view.base = s.view.live := by
    refine keys_ext (n := n) (fun k hk => hinv.base_keys hk) (fun k hk => h.live_keys hk) ?_
    intro g sId pId oId
    rw [hinv.mem_base, ringContains_commit, hiff, h.live_iff, collected_perGraph, Delta.mem_iter]
    have hnone : packQuad g sId pId oId ∉ s.delta.iter.map Prod.fst ↔
        s.delta.get (packQuad g sId pId oId) = none := by
      cases hget : s.delta.get (packQuad g sId pId oId) with
      | none => simp [Delta.mem_iter, hget]
      | some b => simp [Delta.mem_iter, hget]
    rw [hnone]
  have hempty : ∀ b, Delta.new.marked b = ∅ := by
    intro b
    ext k
    simp [mem_marked]
  simp only [view, Overlay.merge, Overlay.mk.injEq] at hbase ⊢
  exact ⟨hbase, hempty true, hempty false⟩

end Merges

/-! ## Bulk loads -/

theorem collected_pushTriple (m : GraphMap (List Row)) (g : GraphId) (sId pId oId : TermId)
    (g' : GraphId) (s' p' o' : TermId) :
    Collected (pushTriple m g (rowOf sId pId oId)) (packQuad g' s' p' o') ↔
      packQuad g' s' p' o' = packQuad g sId pId oId ∨ Collected m (packQuad g' s' p' o') := by
  -- the same as merging an insert of the key
  have hmerge := collected_mergeEntry m g sId pId oId true g' s' p' o'
  rw [mergeEntry, unpackQuad_packQuad] at hmerge
  simp only [if_true] at hmerge
  rw [pushTriple, hmerge]
  by_cases hk : packQuad g' s' p' o' = packQuad g sId pId oId
  · simp [hk]
  · simp [hk]

theorem AllKnown.pushTriple (h : AllKnown n m) {g : GraphId} {sId pId oId : TermId}
    (hids : n.quadIds q = some (g, sId, pId, oId)) :
    AllKnown n (pushTriple m g (rowOf sId pId oId)) := by
  have hkey := Names.keyOf_eq_some.mpr ⟨g, sId, pId, oId, hids, rfl⟩
  have hmerge := h.mergeEntry hkey true
  rw [LoudsStore.mergeEntry, unpackQuad_packQuad] at hmerge
  exact hmerge

/-- Only names and registered graphs differ. -/
structure SameData (s s' : LoudsStore D) : Prop where
  graphs : s'.graphs = s.graphs
  delta : s'.delta = s.delta
  auto : s'.autoCompactThreshold = s.autoCompactThreshold

theorem SameData.trans {s₁ s₂ s₃ : LoudsStore D} (h : SameData s₁ s₂) (h' : SameData s₂ s₃) :
    SameData s₁ s₃ :=
  ⟨h'.graphs.trans h.graphs, h'.delta.trans h.delta, h'.auto.trans h.auto⟩

theorem SameData.view {s s' : LoudsStore D} (h : SameData s s') : s'.view = s.view := by
  simp only [LoudsStore.view, ringKeys, h.graphs, h.delta]

/-- `m'` holds the triples of `m` and of the quads. -/
structure Loaded (n : Names) (m m' : GraphMap (List Row)) (quads : List Quad) : Prop where
  known : AllKnown n m'
  keys : ∀ q ∈ quads, ∃ k, n.keyOf q = some k
  iff : ∀ g sId pId oId, Collected m' (packQuad g sId pId oId) ↔
    Collected m (packQuad g sId pId oId) ∨ ∃ q ∈ quads, n.keyOf q = some (packQuad g sId pId oId)

variable {quads : List Quad}

theorem Loaded.cons {m' : GraphMap (List Row)} {g : GraphId} {sId pId oId : TermId}
    (hkey : n.keyOf q = some (packQuad g sId pId oId))
    (h : Loaded n (LoudsStore.pushTriple m g (rowOf sId pId oId)) m' quads) : Loaded n m m' (q :: quads) where
  known := h.known
  keys := by
    intro q' hq'
    rcases mem_cons.mp hq' with rfl | hq'
    · exact ⟨_, hkey⟩
    · exact h.keys q' hq'
  iff := by
    intro g' s' p' o'
    rw [h.iff, collected_pushTriple, exists_mem_cons_iff, hkey, Option.some.injEq,
      eq_comm (a := packQuad g sId pId oId), or_comm (a := _ = _), or_assoc]

/-- What the loop of a bulk load returns: the collected triples, or the error of
the first quad whose names do not fit. -/
def LoadResult (n : Names) (m : GraphMap (List Row)) (quads : List Quad)
    (r : Except Fault (GraphMap (List Row))) : Prop :=
  match (n.internQuads quads).1 with
  | .error e => r = .error (.err e)
  | .ok () => ∃ m', r = .ok m' ∧ Loaded (n.internQuads quads).2 m m' quads

section Loads

variable (I : Implements A Knows CompactOk)
include I

/-- Loading interns the quads one by one and adds their rows. -/
theorem loadQuads_spec (quads : List Quad) :
    ∀ {n : Names} {s : LoudsStore D} {m : GraphMap (List Row)}, Inv Knows n s → AllKnown n m →
      n.Le (n.internQuads quads).2 ∧ SameData s (loadQuads A s m quads).2 ∧
        Inv Knows (n.internQuads quads).2 (loadQuads A s m quads).2 ∧
        LoadResult n m quads (loadQuads A s m quads).1 := by
  induction quads with
  | nil =>
    intro n s m h hm
    exact ⟨n.le_refl, ⟨rfl, rfl, rfl⟩, h, m, rfl, hm, by simp, by simp⟩
  | cons q rest ih =>
    intro n s m h hm
    rcases internQuad_spec I h.knows q with ⟨d', hr, hd⟩
    rcases n.internQuad_spec q with ⟨hle, hids⟩
    rw [loadQuads, hr, LoadResult, Names.internQuads]
    rcases hn : n.internQuad q with ⟨r, n₁⟩
    rw [hn] at hd hle hids
    have h₁ := h.with_dict hle hd
    cases r with
    | error e => exact ⟨hle, ⟨rfl, rfl, rfl⟩, h₁, rfl⟩
    | ok ids =>
      rcases ids with ⟨g, sId, pId, oId⟩
      have hids := hids _ rfl
      have hkey := Names.keyOf_eq_some.mpr ⟨g, sId, pId, oId, hids, rfl⟩
      have hm₁ := (hm.of_le hle).pushTriple hids
      -- registering the graph does not matter for what follows
      have hrest : ∀ s₁ : LoudsStore D, SameData s s₁ → Inv Knows n₁ s₁ →
          n.Le (n₁.internQuads rest).2 ∧
            SameData s (loadQuads A s₁ (pushTriple m g (rowOf sId pId oId)) rest).2 ∧
            Inv Knows (n₁.internQuads rest).2
              (loadQuads A s₁ (pushTriple m g (rowOf sId pId oId)) rest).2 ∧
            match (n₁.internQuads rest).1 with
            | .error e =>
              (loadQuads A s₁ (pushTriple m g (rowOf sId pId oId)) rest).1 = .error (.err e)
            | .ok () => ∃ m', (loadQuads A s₁ (pushTriple m g (rowOf sId pId oId)) rest).1 = .ok m' ∧
                Loaded (n₁.internQuads rest).2 m m' (q :: rest) := by
        intro s₁ hsame hinv
        rcases ih hinv hm₁ with ⟨hle', hsame', hinv', hres⟩
        refine ⟨hle.trans hle', hsame.trans hsame', hinv', ?_⟩
        rw [LoadResult] at hres
        split at hres
        · exact hres
        · rcases hres with ⟨m', hrun, hloaded⟩
          exact ⟨m', hrun, hloaded.cons (Names.keyOf_of_le hle' hkey)⟩
      cases hgraph : q.graphName with
      | namedNode name => exact hrest _ ⟨rfl, rfl, rfl⟩ (h₁.with_named _)
      | defaultGraph => exact hrest _ ⟨rfl, rfl, rfl⟩ h₁
      | blankNode b => exact hrest _ ⟨rfl, rfl, rfl⟩ h₁

/-- The keys of a list of quads. -/
def keysOf (n : Names) (quads : List Quad) : Finset Nat := (quads.filterMap n.keyOf).toFinset

omit I in
theorem mem_keysOf : k ∈ keysOf n quads ↔ ∃ q ∈ quads, n.keyOf q = some k := by
  simp [keysOf]

/-- A bulk load whose names fit adds the quads to the rings; the pending changes
stay as they are. -/
theorem bulkLoad_ok (h : Inv Knows n s)
    (hnames : (n.internQuads quads).1 = .ok ()) (hok : CompactOk (n.internQuads quads).2) :
    ∃ s' b, bulkLoad A s quads = (.ok quads.length, s') ∧
      Next Knows n ((n.internQuads quads).2.withSealed b) s s'
        (s.view.load (keysOf (n.internQuads quads).2 quads)) := by
  rcases loadQuads_spec I quads h h.perGraph_known with ⟨hle, hsame, h₁, hres⟩
  rcases hrun : loadQuads A s s.perGraph quads with ⟨r, s₁⟩
  rw [hrun] at hsame h₁ hres
  rw [LoadResult, hnames] at hres
  rcases hres with ⟨m', hr', hloaded⟩
  simp only at hr' hsame h₁
  rw [hr'] at hrun
  rcases compactDict_spec I h₁ hok with ⟨d', b, hr, h₂⟩
  have hinv := h₂.commit (hloaded.known.of_le (Names.le_withSealed _ b)) false
  refine ⟨_, b, by rw [bulkLoad, hrun]; simp only [andThen, hr], hle.trans (Names.le_withSealed _ b), hinv,
    ?_, hsame.auto⟩
  -- the new base has the loaded keys as well
  have hbase : (commitCompaction { s₁ with dict := d' } (buildGraphsFromTriples m') false).view.base =
      s.view.base ∪ keysOf (n.internQuads quads).2 quads := by
    refine keys_ext (n := (n.internQuads quads).2) (fun k hk => hinv.base_keys hk) ?_ ?_
    · intro k hk
      rcases Finset.mem_union.mp hk with hk | hk
      · rcases h.base_keys hk with ⟨q, hq⟩
        exact ⟨q, Names.keyOf_of_le hle hq⟩
      · rcases mem_keysOf.mp hk with ⟨q, -, hq⟩
        exact ⟨q, hq⟩
    · intro g sId pId oId
      rw [hinv.mem_base, ringContains_commit, hloaded.iff, Finset.mem_union, h.mem_base,
        collected_perGraph, mem_keysOf]
  have hdelta : s₁.delta = s.delta := hsame.delta
  simp only [view, Overlay.load, Overlay.mk.injEq] at hbase ⊢
  refine ⟨hbase, ?_, ?_⟩
  · rw [← hdelta]
    rfl
  · rw [← hdelta]
    rfl

theorem bulkLoad_error (h : Inv Knows n s) {e : Oxigraph} (hnames : (n.internQuads quads).1 = .error e) :
    ∃ s', bulkLoad A s quads = (.error (.err e), s') ∧
      Next Knows n (n.internQuads quads).2 s s' s.view := by
  rcases loadQuads_spec I quads h h.perGraph_known with ⟨hle, hsame, h', hres⟩
  rcases hrun : loadQuads A s s.perGraph quads with ⟨r, s'⟩
  rw [hrun] at hsame h' hres
  rw [LoadResult, hnames] at hres
  simp only at hres
  rw [hres] at hrun
  exact ⟨s', by rw [bulkLoad, hrun]; rfl, hle, h', hsame.view, hsame.auto⟩

end Loads

end LoudsStore

end Nova
