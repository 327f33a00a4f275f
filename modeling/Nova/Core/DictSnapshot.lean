import Nova.Core.Dict

/-!
# Dictionary snapshots

What a persistent store writes of its dictionary beside every snapshot of the
rings, and how it is read back: the compacted tier as it is, the quoted triples
as ids of their components, and the graph table as one string with 32-bit
offsets. `fromSnapshot_toSnapshot`: a dictionary that has just been compacted
comes back with the same names, if the graph names fit the offsets.

The record stands for the file, and a tier that is decompressed block by block is the
tier (`Nova.Core.DictBlockCache`). The container around it, an index payload and
compressed blocks, is left out.
-/

namespace Nova

open Nova.Lib Nova.DictCompact List

/-- A quoted triple: its id and the ids of its components. The source keeps the
four columns apart. -/
abbrev TripleRow := Nat × Nat × Nat × Nat

structure DictSnapshot where
  nextGraphId : UInt8
  compacted : CompactedTier
  triples : List TripleRow
  graphIds : List UInt8
  graphKinds : List UInt8
  graphStrFlat : Bytes
  graphStrOffsets : List Nat

namespace Dictionary

/-! ## Writing -/

def graphKind : GraphName → UInt8
  | .namedNode _ => 0
  | .blankNode _ => 1
  | .defaultGraph => 2

def graphStr : GraphName → Bytes
  | .namedNode n => utf8 n.iri
  | .blankNode b => utf8 b.id
  | .defaultGraph => []

/-- The bytes of the graph names, in the order they are written. -/
def graphStrs (d : Dictionary) : List Bytes := d.idToGraph.entries.map fun e => graphStr e.2

/-- Sorted by id, so that components come before the triples they are part of. -/
def tripleRows (d : Dictionary) : List TripleRow :=
  (d.tripleTerms.entries.map fun e =>
    (e.1, e.2.1.asU64, e.2.2.1.asU64, e.2.2.2.asU64)).insertionSort fun a b => a.1 ≤ b.1

def toSnapshot (d : Dictionary) : DictSnapshot where
  nextGraphId := d.nextGraphId
  compacted := d.compacted
  triples := d.tripleRows
  graphIds := d.idToGraph.entries.map fun e => e.1
  graphKinds := d.idToGraph.entries.map fun e => graphKind e.2
  graphStrFlat := d.graphStrs.flatten
  graphStrOffsets := (offsets 0 d.graphStrs).map asU32

/-! ## Reading -/

/-- The tables that the quoted triples fill. -/
structure Rebuilt where
  idToTerm : List (Option Term)
  termToId : AList fun _ : Term => TermId
  tripleTerms : AList fun _ : Nat => TermId × TermId × TermId
  tripleIndex : AList fun _ : TermId × TermId × TermId => TermId

def decodeComponent (tier : CompactedTier) (idToTerm : List (Option Term)) (rawId : Nat) :
    Except Fault Term :=
  match idToTerm[rawId]? with
  | some (some term) => .ok term
  | _ =>
    match tier.decodeId rawId with
    | .error p => .error (.panic p)
    | .ok none => .error (.err (.storage
        s!"dict snapshot: quoted-triple component id {rawId} not found in compacted tier or prior reconstruction"))
    | .ok (some r) => r.mapError .err

/-- The term in the message is left out. -/
def asSubject : Term → Except Fault Subject
  | .namedNode n => .ok (.namedNode n)
  | .blankNode b => .ok (.blankNode b)
  | _ => .error (.err (.storage "dict snapshot: quoted-triple subject decoded to non-subject term"))

def asPredicate : Term → Except Fault NamedNode
  | .namedNode n => .ok n
  | _ => .error (.err (.storage "dict snapshot: quoted-triple predicate decoded to non-IRI term"))

/-- Enter one quoted triple into the tables. -/
def Rebuilt.push (r : Rebuilt) (tid : TermId) (components : TermId × TermId × TermId) (term : Term) :
    Rebuilt where
  idToTerm := r.idToTerm.set tid.asU64 (some term)
  termToId := r.termToId.insert term tid
  tripleTerms := r.tripleTerms.insert tid.asU64 components
  tripleIndex := r.tripleIndex.insert components tid

def rebuildTriple (tier : CompactedTier) (r : Rebuilt) (row : TripleRow) : Except Fault Rebuilt := do
  let (tidRaw, sRaw, pRaw, oRaw) := row
  let sTerm ← decodeComponent tier r.idToTerm sRaw
  let pTerm ← decodeComponent tier r.idToTerm pRaw
  let object ← decodeComponent tier r.idToTerm oRaw
  let subject ← asSubject sTerm
  let predicate ← asPredicate pTerm
  let tid ← (TermId.new tidRaw).mapError .err
  let sId ← (TermId.new sRaw).mapError .err
  let pId ← (TermId.new pRaw).mapError .err
  let oId ← (TermId.new oRaw).mapError .err
  if tidRaw < r.idToTerm.length then
    return r.push tid (sId, pId, oId) (.triple subject predicate object)
  else throw (.panic .outOfBounds)

/-- The two graph maps. -/
abbrev GraphTables := (AList fun _ : GraphName => GraphId) × AList fun _ : UInt8 => GraphName

def graphOfKind (kind : UInt8) (s : String) : Except Fault GraphName :=
  match kind with
  | 0 => .ok (.namedNode ⟨s⟩)
  | 1 => .ok (.blankNode ⟨s⟩)
  | 2 => .ok .defaultGraph
  | other => .error (.err (.storage s!"dict snapshot: unknown graph kind {other}"))

def graphUtf8 (bytes : Bytes) : Except Fault String :=
  match fromUtf8 bytes with
  | some s => .ok s
  | none => .error (.err (.storage "dict snapshot: invalid utf8"))

/-- `&graph_str_flat[start..end]` of the `i`-th graph. -/
def graphBytes (snap : DictSnapshot) (i : Nat) : Except Fault Bytes := do
  let start ← (index snap.graphStrOffsets i).mapError .panic
  let stop := (snap.graphStrOffsets[i + 1]?).getD snap.graphStrFlat.length
  if start ≤ stop ∧ stop ≤ snap.graphStrFlat.length then
    return slice snap.graphStrFlat start (stop - start)
  else throw (.panic .outOfBounds)

def rebuildGraph (snap : DictSnapshot) (tables : GraphTables) (i : Nat) : Except Fault GraphTables := do
  let gid ← (index snap.graphIds i).mapError .panic
  let kind ← (index snap.graphKinds i).mapError .panic
  let bytes ← graphBytes snap i
  let s ← graphUtf8 bytes
  let gname ← graphOfKind kind s
  return (tables.1.insert gname gid, tables.2.insert gid gname)

/-- `entry(key).or_insert(value)`. -/
def orInsert {α β : Type} [DecidableEq α] (m : AList fun _ : α => β) (a : α) (b : β) :
    AList fun _ : α => β :=
  match m.lookup a with
  | some _ => m
  | none => m.insert a b

/-- The dictionary of the rebuilt tables. -/
def assemble (snap : DictSnapshot) (r : Rebuilt) (graphs : GraphTables) : Dictionary where
  idToTerm := r.idToTerm
  termToId := r.termToId
  compacted := snap.compacted
  decodeCache := ⟨decodeCacheCapacity, []⟩
  graphToId := orInsert graphs.1 .defaultGraph graphDefault
  idToGraph := orInsert graphs.2 0 .defaultGraph
  nextGraphId := snap.nextGraphId
  tripleTerms := r.tripleTerms
  tripleIndex := r.tripleIndex

/-- `from_block_cached`. -/
def fromSnapshot (snap : DictSnapshot) : Except Fault Dictionary := do
  let r ← snap.triples.foldlM (rebuildTriple snap.compacted)
    ⟨List.replicate snap.compacted.highWater none, ∅, ∅, ∅⟩
  let graphs ← (List.range snap.graphIds.length).foldlM (rebuildGraph snap) (∅, ∅)
  return assemble snap r graphs

/-! ## Quoted triples -/

variable {bs : Nat} {d : Dictionary} {terms : List Term}

theorem mem_tripleRows {row : TripleRow} :
    row ∈ d.tripleRows ↔ ∃ components, d.tripleTerms.lookup row.1 = some components ∧
      row.2 = (components.1.asU64, components.2.1.asU64, components.2.2.asU64) := by
  unfold tripleRows
  rw [mem_insertionSort, mem_map]
  constructor
  · intro h
    rcases h with ⟨e, he, rfl⟩
    exact ⟨e.2, AList.mem_lookup_iff.mpr he, rfl⟩
  · intro h
    rcases h with ⟨components, hlook, hrow⟩
    refine ⟨⟨row.1, components⟩, AList.mem_lookup_iff.mp hlook, ?_⟩
    rcases row with ⟨i, row⟩
    simp only at hrow
    rw [hrow]

theorem tripleRows_sorted (d : Dictionary) : d.tripleRows.Pairwise fun a b => a.1 < b.1 := by
  have hkeys : (d.tripleRows.map fun row => row.1).Nodup := by
    have hperm := perm_insertionSort (fun a b : TripleRow => a.1 ≤ b.1)
      (d.tripleTerms.entries.map fun e => (e.1, e.2.1.asU64, e.2.2.1.asU64, e.2.2.2.asU64))
    refine ((hperm.map fun row => row.1).nodup_iff).mpr ?_
    rw [map_map]
    exact d.tripleTerms.nodupKeys
  have hle : d.tripleRows.Pairwise fun a b => a.1 ≤ b.1 := by
    have htotal : ∀ a b : TripleRow, a.1 ≤ b.1 ∨ b.1 ≤ a.1 := fun a b => Nat.le_total _ _
    have htrans : ∀ a b c : TripleRow, a.1 ≤ b.1 → b.1 ≤ c.1 → a.1 ≤ c.1 := fun a b c => Nat.le_trans
    have := Std.Total.mk htotal
    have := IsTrans.mk htrans
    exact pairwise_insertionSort _ _
  have hne : d.tripleRows.Pairwise fun a b => a.1 ≠ b.1 := pairwise_map.mp hkeys
  exact (hle.and hne).imp fun h => Nat.lt_of_le_of_ne h.1 h.2

/-- The tables while the rows `rest` are still to come. -/
structure Rebuilding (d : Dictionary) (terms : List Term) (rest : List TripleRow) (r : Rebuilt) :
    Prop where
  length : r.idToTerm.length = terms.length
  slot : ∀ i term, terms[i]? = some term → r.idToTerm[i]? =
    some (if term.isTriple = true ∧ i ∉ rest.map Prod.fst then some term else none)
  lookup : ∀ term (id : TermId),
    r.termToId.lookup term = some id ↔ r.idToTerm[id.asU64]? = some (some term)
  triples : ∀ i, r.tripleTerms.lookup i =
    if i ∈ rest.map Prod.fst then none else d.tripleTerms.lookup i

theorem Represents.rebuilding_start (h : Represents bs d terms) :
    Rebuilding d terms d.tripleRows ⟨List.replicate terms.length none, ∅, ∅, ∅⟩ where
  length := length_replicate
  slot := by
    intro i term hi
    have hlt := (List.getElem?_eq_some_iff.mp hi).1
    rw [getElem?_replicate, if_pos hlt]
    by_cases htriple : term.isTriple = true
    · -- every quoted triple has a row
      have hsome := h.triples i
      rw [hi, Option.any_some, htriple, Option.isSome_iff_exists] at hsome
      rcases hsome with ⟨components, hlook⟩
      have hrow : (i, components.1.asU64, components.2.1.asU64, components.2.2.asU64) ∈ d.tripleRows :=
        mem_tripleRows.mpr ⟨components, hlook, rfl⟩
      rw [if_neg fun hand => hand.2 (mem_map_of_mem hrow)]
    · rw [if_neg fun hand => htriple hand.1]
  lookup := by
    intro term id
    constructor
    · intro hnone
      cases hnone
    · intro hslot
      rw [getElem?_replicate] at hslot
      split at hslot
      · cases Option.some.inj hslot
      · cases hslot
  triples := by
    intro i
    split
    · rfl
    · next hnot =>
      cases hlook : d.tripleTerms.lookup i with
      | none => rfl
      | some components =>
        have hrow : (i, components.1.asU64, components.2.1.asU64, components.2.2.asU64) ∈
            d.tripleRows := mem_tripleRows.mpr ⟨components, hlook, rfl⟩
        exact absurd (mem_map_of_mem hrow) hnot

/-- A component below all remaining rows decodes to its term. -/
theorem Rebuilding.decodeComponent {rest : List TripleRow} {r : Rebuilt}
    (h : Rebuilding d terms rest r) (hd : Represents bs d terms) (hbs : 0 < bs)
    (hfresh : d.compacted.highWater = terms.length) {c : Nat} {term : Term}
    (hterm : terms[c]? = some term) (hlow : c ∉ rest.map Prod.fst) :
    Dictionary.decodeComponent d.compacted r.idToTerm c = .ok term := by
  have hslot := h.slot c term hterm
  unfold Dictionary.decodeComponent
  rw [hslot]
  by_cases htriple : term.isTriple = true
  · rw [if_pos ⟨htriple, hlow⟩]
  · rw [if_neg fun hand => htriple hand.1]
    rcases hd.tier with ⟨es, htier⟩
    have hlt : c < d.compacted.highWater := by
      rw [hfresh]
      exact (List.getElem?_eq_some_iff.mp hterm).1
    rw [htier.decodeId hbs hlt hterm (Bool.not_eq_true _ ▸ htriple)]
    rfl

/-- One quoted triple is put back into its slot. -/
theorem Rebuilding.push {rest : List TripleRow} {r : Rebuilt} {tid : TermId}
    {components : TermId × TermId × TermId} {cs : Nat × Nat × Nat} {term : Term}
    (h : Rebuilding d terms ((tid.asU64, cs) :: rest) r) (hd : Represents bs d terms)
    (hi : terms[tid.asU64]? = some term) (htriple : term.isTriple = true)
    (hlook : d.tripleTerms.lookup tid.asU64 = some components)
    (hnotRest : tid.asU64 ∉ rest.map Prod.fst) :
    Rebuilding d terms rest (r.push tid components term) := by
  have hlt : tid.asU64 < r.idToTerm.length := by
    rw [h.length]
    exact (List.getElem?_eq_some_iff.mp hi).1
  have hat : r.idToTerm[tid.asU64]? = some none := by
    rw [h.slot _ _ hi, if_neg]
    intro hand
    exact hand.2 (by simp)
  have hcons : ∀ j, tid.asU64 ≠ j →
      (j ∈ ((tid.asU64, cs) :: rest).map Prod.fst ↔ j ∈ rest.map Prod.fst) := by
    intro j hij
    rw [map_cons, mem_cons, or_iff_right (Ne.symm hij)]
  constructor
  · unfold Rebuilt.push
    rw [length_set, h.length]
  · intro j term' hj
    unfold Rebuilt.push
    rw [getElem?_set]
    -- the pushed slot is filled, the others are as before
    by_cases hij : tid.asU64 = j
    · rw [← hij, hi] at hj
      cases hj
      rw [if_pos hij, if_pos hlt, ← hij, if_pos ⟨htriple, hnotRest⟩]
    · rw [if_neg hij, h.slot j term' hj]
      simp only [hcons j hij]
  · intro term' id
    unfold Rebuilt.push
    rw [getElem?_set]
    by_cases hterm : term' = term
    · rw [hterm, AList.lookup_insert]
      constructor
      · intro heq
        cases heq
        rw [if_pos rfl, if_pos hlt]
      · intro hslot
        by_cases hij : tid.asU64 = id.asU64
        · exact congrArg some (TermId.eq_of_asU64 hij)
        · -- no other slot holds this term
          rw [if_neg hij] at hslot
          have hlen : id.asU64 < terms.length := by
            rw [← h.length]
            exact (List.getElem?_eq_some_iff.mp hslot).1
          have hother := h.slot id.asU64 terms[id.asU64] (getElem?_eq_getElem hlen)
          rw [hslot] at hother
          have hid : terms[id.asU64]? = some term := by
            split at hother
            · rw [getElem?_eq_getElem hlen, Option.some.inj (Option.some.inj hother)]
            · cases hother
          exact absurd (hd.idx_inj hi hid) hij
    · rw [AList.lookup_insert_ne hterm, h.lookup]
      by_cases hij : tid.asU64 = id.asU64
      · rw [if_pos hij, if_pos hlt, ← hij, hat]
        simp [Ne.symm hterm]
      · rw [if_neg hij]
  · intro j
    unfold Rebuilt.push
    by_cases hij : j = tid.asU64
    · rw [hij, if_neg hnotRest, hlook]
      exact AList.lookup_insert _
    · rw [AList.lookup_insert_ne hij, h.triples]
      simp only [hcons j (Ne.symm hij)]

/-- A quoted triple is rebuilt after its components, whose ids are smaller. -/
theorem Rebuilding.step {row : TripleRow} {rest : List TripleRow} {r : Rebuilt}
    (h : Rebuilding d terms (row :: rest) r) (hd : Represents bs d terms) (hbs : 0 < bs)
    (hfresh : d.compacted.highWater = terms.length) (hrow : row ∈ d.tripleRows)
    (hlater : ∀ row' ∈ rest, row.1 < row'.1) :
    ∃ r', rebuildTriple d.compacted r row = .ok r' ∧ Rebuilding d terms rest r' := by
  rcases row with ⟨i, cs⟩
  rcases mem_tripleRows.mp hrow with ⟨components, hlook, hcs⟩
  subst hcs
  -- the term at this position
  have hany := hd.triples i
  rw [hlook, Option.isSome_some] at hany
  have htriple : ∃ s p o, terms[i]? = some (.triple s p o) := by
    cases hi : terms[i]? with
    | none =>
      rw [hi] at hany
      cases hany
    | some term =>
      rw [hi] at hany
      cases term with
      | triple s p o => exact ⟨s, p, o, rfl⟩
      | _ => cases hany
  rcases htriple with ⟨s, p, o, hi⟩
  rcases hd.parts i s p o hi with ⟨components', hlook', hparts⟩
  rw [hlook] at hlook'
  cases hlook'
  -- components stand below this row and so below the later ones
  have hbelow : ∀ c, c < i → c ∉ ((i, components.1.asU64, components.2.1.asU64,
      components.2.2.asU64) :: rest).map Prod.fst := by
    intro c hc hmem
    rw [map_cons, mem_cons] at hmem
    rcases hmem with heq | hmem
    · exact absurd heq (Nat.ne_of_lt hc)
    · rcases mem_map.mp hmem with ⟨row', hrow', heq⟩
      have hgt := hlater row' hrow'
      omega
  have hs := h.decodeComponent hd hbs hfresh hparts.subject (hbelow _ hparts.lower.1)
  have hp := h.decodeComponent hd hbs hfresh hparts.predicate (hbelow _ hparts.lower.2.1)
  have ho := h.decodeComponent hd hbs hfresh hparts.object (hbelow _ hparts.lower.2.2)
  have hsub : asSubject s.toTerm = .ok s := by cases s <;> rfl
  have hnew : ∀ id : TermId, (TermId.new id.asU64).mapError Fault.err = .ok id := by
    intro id
    rw [TermId.new_asU64]
    rfl
  have htid : (TermId.new i).mapError Fault.err = .ok ⟨i, hd.idx_le hi⟩ := hnew ⟨i, hd.idx_le hi⟩
  have hlt : i < terms.length := (List.getElem?_eq_some_iff.mp hi).1
  refine ⟨r.push ⟨i, hd.idx_le hi⟩ components (.triple s p o), ?_, ?_⟩
  · simp only [rebuildTriple, hs, hp, ho, ok_bind, hsub, asPredicate, htid, hnew, h.length,
      if_pos hlt]
    rfl
  · refine @Rebuilding.push bs d terms rest r ⟨i, hd.idx_le hi⟩ components _ _ h hd hi rfl hlook ?_
    intro hmem
    rcases mem_map.mp hmem with ⟨row', hrow', heq⟩
    have hgt := hlater row' hrow'
    simp only at heq
    omega

theorem Represents.rebuild_triples (h : Represents bs d terms) (hbs : 0 < bs)
    (hfresh : d.compacted.highWater = terms.length) :
    ∃ r, d.tripleRows.foldlM (rebuildTriple d.compacted)
        ⟨List.replicate d.compacted.highWater none, ∅, ∅, ∅⟩ = .ok r ∧ Rebuilding d terms [] r := by
  have hloop : ∀ (rows : List TripleRow) (r : Rebuilt), (∀ row ∈ rows, row ∈ d.tripleRows) →
      (rows.Pairwise fun a b => a.1 < b.1) → Rebuilding d terms rows r →
      ∃ r', rows.foldlM (rebuildTriple d.compacted) r = .ok r' ∧ Rebuilding d terms [] r' := by
    intro rows
    induction rows with
    | nil => exact fun r _ _ hr => ⟨r, rfl, hr⟩
    | cons row rows ih =>
      intro r hmem hsorted hr
      rw [pairwise_cons] at hsorted
      rcases hr.step h hbs hfresh (hmem row mem_cons_self) hsorted.1 with ⟨r₁, hstep, hr₁⟩
      rcases ih r₁ (fun row' hrow' => hmem row' (mem_cons_of_mem _ hrow')) hsorted.2 hr₁
        with ⟨r', hrest, hr'⟩
      refine ⟨r', ?_, hr'⟩
      rw [foldlM_cons, hstep, ok_bind, hrest]
  rw [hfresh]
  exact hloop _ _ (fun _ hrow => hrow) d.tripleRows_sorted h.rebuilding_start

/-! ## Graph names -/

/-- The graph names fit into the 32-bit offsets. -/
def GraphsFit (d : Dictionary) : Prop := d.graphStrs.flatten.length < 2 ^ 32

theorem graphOfKind_graphKind {g : GraphName} {s : String} (h : graphUtf8 (graphStr g) = .ok s) :
    graphOfKind (graphKind g) s = .ok g := by
  unfold graphUtf8 at h
  cases g with
  | defaultGraph => rfl
  | namedNode n =>
    rw [graphStr, fromUtf8_utf8] at h
    cases h
    rfl
  | blankNode b =>
    rw [graphStr, fromUtf8_utf8] at h
    cases h
    rfl

theorem graphUtf8_graphStr (g : GraphName) : ∃ s, graphUtf8 (graphStr g) = .ok s := by
  unfold graphUtf8
  cases g with
  | defaultGraph => exact ⟨"", rfl⟩
  | namedNode n => exact ⟨n.iri, by rw [graphStr, fromUtf8_utf8]⟩
  | blankNode b => exact ⟨b.id, by rw [graphStr, fromUtf8_utf8]⟩

theorem GraphsFit.offsets (h : d.GraphsFit) :
    (offsets 0 d.graphStrs).map asU32 = offsets 0 d.graphStrs := by
  apply map_asU32_of_lt
  intro x hx
  rcases mem_iff_getElem?.mp hx with ⟨b, hb⟩
  rw [getElem?_offsets] at hb
  split at hb
  · cases hb
    have hflat := congrArg (fun l => (List.flatten l).length) (take_append_drop b d.graphStrs)
    simp only [flatten_append, length_append] at hflat
    unfold GraphsFit at h
    omega
  · cases hb

theorem GraphsFit.graphBytes (h : d.GraphsFit) {i : Nat} {e : Sigma fun _ : UInt8 => GraphName}
    (he : d.idToGraph.entries[i]? = some e) :
    Dictionary.graphBytes d.toSnapshot i = .ok (graphStr e.2) := by
  have hpiece : d.graphStrs[i]? = some (graphStr e.2) := by
    rw [graphStrs, getElem?_map, he]
    rfl
  rcases offsets_bounds _ hpiece with ⟨hstart, hstop⟩
  have hslice := slice_flatten _ hpiece
  have hend := congrArg List.length (flatten_split _ hpiece)
  simp only [length_append] at hend
  simp only [Dictionary.graphBytes, toSnapshot, h.offsets, hstart, hstop, Except.mapError,
    ok_bind]
  rw [if_pos (by omega), Nat.add_sub_cancel_left, hslice]
  rfl

theorem GraphsFit.rebuildGraph (h : d.GraphsFit) {i : Nat} {e : Sigma fun _ : UInt8 => GraphName}
    (he : d.idToGraph.entries[i]? = some e) (tables : GraphTables) :
    Dictionary.rebuildGraph d.toSnapshot tables i =
      .ok (tables.1.insert e.2 e.1, tables.2.insert e.1 e.2) := by
  rcases graphUtf8_graphStr e.2 with ⟨s, hs⟩
  have hid : index d.toSnapshot.graphIds i = .ok e.1 := by
    rw [toSnapshot, index, getElem?_map, he]
    rfl
  have hkind : index d.toSnapshot.graphKinds i = .ok (graphKind e.2) := by
    rw [toSnapshot, index, getElem?_map, he]
    rfl
  simp only [Dictionary.rebuildGraph, hid, hkind, Except.mapError, ok_bind, h.graphBytes he, hs,
    graphOfKind_graphKind hs]
  rfl

/-- The tables after all graphs are entered. -/
def rebuiltGraphs (d : Dictionary) : GraphTables :=
  (d.idToGraph.entries.foldl (fun m e => m.insert e.2 e.1) ∅,
    d.idToGraph.entries.foldl (fun m e => m.insert e.1 e.2) ∅)

theorem GraphsFit.rebuild_graphs (h : d.GraphsFit) :
    (List.range d.toSnapshot.graphIds.length).foldlM (Dictionary.rebuildGraph d.toSnapshot) (∅, ∅) =
      .ok d.rebuiltGraphs := by
  have hlen : d.toSnapshot.graphIds.length = d.idToGraph.entries.length := by
    rw [toSnapshot, length_map]
  have hloop : ∀ k, k ≤ d.idToGraph.entries.length →
      (List.range k).foldlM (Dictionary.rebuildGraph d.toSnapshot) ((∅, ∅) : GraphTables) =
        .ok ((d.idToGraph.entries.take k).foldl (fun m e => m.insert e.2 e.1) ∅,
          (d.idToGraph.entries.take k).foldl (fun m e => m.insert e.1 e.2) ∅) := by
    intro k
    induction k with
    | zero => exact fun _ => rfl
    | succ k ih =>
      intro hk
      have he := getElem?_eq_getElem (show k < d.idToGraph.entries.length from hk)
      rw [range_succ, foldlM_append, ih (Nat.le_of_succ_le hk), ok_bind,
        foldlM_cons, h.rebuildGraph he, ok_bind, take_add_one, he, Option.toList_some,
        foldl_append, foldl_append]
      rfl
  rw [hlen, hloop _ le_rfl, take_length]
  rfl

/-- Entries entered one after another, where all entries of a key agree. -/
theorem lookup_foldl_insert {α β γ : Type} [DecidableEq α] (key : γ → α) (val : γ → β) (a : α)
    (l : List γ) :
    ∀ m : AList fun _ : α => β, (∀ e ∈ l, ∀ e' ∈ l, key e = a → key e' = a → val e = val e') →
      (l.foldl (fun m e => m.insert (key e) (val e)) m).lookup a =
        ((l.find? fun e => key e = a).map val).or (m.lookup a) := by
  induction l with
  | nil => exact fun m _ => by simp
  | cons e l ih =>
    intro m hsame
    rw [foldl_cons, ih _ fun e' he' e'' he'' => hsame e' (mem_cons_of_mem _ he') e''
      (mem_cons_of_mem _ he'')]
    by_cases hkey : key e = a
    · rw [find?_cons_of_pos (by simpa using hkey), ← hkey, AList.lookup_insert, hkey]
      cases hfind : l.find? fun e => key e = a with
      | none => rfl
      | some e' =>
        have hmem := mem_of_find?_eq_some hfind
        have hk' : key e' = a := by simpa using find?_some hfind
        simp [hsame e' (mem_cons_of_mem _ hmem) e mem_cons_self hk' hkey]
    · rw [find?_cons_of_neg (by simpa using hkey), AList.lookup_insert_ne (Ne.symm hkey)]

theorem orInsert_of_isSome {α β : Type} [DecidableEq α] {m : AList fun _ : α => β} {a : α} {b : β}
    (h : (m.lookup a).isSome = true) : orInsert m a b = m := by
  unfold orInsert
  cases hl : m.lookup a with
  | none =>
    rw [hl] at h
    cases h
  | some b' => rfl

theorem lookup_idToGraph_rebuilt (d : Dictionary) (id : UInt8) :
    d.rebuiltGraphs.2.lookup id = d.idToGraph.lookup id := by
  have hmem : ∀ e ∈ d.idToGraph.entries, d.idToGraph.lookup e.1 = some e.2 := fun e he =>
    AList.mem_lookup_iff.mpr he
  unfold rebuiltGraphs
  rw [lookup_foldl_insert (fun e : Sigma fun _ : UInt8 => GraphName => e.1) (fun e => e.2) id]
  · cases hfind : d.idToGraph.entries.find? fun e => e.1 = id with
    | some e =>
      have hid : e.1 = id := by simpa using find?_some hfind
      rw [← hid, hmem e (mem_of_find?_eq_some hfind)]
      rfl
    | none =>
      cases hlook : d.idToGraph.lookup id with
      | none => rfl
      | some g =>
        have hnot := List.find?_eq_none.mp hfind _ (AList.mem_lookup_iff.mp hlook)
        simp at hnot
  · intro e he e' he' hid hid'
    have h := hmem e he
    rw [hid, ← hid', hmem e' he'] at h
    exact (Option.some.inj h).symm

theorem GraphsOf.lookup_graphToId_rebuilt {G : GraphTable} (h : d.GraphsOf G) (g : GraphName) :
    d.rebuiltGraphs.1.lookup g = (G.find? g).map UInt8.ofNat := by
  have hmem : ∀ e ∈ d.idToGraph.entries, G.get? e.1.toNat = some e.2 := by
    intro e he
    rw [← h.ofId]
    exact AList.mem_lookup_iff.mpr he
  unfold rebuiltGraphs
  rw [lookup_foldl_insert (fun e : Sigma fun _ : UInt8 => GraphName => e.2) (fun e => e.1) g]
  · cases hfind : d.idToGraph.entries.find? fun e => e.2 = g with
    | some e =>
      have hg : e.2 = g := by simpa using find?_some hfind
      have hget := hmem e (mem_of_find?_eq_some hfind)
      rw [hg] at hget
      rw [Table.find?_eq_some.mpr hget]
      simp
    | none =>
      cases hi : G.find? g with
      | none => rfl
      | some i =>
        -- every name of the table has an entry
        have hget := Table.find?_eq_some.mp hi
        have hnat : (UInt8.ofNat i).toNat = i := by
          rw [UInt8.toNat_ofNat', Nat.mod_eq_of_lt (Table.lt_of_get? hget)]
        have hlook : d.idToGraph.lookup (UInt8.ofNat i) = some g := by
          rw [h.ofId, hnat, hget]
        have hnot := List.find?_eq_none.mp hfind _ (AList.mem_lookup_iff.mp hlook)
        simp at hnot
  · intro e he e' he' hg hg'
    have hget := hmem e he
    have hget' := hmem e' he'
    rw [hg] at hget
    rw [hg'] at hget'
    exact UInt8.toNat_inj.mp (Table.get?_inj hget hget')

/-! ## The round trip -/

/-- A dictionary that was just compacted comes back with the same names. -/
theorem fromSnapshot_toSnapshot {n : Names} (h : Knows bs d n) (hbs : 0 < bs)
    (hfresh : d.compacted.highWater = n.terms.items.length) (hfit : d.GraphsFit) :
    ∃ d', fromSnapshot d.toSnapshot = .ok d' ∧ Knows bs d' n := by
  rcases h.terms.rebuild_triples hbs hfresh with ⟨r, hr, hreb⟩
  have hdefault : d.idToGraph.lookup 0 = some .defaultGraph := by
    rw [h.graphs.ofId]
    exact h.graphs.default
  have htoId := h.graphs.lookup_graphToId_rebuilt
  have hofId := d.lookup_idToGraph_rebuilt
  -- the default graph is there, so it is not added
  have horTo := orInsert_of_isSome (b := graphDefault) (by
    rw [htoId .defaultGraph, Table.find?_eq_some.mpr h.graphs.default]
    rfl)
  have horOf := orInsert_of_isSome (b := GraphName.defaultGraph) (by
    rw [hofId 0, hdefault]
    rfl)
  refine ⟨assemble d.toSnapshot r d.rebuiltGraphs, ?_, ?_⟩
  · unfold fromSnapshot
    rw [show d.toSnapshot.triples = d.tripleRows from rfl,
      show d.toSnapshot.compacted = d.compacted from rfl, hr, ok_bind, hfit.rebuild_graphs,
      ok_bind]
    rfl
  constructor
  case isSealed => exact h.isSealed
  case graphs =>
    constructor
    · unfold assemble
      rw [horTo]
      exact htoId
    · intro id
      unfold assemble
      rw [horOf, ← h.graphs.ofId]
      exact hofId id
    · exact h.graphs.next
    · exact h.graphs.default
  case terms =>
    constructor
    case nodup => exact h.terms.nodup
    case length => exact hreb.length
    case slot =>
      intro i term hi
      refine (hreb.slot i term hi).trans ?_
      have hlt : i < (assemble d.toSnapshot r d.rebuiltGraphs).compacted.highWater := by
        show i < d.compacted.highWater
        rw [hfresh]
        exact (List.getElem?_eq_some_iff.mp hi).1
      cases htriple : term.isTriple with
      | true => simp
      | false => simp [hlt]
    case tables =>
      constructor
      · exact hreb.lookup
      · show r.idToTerm.length ≤ maxTermId + 1
        rw [hreb.length]
        exact n.terms.length_le
    case triples =>
      intro i
      show (r.tripleTerms.lookup i).isSome = _
      rw [hreb.triples, ← h.terms.triples]
      simp
    case tier => exact h.terms.tier
    case cache =>
      intro e he
      cases he
    case parts =>
      intro i s p o hi
      show ∃ components, r.tripleTerms.lookup i = some components ∧ _
      rw [hreb.triples]
      exact h.terms.parts i s p o hi

end Dictionary

end Nova
