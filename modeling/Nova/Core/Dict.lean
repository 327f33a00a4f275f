import Nova.Core.DictCompact
import Nova.Core.Names
import Nova.Lib.Lru
import Mathlib.Data.List.AList

/-!
# The dictionary

The bidirectional mapping between terms and 40-bit ids, and between graph names
and 8-bit ids. Terms live in two tiers: those interned since the last
compaction in a pair of tables, the others in the front-coded tier of
`DictCompact`. Quoted triples never leave the tables. Ids are positions in
insertion order and are never reassigned.

A lookup that misses the compacted tier makes `intern` hand out a second id, so
everything hangs on the lookup: `run_ids_stable` is the guarantee for every run
whose compactions are safe (`CompactSafe`: no run of equal sort keys crosses a
block boundary, and the offsets fit in 32 bits), and
`straddling_run_breaks_ids` shows the block boundary breaking it.

`getTermArc` reads through an LRU cache, so it changes the dictionary; the
cache only ever holds true facts (`Represents.cache`). A tier is the owned one here;
the block-cached tier of an opened snapshot is `Nova.Core.DictBlockCache`.
-/

namespace Nova

open Nova.Lib Nova.DictCompact List TermTable

/-- `DECODE_CACHE_CAPACITY`. -/
def decodeCacheCapacity : Nat := 100000

structure Dictionary where
  /-- `None` means that the term has been folded into the compacted tier. -/
  idToTerm : List (Option Term)
  termToId : AList fun _ : Term => TermId
  compacted : CompactedTier
  decodeCache : Lru Nat Term
  graphToId : AList fun _ : GraphName => GraphId
  idToGraph : AList fun _ : UInt8 => GraphName
  /-- 0 means that all 255 user ids are taken. -/
  nextGraphId : UInt8
  /-- Keyed by the raw number of the triple's id. -/
  tripleTerms : AList fun _ : Nat => TermId × TermId × TermId
  tripleIndex : AList fun _ : TermId × TermId × TermId => TermId

namespace Dictionary

def new (blockSize : Nat) : Dictionary where
  idToTerm := []
  termToId := ∅
  compacted := .empty blockSize
  decodeCache := ⟨decodeCacheCapacity, []⟩
  graphToId := (∅ : AList fun _ : GraphName => GraphId).insert .defaultGraph graphDefault
  idToGraph := (∅ : AList fun _ : UInt8 => GraphName).insert 0 .defaultGraph
  nextGraphId := 1
  tripleTerms := ∅
  tripleIndex := ∅

/-! ## Interning terms -/

/-- The result of an operation: a value or an error, with the dictionary it
leaves, unless it panics. -/
abbrev Outcome (α : Type) := Except Panic (Except Oxigraph α × Dictionary)

/-- Append a new term to the tables. -/
def push (d : Dictionary) (term : Term) : Except Oxigraph (TermId × Dictionary) := do
  let id ← TermId.new d.idToTerm.length
  return (id, { d with
    idToTerm := d.idToTerm ++ [some term]
    termToId := d.termToId.insert term id })

/-- `intern` on a term that is not a quoted triple. -/
def internRegular (d : Dictionary) (term : Term) : Outcome TermId :=
  match d.termToId.lookup term with
  | some id => .ok (.ok id, d)
  | none =>
    match d.compacted.getId term with
    | .error p => .error p
    | .ok (some raw) => .ok (TermId.new raw, d)
    | .ok none =>
      match d.push term with
      | .error e => .ok (.error e, d)
      | .ok (id, d') => .ok (.ok id, d')

/-- The end of `intern` on a quoted triple whose components are interned. -/
def internTriple (d : Dictionary) (term : Term) (components : TermId × TermId × TermId) :
    Outcome TermId :=
  match d.termToId.lookup term with
  | some id => .ok (.ok id, d)
  | none =>
    match d.push term with
    | .error e => .ok (.error e, d)
    | .ok (id, d') => .ok (.ok id, { d' with
        tripleTerms := d'.tripleTerms.insert id.asU64 components
        tripleIndex := d'.tripleIndex.insert components id })

/-- `f()?` in a function that goes on with `k`: an error is passed on. -/
def andThen {α β : Type} (x : Outcome α) (k : α → Dictionary → Outcome β) : Outcome β :=
  match x with
  | .error p => .error p
  | .ok (.error e, d) => .ok (.error e, d)
  | .ok (.ok a, d) => k a d

/-- Subjects and predicates are never triples, so only the object recurses. -/
def intern (d : Dictionary) : Term → Outcome TermId
  | .triple s p o =>
    match d.termToId.lookup (.triple s p o) with
    | some id => .ok (.ok id, d)
    | none =>
      andThen (d.internRegular s.toTerm) fun sId d =>
      andThen (d.internRegular (.namedNode p)) fun pId d =>
      andThen (d.intern o) fun oId d =>
      d.internTriple (.triple s p o) (sId, pId, oId)
  | .namedNode n => d.internRegular (.namedNode n)
  | .blankNode b => d.internRegular (.blankNode b)
  | .literal l => d.internRegular (.literal l)

def getId (d : Dictionary) (term : Term) : Except Panic (Option TermId) :=
  match d.termToId.lookup term with
  | some id => .ok (some id)
  | none => do
    match ← d.compacted.getId term with
    | none => return none
    | some raw => return (TermId.new raw).toOption

/-- The loop of `get_term_arc` over a decoded block. -/
def cacheBlock (id : Nat) : Option Term → Lru Nat Term → List (Nat × Except Oxigraph Term) →
    Option Term × Lru Nat Term
  | wanted, cache, [] => (wanted, cache)
  | wanted, cache, (origId, result) :: rest =>
    match result with
    | .error _ => cacheBlock id wanted cache rest
    | .ok term =>
      let wanted := if origId = id then some term else wanted
      cacheBlock id wanted (cache.put origId term) rest

def getTermArc (d : Dictionary) (id : TermId) : Except Panic (Option Term × Dictionary) :=
  match d.idToTerm[id.asU64]? with
  | some (some term) => .ok (some term, d)
  | some none =>
    match d.decodeCache.get id.asU64 with
    | (some term, cache) => .ok (some term, { d with decodeCache := cache })
    | (none, cache) => do
      match ← d.compacted.decodeBlockForId id.asU64 with
      | none => return (none, { d with decodeCache := cache })
      | some block =>
        let (wanted, cache) := cacheBlock id.asU64 none cache block
        return (wanted, { d with decodeCache := cache })
  | none => .ok (none, d)

/-! ## Interning graphs -/

def internGraph (d : Dictionary) (graph : GraphName) : Except Oxigraph GraphId × Dictionary :=
  match d.graphToId.lookup graph with
  | some id => (.ok id, d)
  | none =>
    if graph = .defaultGraph then
      (.ok graphDefault, { d with
        graphToId := d.graphToId.insert graph graphDefault
        idToGraph := d.idToGraph.insert 0 graph })
    else if d.nextGraphId = 0 then (.error .graphSpaceExhausted, d)
    else
      let id := d.nextGraphId
      -- `checked_add(1).unwrap_or(0)`: the byte wraps to the sentinel 0
      (.ok id, { d with
        nextGraphId := d.nextGraphId + 1
        graphToId := d.graphToId.insert graph id
        idToGraph := d.idToGraph.insert id graph })

def getGraphId (d : Dictionary) (graph : GraphName) : Option GraphId := d.graphToId.lookup graph

def getGraph (d : Dictionary) (id : GraphId) : Option GraphName := d.idToGraph.lookup id

/-! ## Compaction -/

/-- The term of an id, from its slot or decoded from the compacted tier. -/
def fetchTerm (d : Dictionary) (rawId : Nat) : Except Panic (Option (Except Oxigraph Term)) := do
  let slot ← index d.idToTerm rawId
  match slot with
  | some term => return some (.ok term)
  | none => d.compacted.decodeId rawId

/-- What `compact` collects: the regular terms with their ids. -/
def collectEntries (d : Dictionary) : List Nat → Except Panic (Except Oxigraph (List Entry))
  | [] => .ok (.ok [])
  | rawId :: rest =>
    if (d.tripleTerms.lookup rawId).isSome then d.collectEntries rest
    else do
      match ← d.fetchTerm rawId with
      | none => d.collectEntries rest
      | some (.error e) => return .error e
      | some (.ok term) =>
        let (tag, primary) ← termSortKey term
        let aux ← termAuxBytes term
        match ← d.collectEntries rest with
        | .error e => return .error e
        | .ok es => return .ok (⟨tag, primary, aux, rawId⟩ :: es)

/-- `entries.sort_by(...)`: a stable sort, by key only. -/
def sortEntries (es : List Entry) : List Entry := es.insertionSort fun a b => a.key ≤ b.key

/-- Free the table storage of one compacted term. -/
def freeSlot (d : Dictionary) (rawId : Nat) : Dictionary :=
  if (d.tripleTerms.lookup rawId).isSome then d
  else
    match d.idToTerm[rawId]? with
    | some (some term) => { d with
        idToTerm := d.idToTerm.set rawId none
        termToId := d.termToId.erase term }
    | _ => d

/-- Free every slot the new tier covers, then switch to it; cached decodings
are dropped. -/
def installTier (d : Dictionary) (newCompacted : CompactedTier) : Dictionary :=
  let d := (List.range d.idToTerm.length).foldl freeSlot d
  { d with
    compacted := newCompacted
    decodeCache := d.decodeCache.clear }

def compact (blockSize : Nat) (d : Dictionary) : Except Panic (Except Oxigraph Unit × Dictionary) := do
  let highWater := d.idToTerm.length
  match ← d.collectEntries (List.range highWater) with
  | .error e => return (.error e, d)
  | .ok entries =>
    return (.ok (), d.installTier (build blockSize (sortEntries entries) highWater))

end Dictionary

/-! ## The tier of a list of terms -/

variable {i : Nat}

theorem getElem?_grow {α : Type} {l l' : List α} (h : l <+: l') {a : α}
    (ha : l[i]? = some a) : l'[i]? = some a := by
  rcases h with ⟨ext, rfl⟩
  rw [getElem?_append_left (List.getElem?_eq_some_iff.mp ha).1, ha]

/-- The tier was built from entries `es` for the regular terms among the first
`highWater` of `terms`, each at its own position as id. -/
structure TierOf (bs : Nat) (t : CompactedTier) (es : List Entry) (terms : List Term) : Prop where
  built : t = build bs es t.highWater
  highWater_le : t.highWater ≤ terms.length
  sorted : SortedByKey es
  noStraddle : NoStraddle bs es
  addressable : Addressable bs es
  nodup : (es.map Entry.origId).Nodup
  sound : ∀ e ∈ es, e.origId < t.highWater ∧ ∃ term, terms[e.origId]? = some term ∧ e.Codes term
  complete : ∀ i term, i < t.highWater → terms[i]? = some term → term.isTriple = false →
    ∃ e ∈ es, e.origId = i

variable {term : Term}

variable {terms' : List Term}

namespace TierOf

variable {bs : Nat} {t : CompactedTier} {es : List Entry} {terms : List Term}

theorem empty (bs : Nat) (terms : List Term) : TierOf bs (.empty bs) [] terms where
  built := rfl
  highWater_le := Nat.zero_le _
  sorted := .nil
  noStraddle := by
    intro b hb e e' he
    simp at he
  addressable := by
    intro blocks hblocked
    have hnil : blocks = [] := by
      rcases blocks with _ | ⟨blk, rest⟩
      · rfl
      · have hflat := hblocked.flatten
        rw [flatten_cons, append_eq_nil_iff] at hflat
        exact absurd hflat.1 (hblocked.ne_nil blk mem_cons_self)
    rw [hnil]
    simp [offsets]
  nodup := .nil
  sound := by
    intro e he
    cases he
  complete := by
    intro i term hi
    exact absurd hi (Nat.not_lt_zero i)

section

variable (h : TierOf bs t es terms)
include h

theorem extend (hpre : terms <+: terms') : TierOf bs t es terms' where
  built := h.built
  highWater_le := h.highWater_le.trans hpre.length_le
  sorted := h.sorted
  noStraddle := h.noStraddle
  addressable := h.addressable
  nodup := h.nodup
  sound := by
    intro e he
    rcases h.sound e he with ⟨hlt, term, hterm, hcodes⟩
    exact ⟨hlt, term, getElem?_grow hpre hterm, hcodes⟩
  complete := by
    intro i term hi hterm hreg
    have hlt : i < terms.length := Nat.lt_of_lt_of_le hi h.highWater_le
    refine h.complete i term hi ?_ hreg
    rcases hpre with ⟨ext, rfl⟩
    rw [← hterm, getElem?_append_left hlt]

theorem entry_unique (hnodup : terms.Nodup) {e e' : Entry} (he : e ∈ es)
    (he' : e' ∈ es) (hkey : e'.key = e.key) (haux : e'.aux = e.aux) : e' = e := by
  rcases h.sound e he with ⟨-, term, hterm, hcodes⟩
  rcases h.sound e' he' with ⟨-, term', hterm', hcodes'⟩
  have hterms : term' = term := hcodes'.eq_of_parts hcodes hkey haux
  rw [hterms] at hterm'
  have hid : e'.origId = e.origId := by
    rcases List.getElem?_eq_some_iff.mp hterm with ⟨hi, hget⟩
    rcases List.getElem?_eq_some_iff.mp hterm' with ⟨hj, hget'⟩
    exact (List.Nodup.getElem_inj_iff hnodup).mp (hget'.trans hget.symm)
  have hparts : (e'.tag, e'.primary) = (e.tag, e.primary) := hkey
  simp only [Prod.mk.injEq] at hparts
  cases e
  cases e'
  simp_all

theorem getId_hit (hbs : 0 < bs) (hnodup : terms.Nodup) (hi : i < t.highWater) (hterm : terms[i]? = some term)
    (hreg : term.isTriple = false) : t.getId term = .ok (some i) := by
  rcases h.complete i term hi hterm hreg with ⟨e, he, hid⟩
  rcases h.sound e he with ⟨-, term', hterm', hcodes⟩
  rw [hid, hterm] at hterm'
  rw [← Option.some.inj hterm'] at hcodes
  rcases exists_layout hbs es t.highWater with ⟨blocks, hlayout⟩
  rw [← h.built] at hlayout
  have hsize : t.blockSize = bs := by rw [h.built]; rfl
  have hcount : t.encodedCount = es.length := by rw [h.built]; rfl
  rw [← hid]
  exact hlayout.getId_hit h.addressable hsize hcount h.sorted h.noStraddle hcodes he
    fun e' he' hkey haux => h.entry_unique hnodup he he' hkey haux

theorem getId_none (hbs : 0 < bs)
    (hreg : term.isTriple = false) (hnone : ∀ i, i < t.highWater → terms[i]? ≠ some term) :
    t.getId term = .ok none := by
  rcases exists_codes (Term.ne_triple_of_not_isTriple hreg) 0 with ⟨e, hcodes, -⟩
  rcases exists_layout hbs es t.highWater with ⟨blocks, hlayout⟩
  rw [← h.built] at hlayout
  have hsize : t.blockSize = bs := by rw [h.built]; rfl
  have hcount : t.encodedCount = es.length := by rw [h.built]; rfl
  refine hlayout.getId_none h.addressable hsize hcount hcodes ?_
  intro e' he' hit
  rcases h.sound e' he' with ⟨hlt, term', hterm', hcodes'⟩
  have hterms := hcodes'.eq_of_parts hcodes hit.1 hit.2
  rw [hterms] at hterm'
  exact hnone e'.origId hlt hterm'

theorem decodeId (hbs : 0 < bs)
    (hi : i < t.highWater) (hterm : terms[i]? = some term) (hreg : term.isTriple = false) :
    t.decodeId i = .ok (some (.ok term)) := by
  rcases h.complete i term hi hterm hreg with ⟨e, he, hid⟩
  rcases h.sound e he with ⟨-, term', hterm', hcodes⟩
  rw [hid, hterm] at hterm'
  rw [← Option.some.inj hterm'] at hcodes
  rcases exists_layout hbs es t.highWater with ⟨blocks, hlayout⟩
  have hdec := hlayout.decodeId h.addressable.startsFit hbs h.nodup (fun e he => (h.sound e he).1) he hcodes
  rw [← h.built, hid] at hdec
  exact hdec

theorem decodeBlockForId (hbs : 0 < bs)
    (hi : i < t.highWater) (hterm : terms[i]? = some term) (hreg : term.isTriple = false) :
    ∃ pairs, t.decodeBlockForId i = .ok (some pairs) ∧
      (∀ pair ∈ pairs, ∃ term', terms[pair.1]? = some term' ∧ pair.2 = .ok term') ∧
      ∃ pair ∈ pairs, pair.1 = i := by
  rcases h.complete i term hi hterm hreg with ⟨e, he, hid⟩
  rcases exists_layout hbs es t.highWater with ⟨blocks, hlayout⟩
  have hall : ∀ e ∈ es, ∃ term, e.Codes term := by
    intro e he
    rcases h.sound e he with ⟨-, term, -, hcodes⟩
    exact ⟨term, hcodes⟩
  rcases hlayout.decodeBlockForId h.addressable.startsFit hbs h.nodup (fun e he => (h.sound e he).1)
      hall he with ⟨pairs, hdec, hpairs, pair, hpair, hof⟩
  rw [← h.built, hid] at hdec
  refine ⟨pairs, hdec, ?_, pair, hpair, hof.1.trans hid⟩
  intro pair hpair
  rcases hpairs pair hpair with ⟨e', he', hid', term', hcodes', hres⟩
  rcases h.sound e' he' with ⟨-, term'', hterm'', hcodes''⟩
  have heq : term'' = term' := hcodes''.eq_of_parts hcodes' rfl rfl
  exact ⟨term', by rw [hid', hterm'', heq], hres⟩

end

end TierOf

/-! ## The representation invariant -/

namespace Dictionary

/-- `term_to_id` and `id_to_term` hold the same facts, all of them about ids
that fit. -/
structure TablesAgree (d : Dictionary) : Prop where
  lookup : ∀ term (id : TermId),
    d.termToId.lookup term = some id ↔ d.idToTerm[id.asU64]? = some (some term)
  bound : d.idToTerm.length ≤ maxTermId + 1

variable {d : Dictionary}

theorem TablesAgree.inj (h : d.TablesAgree) {j : Nat}
    (hi : d.idToTerm[i]? = some (some term)) (hj : d.idToTerm[j]? = some (some term)) : i = j := by
  have hb := h.bound
  have hilt := (List.getElem?_eq_some_iff.mp hi).1
  have hjlt := (List.getElem?_eq_some_iff.mp hj).1
  have hil := (h.lookup term ⟨i, by omega⟩).mpr hi
  have hjl := (h.lookup term ⟨j, by omega⟩).mpr hj
  rw [hil] at hjl
  exact congrArg TermId.asU64 (Option.some.inj hjl)

/-- The components of the quoted triple at position `i` stand at these lower
positions. -/
structure PartsAt (terms : List Term) (i : Nat) (s : Subject) (p : NamedNode) (o : Term)
    (components : TermId × TermId × TermId) : Prop where
  subject : terms[components.1.asU64]? = some s.toTerm
  predicate : terms[components.2.1.asU64]? = some (.namedNode p)
  object : terms[components.2.2.asU64]? = some o
  lower : components.1.asU64 < i ∧ components.2.1.asU64 < i ∧ components.2.2.asU64 < i

variable {p : NamedNode} {s : Subject} {o : Term}

theorem PartsAt.extend {terms : List Term} (hpre : terms <+: terms') {components : TermId × TermId × TermId}
    (h : PartsAt terms i s p o components) : PartsAt terms' i s p o components :=
  ⟨getElem?_grow hpre h.subject, getElem?_grow hpre h.predicate, getElem?_grow hpre h.object, h.lower⟩

/-- `d` represents the list of all terms ever interned, in id order. -/
structure Represents (bs : Nat) (d : Dictionary) (terms : List Term) : Prop where
  nodup : terms.Nodup
  length : d.idToTerm.length = terms.length
  slot : ∀ i term, terms[i]? = some term → d.idToTerm[i]? =
    some (if term.isTriple = false ∧ i < d.compacted.highWater then none else some term)
  tables : d.TablesAgree
  triples : ∀ i, (d.tripleTerms.lookup i).isSome = (terms[i]?).any Term.isTriple
  tier : ∃ es, TierOf bs d.compacted es terms
  cache : ∀ e ∈ d.decodeCache.entries, terms[e.1]? = some e.2
  parts : ∀ i s p o, terms[i]? = some (.triple s p o) →
    ∃ components, d.tripleTerms.lookup i = some components ∧ PartsAt terms i s p o components

/-- The graph tables are left alone. -/
def SameGraphs (d d' : Dictionary) : Prop :=
  d'.graphToId = d.graphToId ∧ d'.idToGraph = d.idToGraph ∧ d'.nextGraphId = d.nextGraphId

variable {bs : Nat} {d : Dictionary} {terms : List Term}

theorem represents_new (bs : Nat) : Represents bs (new bs) [] where
  nodup := .nil
  length := rfl
  slot := by
    intro i term hi
    simp at hi
  tables := by
    constructor
    · intro term id
      simp [new]
    · simp [new]
  triples := by
    intro i
    simp [new]
  tier := ⟨[], TierOf.empty bs []⟩
  cache := by
    intro e he
    simp [new] at he
  parts := by
    intro i s p o hi
    simp at hi

variable {d' : Dictionary} {id : TermId}

namespace Represents

section

variable (h : Represents bs d terms)
include h

theorem idx_le (hi : terms[i]? = some term) : i ≤ maxTermId := by
  have hlt := (List.getElem?_eq_some_iff.mp hi).1
  have hb := h.tables.bound
  have hlen := h.length
  omega

theorem idx_inj {j : Nat} (hi : terms[i]? = some term) (hj : terms[j]? = some term) : i = j := by
  rcases List.getElem?_eq_some_iff.mp hi with ⟨hi', hget⟩
  rcases List.getElem?_eq_some_iff.mp hj with ⟨hj', hget'⟩
  exact (List.Nodup.getElem_inj_iff h.nodup).mp (hget.trans hget'.symm)

theorem term_of_slot
    (hi : d.idToTerm[i]? = some (some term)) : terms[i]? = some term := by
  have hlt : i < terms.length := by
    rw [← h.length]
    exact (List.getElem?_eq_some_iff.mp hi).1
  have hslot := h.slot i terms[i] (getElem?_eq_getElem hlt)
  rw [hi] at hslot
  split at hslot
  · cases hslot
  · rw [getElem?_eq_getElem hlt, Option.some.inj (Option.some.inj hslot)]

theorem term_of_lookup
    (hlook : d.termToId.lookup term = some id) : terms[id.asU64]? = some term :=
  h.term_of_slot ((h.tables.lookup term id).mp hlook)

theorem cases_tier (hid : terms[id.asU64]? = some term) : d.termToId.lookup term = some id ∨
      (d.termToId.lookup term = none ∧ term.isTriple = false ∧
        id.asU64 < d.compacted.highWater) := by
  have hslot := h.slot id.asU64 term hid
  by_cases hcomp : term.isTriple = false ∧ id.asU64 < d.compacted.highWater
  · right
    refine ⟨?_, hcomp⟩
    rw [if_pos hcomp] at hslot
    cases hlook : d.termToId.lookup term with
    | none => rfl
    | some id' =>
      have hslot' := (h.tables.lookup term id').mp hlook
      have heq := h.idx_inj (h.term_of_slot hslot') hid
      rw [heq, hslot] at hslot'
      cases hslot'
  · left
    rw [if_neg hcomp] at hslot
    exact (h.tables.lookup term id).mpr hslot

theorem getId (hbs : 0 < bs) (hid : terms[id.asU64]? = some term) : d.getId term = .ok (some id) := by
  rcases h.cases_tier hid with hlook | ⟨hnone, hreg, hlt⟩
  · simp [Dictionary.getId, hlook]
  · rcases h.tier with ⟨es, htier⟩
    simp [Dictionary.getId, hnone, htier.getId_hit hbs h.nodup hlt hid hreg, Except.toOption]

theorem lookup_none (hnew : term ∉ terms) : d.termToId.lookup term = none := by
  cases hlook : d.termToId.lookup term with
  | none => rfl
  | some id => exact absurd (mem_of_getElem? (h.term_of_lookup hlook)) hnew

theorem tier_none (hbs : 0 < bs) (hreg : term.isTriple = false)
    (hnew : term ∉ terms) : d.compacted.getId term = .ok none := by
  rcases h.tier with ⟨es, htier⟩
  apply htier.getId_none hbs hreg
  intro i _ hi
  exact hnew (mem_of_getElem? hi)

end

/-! ## Interning keeps it -/

/-- One new term in the tables. -/
theorem grow (h : Represents bs d terms) (hnew : term ∉ terms) (hid : id.asU64 = terms.length)
    (hslots : d'.idToTerm = d.idToTerm ++ [some term]) (hlook : d'.termToId = d.termToId.insert term id)
    (hcomp : d'.compacted = d.compacted) (hcache : d'.decodeCache = d.decodeCache)
    (htriples : ∀ i, (d'.tripleTerms.lookup i).isSome = ((terms ++ [term])[i]?).any Term.isTriple)
    (hparts : ∀ s p o, term = .triple s p o → ∃ components,
      d'.tripleTerms.lookup terms.length = some components ∧
        PartsAt terms terms.length s p o components)
    (hkept : ∀ i < terms.length, d'.tripleTerms.lookup i = d.tripleTerms.lookup i) :
    Represents bs d' (terms ++ [term]) := by
  rcases h.tier with ⟨es, htier⟩
  have hpre : terms <+: terms ++ [term] := prefix_append _ _
  have hold : ∀ i t, terms[i]? = some t → i < terms.length := fun i t hi =>
    (List.getElem?_eq_some_iff.mp hi).1
  constructor
  case nodup => exact nodup_append.mpr ⟨h.nodup, by simp, by
    intro a ha b hb
    rw [mem_singleton] at hb
    intro hab
    rw [hab, hb] at ha
    exact hnew ha⟩
  case length => rw [hslots, length_append, length_append, h.length]; rfl
  case slot =>
    intro i t hi
    rw [hslots, hcomp]
    -- the slots before stay, and the new one holds the new term
    rcases Nat.lt_or_ge i terms.length with hlt | hge
    · rw [getElem?_append_left hlt] at hi
      rw [getElem?_append_left (by rw [h.length]; exact hlt)]
      exact h.slot i t hi
    · have hieq : i = terms.length := by
        have hlen := (List.getElem?_eq_some_iff.mp hi).1
        rw [length_append, length_singleton] at hlen
        omega
      have hteq : t = term := by
        rw [hieq, getElem?_append_right le_rfl] at hi
        simpa using hi.symm
      have hhw := htier.highWater_le
      rw [hieq, ← h.length, getElem?_append_right le_rfl, hteq, if_neg (by rw [h.length]; omega)]
      simp
  case tables =>
    constructor
    · intro t id'
      rw [hslots, hlook]
      by_cases ht : t = term
      -- the new term has the new id and no older one
      · rw [ht, AList.lookup_insert]
        constructor
        · intro hsome
          rw [← Option.some.inj hsome, hid, ← h.length, getElem?_append_right le_rfl]
          simp
        · intro hslot
          rcases Nat.lt_or_ge id'.asU64 d.idToTerm.length with hlt | hge
          · rw [getElem?_append_left hlt] at hslot
            exact absurd (mem_of_getElem? (h.term_of_slot hslot)) hnew
          · have hlen := (List.getElem?_eq_some_iff.mp hslot).1
            rw [length_append, length_singleton, h.length] at hlen
            rw [h.length] at hge
            exact congrArg some (TermId.eq_of_asU64 (by omega))
      · rw [AList.lookup_insert_ne ht, h.tables.lookup]
        constructor
        · intro hslot
          rw [getElem?_append_left (List.getElem?_eq_some_iff.mp hslot).1, hslot]
        · intro hslot
          rcases Nat.lt_or_ge id'.asU64 d.idToTerm.length with hlt | hge
          · rwa [getElem?_append_left hlt] at hslot
          · have hmem := mem_of_getElem? ((getElem?_append_right hge).symm.trans hslot)
            rw [mem_singleton] at hmem
            exact absurd (Option.some.inj hmem) ht
    · have hle := id.le_max
      rw [hslots, length_append, length_singleton, h.length]
      omega
  case triples => exact htriples
  case tier => exact ⟨es, by rw [hcomp]; exact htier.extend hpre⟩
  case cache =>
    intro e he
    rw [hcache] at he
    exact getElem?_grow hpre (h.cache e he)
  case parts =>
    intro i s p o hi
    rcases Nat.lt_or_ge i terms.length with hlt | hge
    · rw [getElem?_append_left hlt] at hi
      rcases h.parts i s p o hi with ⟨components, hlook, hat⟩
      exact ⟨components, (hkept i hlt).trans hlook, hat.extend hpre⟩
    · rw [getElem?_append_right hge] at hi
      have hieq : i = terms.length := by
        have hlen := (List.getElem?_eq_some_iff.mp hi).1
        rw [length_singleton] at hlen
        omega
      have hterm : term = .triple s p o := by
        rw [hieq] at hi
        simpa using hi
      rcases hparts s p o hterm with ⟨components, hlook, hat⟩
      rw [hieq]
      exact ⟨components, hlook, hat.extend hpre⟩

end Represents

/-- The dictionary moved on: terms were only added at the end. -/
structure Evolves (bs : Nat) (d : Dictionary) (terms : List Term) (d' : Dictionary)
    (terms' : List Term) : Prop where
  grows : terms <+: terms'
  represents : Represents bs d' terms'
  graphs : SameGraphs d d'
  tier : d'.compacted = d.compacted

/-- What a call of `intern` on `term` leaves behind: the terms of `T'`, and the
dictionary as it was if `term` was already there. -/
structure Interned (bs : Nat) (d : Dictionary) (T : TermTable) (term : Term) (d' : Dictionary)
    (T' : TermTable) : Prop extends Evolves bs d T.items d' T'.items where
  known : term ∈ T.items → d' = d

theorem SameGraphs.trans {d'' : Dictionary} (h : SameGraphs d d') (h' : SameGraphs d' d'') :
    SameGraphs d d'' :=
  ⟨h'.1.trans h.1, h'.2.1.trans h.2.1, h'.2.2.trans h.2.2⟩

theorem Represents.evolves_refl (h : Represents bs d terms) : Evolves bs d terms d terms :=
  ⟨prefix_refl _, h, ⟨rfl, rfl, rfl⟩, rfl⟩

theorem Evolves.trans {d'' : Dictionary} {terms'' : List Term}
    (h : Evolves bs d terms d' terms') (h' : Evolves bs d' terms' d'' terms'') :
    Evolves bs d terms d'' terms'' :=
  ⟨h.grows.trans h'.grows, h'.represents, h.graphs.trans h'.graphs, h'.tier.trans h.tier⟩

/-- A call on a new term may change the dictionary in any way that keeps the
invariant. -/
theorem Evolves.interned {T T' : TermTable} (h : Evolves bs d T.items d' T'.items)
    (hnew : term ∉ T.items) : Interned bs d T term d' T' :=
  ⟨h, fun hmem => absurd hmem hnew⟩

namespace Represents

/-- The represented terms as a table. -/
def table (h : Represents bs d terms) : TermTable where
  items := terms
  nodup := h.nodup
  length_le := by
    rw [← h.length]
    exact h.tables.bound

variable {T : TermTable}

theorem push_room (h : Represents bs d T.items) (term : Term)
    (hroom : T.items.length < maxTermId + 1) :
    d.push term = .ok (⟨T.items.length, Nat.le_of_lt_succ hroom⟩, { d with
      idToTerm := d.idToTerm ++ [some term]
      termToId := d.termToId.insert term ⟨T.items.length, Nat.le_of_lt_succ hroom⟩ }) := by
  rw [push, h.length, TermId.new, dif_pos (Nat.le_of_lt_succ hroom)]
  rfl

theorem push_full (h : Represents bs d T.items) (term : Term)
    (hfull : ¬T.items.length < maxTermId + 1) : d.push term = .error .idSpaceExhausted := by
  rw [push, h.length, TermId.new, dif_neg (fun hle => hfull (Nat.lt_succ_of_le hle))]
  rfl

/-- A term without an id gets the next one. -/
theorem internRegular_spec (h : Represents bs d T.items) (hbs : 0 < bs) (hreg : term.isTriple = false) :
    ∃ d', d.internRegular term = .ok ((T.internOne term).1, d') ∧
      Interned bs d T term d' (T.internOne term).2 := by
  by_cases hmem : term ∈ T.items
  · rcases mem_iff_getElem?.mp hmem with ⟨i, hi⟩
    have hle := h.idx_le hi
    have hid : T.get? (⟨i, hle⟩ : TermId).asU64 = some term := hi
    rw [internOne_known hid]
    refine ⟨d, ?_, h.evolves_refl, fun _ => rfl⟩
    rcases h.cases_tier hid with hlook | ⟨hnone, -, hlt⟩
    · simp [internRegular, hlook]
    · rcases h.tier with ⟨es, htier⟩
      have hget := htier.getId_hit hbs h.nodup hlt hid hreg
      simp [internRegular, hnone, hget, TermId.new, hle]
  · have hnone := h.lookup_none hmem
    have hget := h.tier_none hbs hreg hmem
    by_cases hroom : T.items.length < maxTermId + 1
    · rw [internOne_new hmem hroom]
      refine ⟨_, by simp only [internRegular, hnone, hget, h.push_room term hroom]; rfl, ?_⟩
      refine ⟨⟨prefix_append _ _, ?_, ⟨rfl, rfl, rfl⟩, rfl⟩, fun hold => absurd hold hmem⟩
      refine h.grow hmem rfl rfl rfl rfl rfl ?_ ?_ fun _ _ => rfl
      · intro i
        rw [h.triples]
        rcases Nat.lt_or_ge i T.items.length with hlt | hge
        · rw [getElem?_append_left hlt]
        · -- the new term is not a triple
          rw [getElem?_append_right hge, getElem?_eq_none hge]
          cases hi : [term][i - T.items.length]? with
          | none => rfl
          | some t =>
            have ht : t = term := by simpa using mem_of_getElem? hi
            simp [ht, hreg]
      · intro s p o heq
        exact absurd heq (Term.ne_triple_of_not_isTriple hreg s p o)
    · rw [internOne_full hmem hroom]
      exact ⟨d, by simp [internRegular, hnone, hget, h.push_full term hroom],
        h.evolves_refl.interned hmem⟩

theorem not_mem_of_lookup_none (h : Represents bs d terms)
    (hlook : d.termToId.lookup (.triple s p o) = none) : Term.triple s p o ∉ terms := by
  intro hmem
  rcases mem_iff_getElem?.mp hmem with ⟨i, hi⟩
  have hid : terms[(⟨i, h.idx_le hi⟩ : TermId).asU64]? = some (.triple s p o) := hi
  rcases h.cases_tier hid with hlook' | ⟨-, hreg, -⟩
  · rw [hlook] at hlook'
    cases hlook'
  · cases hreg

theorem internTriple_spec (h : Represents bs d T.items)
    (components : TermId × TermId × TermId) (hs : T.get? components.1.asU64 = some s.toTerm)
    (hp : T.get? components.2.1.asU64 = some (.namedNode p)) (ho : T.get? components.2.2.asU64 = some o) :
    ∃ d', d.internTriple (.triple s p o) components =
        .ok ((T.internOne (.triple s p o)).1, d') ∧
      Interned bs d T (.triple s p o) d' (T.internOne (.triple s p o)).2 := by
  cases hlook : d.termToId.lookup (.triple s p o) with
  | some id =>
    rw [internOne_known (h.term_of_lookup hlook)]
    exact ⟨d, by simp [internTriple, hlook], h.evolves_refl, fun _ => rfl⟩
  | none =>
    have hmem := h.not_mem_of_lookup_none hlook
    by_cases hroom : T.items.length < maxTermId + 1
    · rw [internOne_new hmem hroom]
      refine ⟨_, by simp only [internTriple, hlook, h.push_room (.triple s p o) hroom]; rfl, ?_⟩
      refine ⟨⟨prefix_append _ _, ?_, ⟨rfl, rfl, rfl⟩, rfl⟩, fun hold => absurd hold hmem⟩
      refine h.grow hmem rfl rfl rfl rfl rfl ?_ ?_ ?_
      · intro i
        by_cases hi : i = T.items.length
        · rw [hi]
          simp [Term.isTriple]
        · rw [AList.lookup_insert_ne hi, h.triples]
          rcases Nat.lt_or_ge i T.items.length with hlt | hge
          · rw [getElem?_append_left hlt]
          · rw [getElem?_eq_none hge, getElem?_eq_none]
            rw [length_append, length_singleton]
            omega
      · intro s' p' o' heq
        cases heq
        refine ⟨components, AList.lookup_insert _, hs, hp, ho, ?_⟩
        exact ⟨(List.getElem?_eq_some_iff.mp hs).1, (List.getElem?_eq_some_iff.mp hp).1,
          (List.getElem?_eq_some_iff.mp ho).1⟩
      · intro i hi
        exact AList.lookup_insert_ne (Nat.ne_of_lt hi)
    · rw [internOne_full hmem hroom]
      exact ⟨d, by simp [internTriple, hlook, h.push_full _ hroom], h.evolves_refl.interned hmem⟩

end Represents

/-- `intern` never panics, and does what the table does. -/
theorem Represents.intern_spec (hbs : 0 < bs) (term : Term) :
    ∀ {d : Dictionary} {T : TermTable}, Represents bs d T.items →
      ∃ d', d.intern term = .ok ((T.internTerm term).1, d') ∧
        Interned bs d T term d' (T.internTerm term).2 := by
  induction term with
  | namedNode n =>
    intro d T h
    exact h.internRegular_spec hbs rfl
  | blankNode b =>
    intro d T h
    exact h.internRegular_spec hbs rfl
  | literal l =>
    intro d T h
    exact h.internRegular_spec hbs rfl
  | triple s p o ih =>
    intro d T h
    rw [intern]
    cases hlook : d.termToId.lookup (.triple s p o) with
    | some id =>
      rw [internTerm_known T (h.term_of_lookup hlook)]
      exact ⟨d, rfl, h.evolves_refl, fun _ => rfl⟩
    | none =>
      have hnew := h.not_mem_of_lookup_none hlook
      have hid : T.idOf (.triple s p o) = none := by
        cases hid : T.idOf (.triple s p o) with
        | none => rfl
        | some id => exact absurd (Table.mem_of_get? (idOf_eq_some.mp hid)) hnew
      simp only [TermTable.internTerm, hid]
      -- subject
      rcases h.internRegular_spec hbs s.toTerm_isTriple with ⟨ds, hs, his⟩
      have hsm := @get?_internOne T s.toTerm
      rcases hrs : T.internOne s.toTerm with ⟨rs, Ts⟩
      rw [hrs] at hs his hsm
      simp only [hs, andThen]
      cases rs with
      | error e => exact ⟨ds, rfl, his.toEvolves.interned hnew⟩
      | ok sId =>
        -- predicate
        have hpred : (Term.namedNode p).isTriple = false := rfl
        rcases his.represents.internRegular_spec hbs hpred with ⟨dp, hp, hip⟩
        have hpm := @get?_internOne Ts (.namedNode p)
        rcases hrp : Ts.internOne (.namedNode p) with ⟨rp, Tp⟩
        rw [hrp] at hp hip hpm
        have hev := his.toEvolves.trans hip.toEvolves
        simp only [hp, hrp]
        cases rp with
        | error e => exact ⟨dp, rfl, hev.interned hnew⟩
        | ok pId =>
          -- object
          rcases ih hip.represents with ⟨d₃, ho, hio⟩
          have hom := (internTerm_spec o Tp).2
          rcases hro : Tp.internTerm o with ⟨ro, To⟩
          rw [hro] at ho hio hom
          have hev := hev.trans hio.toEvolves
          simp only [ho, hro]
          cases ro with
          | error e => exact ⟨d₃, rfl, hev.interned hnew⟩
          | ok oId =>
            have hs₃ : To.get? sId.asU64 = some s.toTerm :=
              getElem?_grow (hip.grows.trans hio.grows) (hsm rfl)
            have hp₃ : To.get? pId.asU64 = some (.namedNode p) := getElem?_grow hio.grows (hpm rfl)
            rcases hio.represents.internTriple_spec (sId, pId, oId) hs₃ hp₃
              (hom oId rfl) with ⟨d₄, hr, hfin⟩
            exact ⟨d₄, hr, (hev.trans hfin.toEvolves).interned hnew⟩

/-! ## Reading a term keeps it -/

/-- The loop over a decoded block keeps the cache true and finds the wanted
term. -/
theorem cacheBlock_spec (id : Nat) (pairs : List (Nat × Except Oxigraph Term)) :
    ∀ (wanted : Option Term) (cache : Lru Nat Term),
      (∀ pair ∈ pairs, ∃ term, terms[pair.1]? = some term ∧ pair.2 = .ok term) →
      (∀ e ∈ cache.entries, terms[e.1]? = some e.2) →
      (wanted = terms[id]? ∨ ∃ pair ∈ pairs, pair.1 = id) →
      (cacheBlock id wanted cache pairs).1 = terms[id]? ∧
        ∀ e ∈ (cacheBlock id wanted cache pairs).2.entries, terms[e.1]? = some e.2 := by
  induction pairs with
  | nil =>
    intro wanted cache _ hcache hwanted
    rcases hwanted with hwanted | ⟨pair, hpair, -⟩
    · exact ⟨hwanted, hcache⟩
    · cases hpair
  | cons pair pairs ih =>
    intro wanted cache hpairs hcache hwanted
    rcases hpairs pair mem_cons_self with ⟨term, hterm, hres⟩
    rcases pair with ⟨origId, result⟩
    subst hres
    rw [cacheBlock]
    apply ih
    · intro pair' hpair'
      exact hpairs pair' (mem_cons_of_mem _ hpair')
    · intro e he
      rcases Lru.mem_put he with rfl | he
      · exact hterm
      · exact hcache e he
    · by_cases hid : origId = id
      · left
        rw [if_pos hid, ← hid, hterm]
      · rw [if_neg hid]
        rcases hwanted with hwanted | ⟨pair', hpair', heq⟩
        · exact .inl hwanted
        · rcases mem_cons.mp hpair' with rfl | hpair'
          · exact absurd heq hid
          · exact .inr ⟨pair', hpair', heq⟩

theorem Represents.with_cache (h : Represents bs d terms) {cache : Lru Nat Term}
    (hcache : ∀ e ∈ cache.entries, terms[e.1]? = some e.2) :
    Represents bs { d with decodeCache := cache } terms :=
  ⟨h.nodup, h.length, h.slot, ⟨h.tables.lookup, h.tables.bound⟩, h.triples, h.tier, hcache, h.parts⟩

/-- `get_term_arc` returns the term at the position, whatever the cache holds. -/
theorem Represents.getTermArc_spec (h : Represents bs d terms) (hbs : 0 < bs) (id : TermId) :
    ∃ d', d.getTermArc id = .ok (terms[id.asU64]?, d') ∧ Evolves bs d terms d' terms := by
  rw [getTermArc]
  cases hterm : terms[id.asU64]? with
  | none =>
    have hslot : d.idToTerm[id.asU64]? = none := by
      rw [List.getElem?_eq_none_iff] at hterm ⊢
      rw [h.length]
      exact hterm
    rw [hslot]
    exact ⟨d, rfl, h.evolves_refl⟩
  | some term =>
    have hslot := h.slot id.asU64 term hterm
    by_cases hcomp : term.isTriple = false ∧ id.asU64 < d.compacted.highWater
    · rw [if_pos hcomp] at hslot
      simp only [hslot]
      have hget := d.decodeCache.get_spec id.asU64
      rcases hlookup : d.decodeCache.get id.asU64 with ⟨found, cache⟩
      rw [hlookup] at hget
      have hcache : ∀ e ∈ cache.entries, terms[e.1]? = some e.2 := fun e he =>
        h.cache e (hget.2 e he)
      cases found with
      | some term' =>
        -- a cached entry is a true fact
        have htrue := h.cache _ (hget.1 term' rfl)
        simp only at htrue
        rw [hterm] at htrue
        refine ⟨_, by rw [← Option.some.inj htrue], ⟨prefix_refl _, h.with_cache hcache, ?_, rfl⟩⟩
        exact ⟨rfl, rfl, rfl⟩
      | none =>
        rcases h.tier with ⟨es, htier⟩
        rcases htier.decodeBlockForId hbs hcomp.2 hterm hcomp.1 with ⟨pairs, hdec, hpairs, hwanted⟩
        have hblock := cacheBlock_spec id.asU64 pairs none cache hpairs hcache (.inr hwanted)
        simp only [hdec, ok_bind]
        rcases hres : cacheBlock id.asU64 none cache pairs with ⟨wanted, cache'⟩
        rw [hres] at hblock
        refine ⟨{ d with decodeCache := cache' }, ?_, prefix_refl _,
          h.with_cache hblock.2, ⟨rfl, rfl, rfl⟩, rfl⟩
        simp only at hblock
        simp [hblock.1, hterm]
    · rw [if_neg hcomp] at hslot
      simp only [hslot]
      exact ⟨d, rfl, h.evolves_refl⟩

/-! ## Compaction keeps it -/

/-- The regular positions of the list of terms. -/
def regularAt (terms : List Term) (i : Nat) : Bool := !(terms[i]?).any Term.isTriple

theorem Represents.fetchTerm (h : Represents bs d terms) (hbs : 0 < bs)
    (hterm : terms[i]? = some term) (hreg : term.isTriple = false) :
    d.fetchTerm i = .ok (some (.ok term)) := by
  rw [Dictionary.fetchTerm, index, h.slot i term hterm]
  by_cases hcomp : term.isTriple = false ∧ i < d.compacted.highWater
  · rcases h.tier with ⟨es, htier⟩
    simp only [if_pos hcomp, ok_bind]
    exact htier.decodeId hbs hcomp.2 hterm hreg
  · simp only [if_neg hcomp, ok_bind]
    rfl

/-- The entry of a term with its id; quoted triples have none. -/
def entryOf (id : Nat) (term : Term) : Option Entry :=
  match termSortKey term, termAuxBytes term with
  | .ok (tag, primary), .ok aux => some ⟨tag, primary, aux, id⟩
  | _, _ => none

def entryAt (terms : List Term) (i : Nat) : Option Entry := (terms[i]?).bind (entryOf i)

/-- The entries a compaction sorts. -/
def entriesOf (terms : List Term) : List Entry := (List.range terms.length).filterMap (entryAt terms)

theorem entryOf_of_codes {e : Entry} (h : e.Codes term) : entryOf e.origId term = some e := by
  rw [entryOf, h.key, h.aux]

theorem entryAt_eq_some {e : Entry} (h : entryAt terms i = some e) :
    e.origId = i ∧ ∃ term, terms[i]? = some term ∧ e.Codes term := by
  rcases Option.bind_eq_some_iff.mp h with ⟨term, hterm, hof⟩
  unfold entryOf at hof
  split at hof
  · next tag primary aux hkey haux =>
    cases hof
    exact ⟨rfl, term, hterm, hkey, haux⟩
  · cases hof

theorem entryAt_isSome (hi : i < terms.length) : (entryAt terms i).isSome = regularAt terms i := by
  have hterm := getElem?_eq_getElem hi
  cases htriple : (terms[i]).isTriple with
  | true =>
    rcases hcase : terms[i] with n | b | l | ⟨s, p, o⟩
    all_goals rw [hcase] at htriple hterm
    case triple => simp [entryAt, hterm, regularAt, entryOf, termSortKey, Term.isTriple]
    all_goals cases htriple
  | false =>
    rcases exists_codes (Term.ne_triple_of_not_isTriple htriple) i with ⟨e, he, hid⟩
    have hof := entryOf_of_codes he
    rw [hid] at hof
    simp [entryAt, hterm, regularAt, hof, htriple]

/-- `collectEntries` visits the regular ids in order. -/
theorem Represents.collectEntries_eq (h : Represents bs d terms) (hbs : 0 < bs) (ids : List Nat)
    (hids : ∀ i ∈ ids, i < terms.length) :
    d.collectEntries ids = .ok (.ok (ids.filterMap (entryAt terms))) := by
  induction ids with
  | nil => rfl
  | cons i ids ih =>
    have hes := ih (fun j hj => hids j (mem_cons_of_mem i hj))
    have hlt := hids i mem_cons_self
    have hterm := getElem?_eq_getElem hlt
    have hsome := entryAt_isSome hlt
    rw [collectEntries, h.triples, hterm]
    cases htriple : (terms[i]).isTriple with
    | true =>
      have hnone : entryAt terms i = none := by
        simpa [regularAt, hterm, htriple] using hsome
      simp [htriple, hes, hnone]
    | false =>
      rcases exists_codes (Term.ne_triple_of_not_isTriple htriple) i with ⟨e, he, hid⟩
      have hof : entryAt terms i = some e := by
        have hcodes := entryOf_of_codes he
        rw [hid] at hcodes
        rw [entryAt, hterm]
        exact hcodes
      have heta : (⟨e.tag, e.primary, e.aux, i⟩ : Entry) = e := by rw [← hid]
      simp [htriple, h.fetchTerm hbs hterm htriple, he.key, he.aux, hes, heta, hof]

theorem Represents.collectEntries_all (h : Represents bs d terms) (hbs : 0 < bs) :
    d.collectEntries (List.range d.idToTerm.length) = .ok (.ok (entriesOf terms)) := by
  rw [h.length, entriesOf]
  exact h.collectEntries_eq hbs _ fun i hi => mem_range.mp hi

theorem entriesOf_ids (terms : List Term) :
    (entriesOf terms).map Entry.origId = (List.range terms.length).filter (regularAt terms) := by
  rw [entriesOf]
  have hids : ∀ ids : List Nat, (∀ i ∈ ids, i < terms.length) →
      (ids.filterMap (entryAt terms)).map Entry.origId = ids.filter (regularAt terms) := by
    intro ids hids
    induction ids with
    | nil => rfl
    | cons i ids ih =>
      have hrest := ih (fun j hj => hids j (mem_cons_of_mem i hj))
      have hsome := entryAt_isSome (hids i mem_cons_self)
      cases hat : entryAt terms i with
      | none =>
        rw [hat] at hsome
        rw [filterMap_cons_none hat, filter_cons_of_neg (by simp [← hsome]), hrest]
      | some e =>
        rw [hat] at hsome
        rw [filterMap_cons_some hat, filter_cons_of_pos (by simp [← hsome]), map_cons,
          hrest, (entryAt_eq_some hat).1]
  exact hids _ fun i hi => mem_range.mp hi

theorem codes_of_mem_entriesOf {e : Entry} (he : e ∈ entriesOf terms) :
    ∃ term, terms[e.origId]? = some term ∧ e.Codes term := by
  rcases mem_filterMap.mp he with ⟨i, -, hat⟩
  rcases entryAt_eq_some hat with ⟨rfl, term, hterm, hcodes⟩
  exact ⟨term, hterm, hcodes⟩

theorem freeSlot_tables (h : d.TablesAgree) (i : Nat) : (d.freeSlot i).TablesAgree := by
  rw [freeSlot]
  split
  · exact h
  · split
    · rename_i term hslot
      constructor
      · intro t id
        by_cases ht : t = term
        · -- the freed term had no other slot
          rw [ht, AList.lookup_erase]
          constructor
          · intro hnone
            cases hnone
          · intro hset
            by_cases hid : i = id.asU64
            · rw [← hid, getElem?_set_self (List.getElem?_eq_some_iff.mp hslot).1] at hset
              cases hset
            · rw [getElem?_set_ne hid] at hset
              exact absurd (h.inj hslot hset) hid
        · rw [AList.lookup_erase_ne ht, h.lookup]
          by_cases hid : i = id.asU64
          · rw [← hid, hslot, getElem?_set_self (List.getElem?_eq_some_iff.mp hslot).1]
            simp [Ne.symm ht]
          · rw [getElem?_set_ne hid]
      · simpa using h.bound
    · exact h

theorem freeSlot_frame (d : Dictionary) (i : Nat) :
    (d.freeSlot i).tripleTerms = d.tripleTerms ∧
      (d.freeSlot i).idToTerm.length = d.idToTerm.length ∧ SameGraphs d (d.freeSlot i) := by
  rw [freeSlot]
  split
  · exact ⟨rfl, rfl, rfl, rfl, rfl⟩
  · split
    · exact ⟨rfl, length_set, rfl, rfl, rfl⟩
    · exact ⟨rfl, rfl, rfl, rfl, rfl⟩

theorem freeSlot_slot (d : Dictionary) (i j : Nat) :
    (d.freeSlot i).idToTerm[j]? =
      if j = i ∧ (d.tripleTerms.lookup i).isSome = false then (d.idToTerm[j]?).map fun _ => none
      else d.idToTerm[j]? := by
  rw [freeSlot]
  by_cases htriple : (d.tripleTerms.lookup i).isSome = true
  · rw [if_pos htriple, if_neg (by simp [htriple])]
  · rw [if_neg htriple]
    by_cases hij : j = i
    · rw [if_pos ⟨hij, by simpa using htriple⟩, hij]
      cases hslot : d.idToTerm[i]? with
      | none => simp [hslot]
      | some slot =>
        have hlt := (List.getElem?_eq_some_iff.mp hslot).1
        cases slot with
        | none => simp [hslot]
        | some term => simp [hlt]
    · rw [if_neg (by simp [hij])]
      split
      · rw [getElem?_set_ne (Ne.symm hij)]
      · rfl

/-- Freeing all slots below `n`. -/
theorem freeAll_spec (h : d.TablesAgree) (n : Nat) :
    ((List.range n).foldl freeSlot d).TablesAgree ∧
      ((List.range n).foldl freeSlot d).tripleTerms = d.tripleTerms ∧
      ((List.range n).foldl freeSlot d).idToTerm.length = d.idToTerm.length ∧
      SameGraphs d ((List.range n).foldl freeSlot d) ∧
      ∀ j, ((List.range n).foldl freeSlot d).idToTerm[j]? =
        if j < n ∧ (d.tripleTerms.lookup j).isSome = false then (d.idToTerm[j]?).map fun _ => none
        else d.idToTerm[j]? := by
  induction n with
  | zero => exact ⟨h, rfl, rfl, ⟨rfl, rfl, rfl⟩, fun j => by simp⟩
  | succ n ih =>
    rcases ih with ⟨htab, htri, hlen, hgr, hslots⟩
    rw [range_succ, foldl_append, foldl_cons, foldl_nil]
    generalize (List.range n).foldl freeSlot d = d₁ at htab htri hlen hgr hslots
    rcases freeSlot_frame d₁ n with ⟨ftri, flen, fgr⟩
    refine ⟨freeSlot_tables htab n, ftri.trans htri, flen.trans hlen, hgr.trans fgr, ?_⟩
    intro j
    rw [freeSlot_slot, htri, hslots j]
    by_cases hj : j = n
    · rw [hj]
      by_cases htriple : (d.tripleTerms.lookup n).isSome = false
      · simp [htriple]
      · simp [htriple]
    · have hiff : j < n + 1 ↔ j < n := by omega
      simp [hj, hiff]

/-- The condition under which a compaction keeps every id: in the entries it
sorts, no run of equal keys crosses a block boundary, and block starts and key
offsets fit in 32 bits. -/
def CompactSafe (bs : Nat) (d : Dictionary) : Prop :=
  ∀ es, d.collectEntries (List.range d.idToTerm.length) = .ok (.ok es) →
    NoStraddle bs (sortEntries es) ∧ Addressable bs (sortEntries es)

/-- The same condition on the terms themselves. -/
def TermsSafe (bs : Nat) (terms : List Term) : Prop :=
  NoStraddle bs (sortEntries (entriesOf terms)) ∧ Addressable bs (sortEntries (entriesOf terms))

theorem Represents.compactSafe (h : Represents bs d terms) (hbs : 0 < bs)
    (hsafe : TermsSafe bs terms) : CompactSafe bs d := by
  intro es hes
  rw [h.collectEntries_all hbs] at hes
  cases hes
  exact hsafe

theorem sortEntries_sorted (es : List Entry) : SortedByKey (sortEntries es) := by
  exact pairwise_insertionSort _ es

theorem sortEntries_perm (es : List Entry) : (sortEntries es).Perm es :=
  perm_insertionSort _ es

/-- A safe compaction keeps every term under its id and leaves the regular ones in the tier. -/
theorem Represents.compact_spec (h : Represents bs d terms) (hbs : 0 < bs) (hsafe : CompactSafe bs d) :
    ∃ d', compact bs d = .ok (.ok (), d') ∧ Represents bs d' terms ∧ SameGraphs d d' ∧
      d'.compacted.highWater = terms.length := by
  have hes := h.collectEntries_all hbs
  have hids := entriesOf_ids terms
  have hcodes := fun e he => @codes_of_mem_entriesOf terms e he
  rcases hsafe _ hes with ⟨hstr, haddr⟩
  generalize entriesOf terms = es at hes hids hcodes hstr haddr
  have hperm := sortEntries_perm es
  rcases freeAll_spec h.tables d.idToTerm.length with ⟨htab, htri, hlen, hgr, hslots⟩
  refine ⟨d.installTier (build bs (sortEntries es) d.idToTerm.length), ?_, ?_, hgr, h.length⟩
  · simp only [compact, hes, ok_bind]
    rfl
  have htriple : ∀ i term, terms[i]? = some term →
      (d.tripleTerms.lookup i).isSome = term.isTriple := by
    intro i term hi
    rw [h.triples, hi]
    rfl
  constructor
  case nodup => exact h.nodup
  case length => exact hlen.trans h.length
  -- a regular term moves to the tier, a quoted triple keeps its slot
  case slot =>
    intro i term hi
    have hold := h.slot i term hi
    have hlt := (List.getElem?_eq_some_iff.mp hold).1
    have hhw : (d.installTier (build bs (sortEntries es) d.idToTerm.length)).compacted.highWater =
        d.idToTerm.length := rfl
    have hnew := hslots i
    rw [htriple i term hi] at hnew
    rw [hhw]
    by_cases hreg : term.isTriple = false
    · rw [if_pos ⟨hlt, hreg⟩, hold] at hnew
      rw [if_pos ⟨hreg, hlt⟩]
      exact hnew
    · rw [if_neg (by simp [hreg]), hold, if_neg (by simp [hreg])] at hnew
      rw [if_neg (by simp [hreg])]
      exact hnew
  case tables => exact ⟨htab.lookup, htab.bound⟩
  case triples =>
    intro i
    simp only [installTier, htri]
    exact h.triples i
  case tier =>
    refine ⟨sortEntries es, ?_⟩
    constructor
    case built => rfl
    case highWater_le => exact le_of_eq h.length
    case sorted => exact sortEntries_sorted es
    case noStraddle => exact hstr
    case addressable => exact haddr
    case nodup =>
      rw [(hperm.map Entry.origId).nodup_iff, hids]
      exact nodup_range.filter _
    case sound =>
      intro e he
      rcases hcodes e (hperm.mem_iff.mp he) with ⟨term, hterm, hc⟩
      refine ⟨?_, term, hterm, hc⟩
      simp only [installTier, build]
      rw [h.length]
      exact (List.getElem?_eq_some_iff.mp hterm).1
    -- every regular term has an entry: its id is among the collected ones
    case complete =>
      intro i term hi hterm hreg
      have hmem : i ∈ es.map Entry.origId := by
        rw [hids]
        apply mem_filter.mpr
        refine ⟨mem_range.mpr (List.getElem?_eq_some_iff.mp hterm).1, ?_⟩
        simp [regularAt, hterm, hreg]
      rcases mem_map.mp hmem with ⟨e, he, hid⟩
      exact ⟨e, hperm.mem_iff.mpr he, hid⟩
  case cache =>
    intro e he
    simp [installTier, Lru.clear] at he
  case parts =>
    intro i s p o hi
    simp only [installTier, htri]
    exact h.parts i s p o hi

/-! ## Graph names -/

/-- The graph tables hold `G`: both directions read its positions, and the next
id is its length, which wraps to 0 when all 256 ids are taken. -/
structure GraphsOf (d : Dictionary) (G : GraphTable) : Prop where
  toId : ∀ g, d.graphToId.lookup g = (G.find? g).map UInt8.ofNat
  ofId : ∀ id, d.idToGraph.lookup id = G.get? id.toNat
  next : d.nextGraphId = UInt8.ofNat G.items.length
  default : G.get? 0 = some .defaultGraph

theorem graphToId_new (bs : Nat) (g : GraphName) :
    (new bs).graphToId.lookup g = if g = .defaultGraph then some graphDefault else none := by
  change ((∅ : AList fun _ : GraphName => GraphId).insert .defaultGraph graphDefault).lookup g = _
  by_cases hg : g = .defaultGraph
  · rw [if_pos hg, hg, AList.lookup_insert]
  · rw [if_neg hg, AList.lookup_insert_ne hg, AList.lookup_empty]

theorem idToGraph_new (bs : Nat) (id : GraphId) :
    (new bs).idToGraph.lookup id = if id = graphDefault then some .defaultGraph else none := by
  by_cases hid : id = graphDefault
  · rw [if_pos hid, hid]
    exact AList.lookup_insert _
  · rw [if_neg hid]
    exact (AList.lookup_insert_ne hid).trans (AList.lookup_empty id)

theorem graphsOf_new (bs : Nat) : (new bs).GraphsOf Names.empty.graphs where
  toId := by
    intro g
    rw [graphToId_new]
    by_cases hg : g = .defaultGraph
    · rw [if_pos hg, hg, Table.find?_eq_some.mpr (show Names.empty.graphs.get? 0 = _ from rfl)]
      rfl
    · have hnone : Names.empty.graphs.find? g = none := by
        rw [Table.find?_eq_none]
        simpa [Names.empty] using hg
      rw [if_neg hg, hnone]
      rfl
  ofId := by
    intro id
    rw [idToGraph_new]
    by_cases hid : id = graphDefault
    · rw [if_pos hid, hid]
      rfl
    · have hpos : 0 < id.toNat := by
        apply Nat.pos_of_ne_zero
        intro hz
        exact hid (UInt8.toNat_inj.mp hz)
      rw [if_neg hid, Table.get?, getElem?_eq_none]
      exact hpos
  next := rfl
  default := rfl

variable {G : GraphTable}

theorem SameGraphs.graphsOf (h : SameGraphs d d') (hd : d.GraphsOf G) : d'.GraphsOf G where
  toId := by
    rw [h.1]
    exact hd.toId
  ofId := by
    rw [h.2.1]
    exact hd.ofId
  next := by
    rw [h.2.2]
    exact hd.next
  default := hd.default

/-- A new graph takes the next of the 256 ids. -/
theorem GraphsOf.push (h : d.GraphsOf G) {g : GraphName} (hnew : g ∉ G.items) (hroom : G.items.length < 256) :
    GraphsOf { d with
      nextGraphId := d.nextGraphId + 1
      graphToId := d.graphToId.insert g d.nextGraphId
      idToGraph := d.idToGraph.insert d.nextGraphId g } (G.push g hnew hroom) := by
  have hlen : (UInt8.ofNat G.items.length).toNat = G.items.length := by
    rw [UInt8.toNat_ofNat', Nat.mod_eq_of_lt hroom]
  have hlast : (G.push g hnew hroom).get? G.items.length = some g := by
    simp [Table.get?, Table.push]
  have hle : G.Le (G.push g hnew hroom) := prefix_append _ _
  constructor
  · intro g'
    by_cases hg : g' = g
    · rw [hg, AList.lookup_insert, Table.find?_eq_some.mpr hlast, h.next]
      rfl
    · rw [AList.lookup_insert_ne hg, h.toId]
      cases hfind : G.find? g' with
      | some i => rw [Table.find?_eq_some.mpr (Table.get?_of_le hle (Table.find?_eq_some.mp hfind))]
      | none =>
        have hnone : (G.push g hnew hroom).find? g' = none := by
          rw [Table.find?_eq_none] at hfind ⊢
          simp [Table.push, hfind, hg]
        rw [hnone]
  · intro id
    by_cases hid : id = d.nextGraphId
    · rw [hid, AList.lookup_insert, h.next, hlen, hlast]
    · rw [AList.lookup_insert_ne hid, h.ofId, Table.get?, Table.get?]
      have hne : id.toNat ≠ G.items.length := by
        intro heq
        apply hid
        apply UInt8.toNat_inj.mp
        rw [heq, h.next, hlen]
      rcases Nat.lt_or_gt_of_ne hne with hlt | hgt
      · exact (getElem?_append_left hlt).symm
      · rw [getElem?_eq_none (Nat.le_of_lt hgt), getElem?_eq_none]
        rw [Table.push, length_append, length_singleton]
        exact hgt
  · change d.nextGraphId + 1 = UInt8.ofNat (G.items ++ [g]).length
    rw [h.next, length_append, length_singleton, UInt8.ofNat_add]
    rfl
  · exact Table.get?_of_le hle h.default

/-- `intern_graph` does what the table does. -/
theorem GraphsOf.internGraph (h : d.GraphsOf G) (g : GraphName) (T : TermTable) (b : Bool) :
    (d.internGraph g).1 = (Names.internGraph ⟨T, G, b⟩ g).1 ∧
      (d.internGraph g).2.GraphsOf (Names.internGraph ⟨T, G, b⟩ g).2.graphs ∧
      (Names.internGraph ⟨T, G, b⟩ g).2.terms = T ∧
      (Names.internGraph ⟨T, G, b⟩ g).2.isSealed = b := by
  rw [Dictionary.internGraph, h.toId]
  by_cases hmem : g ∈ G.items
  · rcases Table.exists_get? hmem with ⟨i, hi⟩
    simp only [Names.internGraph, Table.intern_known hi, Table.find?_eq_some.mpr hi, Option.map_some]
    exact ⟨trivial, h, trivial, trivial⟩
  · have hdef : g ≠ .defaultGraph := by
      intro heq
      rw [heq] at hmem
      exact hmem (Table.mem_of_get? h.default)
    have hpos : 0 < G.items.length := (List.getElem?_eq_some_iff.mp h.default).1
    have hmax := G.length_le
    simp only [Table.find?_eq_none.mpr hmem, Option.map_none, if_neg hdef]
    by_cases hroom : G.items.length < 256
    · have hne : d.nextGraphId ≠ 0 := by
        intro hz
        have hnat := congrArg UInt8.toNat hz
        rw [h.next, UInt8.toNat_ofNat', Nat.mod_eq_of_lt hroom] at hnat
        exact absurd hnat (Nat.ne_of_gt hpos)
      simp only [Names.internGraph, Table.intern_new hmem hroom, if_neg hne]
      refine ⟨?_, h.push hmem hroom, trivial, trivial⟩
      rw [h.next]
    · have hfull : d.nextGraphId = 0 := by
        have hlen : G.items.length = 256 := by omega
        rw [h.next, hlen]
        rfl
      simp only [Names.internGraph, Table.intern_full hmem hroom, if_pos hfull]
      exact ⟨trivial, h, trivial, trivial⟩

theorem internGraph_compacted (d : Dictionary) (g : GraphName) :
    (d.internGraph g).2.compacted = d.compacted := by
  rw [Dictionary.internGraph]
  split
  · rfl
  · split
    · rfl
    · split <;> rfl

theorem Represents.internGraph (h : Represents bs d terms) (g : GraphName) :
    Represents bs (d.internGraph g).2 terms := by
  rw [Dictionary.internGraph]
  split
  · exact h
  · split
    · exact ⟨h.nodup, h.length, h.slot, ⟨h.tables.lookup, h.tables.bound⟩, h.triples, h.tier,
        h.cache, h.parts⟩
    · split
      · exact h
      · exact ⟨h.nodup, h.length, h.slot, ⟨h.tables.lookup, h.tables.bound⟩, h.triples, h.tier,
          h.cache, h.parts⟩

/-! ## The dictionary implements its contract -/

/-- The calls of the dictionary, at block size `bs`. -/
def api (bs : Nat) : DictApi Dictionary where
  intern := Dictionary.intern
  getId := Dictionary.getId
  getTermArc := Dictionary.getTermArc
  internGraph := Dictionary.internGraph
  getGraphId := Dictionary.getGraphId
  getGraph := Dictionary.getGraph
  compact := Dictionary.compact bs

/-- The dictionary holds exactly the names `n`. -/
structure Knows (bs : Nat) (d : Dictionary) (n : Names) : Prop where
  terms : Represents bs d n.terms.items
  graphs : d.GraphsOf n.graphs
  isSealed : n.isSealed = decide (d.compacted.encodedCount ≠ 0)

theorem knows_new (bs : Nat) : Knows bs (new bs) Names.empty :=
  ⟨represents_new bs, graphsOf_new bs, rfl⟩

/-- What `get_id` does with a term that was never interned: an unknown quoted
triple misses an empty tier and panics in any other. -/
theorem Represents.getId_unknown (h : Represents bs d terms) (hbs : 0 < bs) (hnew : term ∉ terms) :
    d.getId term = if term.isTriple && decide (d.compacted.encodedCount ≠ 0) then
      .error (.unreachable "quoted triples never enter the compacted FC tier") else .ok none := by
  have hnone := h.lookup_none hnew
  unfold Dictionary.getId
  simp only [hnone]
  cases htriple : term.isTriple with
  | false =>
    rw [h.tier_none hbs htriple hnew]
    rfl
  | true =>
    cases term with
    | triple s p o =>
      rw [CompactedTier.getId]
      by_cases hzero : d.compacted.encodedCount = 0
      · simp [hzero]
      · rw [if_neg hzero, if_pos (by simp [hzero])]
        rfl
    | _ => cases htriple

/-- A compaction of a dictionary with these names is safe. -/
def NamesSafe (bs : Nat) (n : Names) : Prop := TermsSafe bs n.terms.items

theorem Knows.namesSafe {n : Names} (h : Knows bs d n) (hbs : 0 < bs) (hsafe : CompactSafe bs d) :
    NamesSafe bs n :=
  hsafe _ (h.terms.collectEntries_all hbs)

theorem Knows.getId {n : Names} (h : Knows bs d n) (hbs : 0 < bs) (t : Term) :
    d.getId t = n.getId t := by
  rw [Names.getId]
  cases hid : n.termId t with
  | some id => exact h.terms.getId hbs (Names.termId_eq_some.mp hid)
  | none =>
    rw [h.isSealed]
    apply h.terms.getId_unknown hbs
    intro hmem
    rcases mem_iff_getElem?.mp hmem with ⟨i, hi⟩
    rw [Names.termId_eq_some.mpr (show n.term ⟨i, h.terms.idx_le hi⟩ = some t from hi)] at hid
    cases hid

theorem implements (hbs : 0 < bs) : Implements (api bs) (Knows bs) (NamesSafe bs) where
  intern := by
    intro d n t h
    rcases Represents.intern_spec hbs t h.terms with ⟨d', hr, hint⟩
    exact ⟨d', hr, hint.represents, hint.graphs.graphsOf h.graphs, by rw [hint.tier]; exact h.isSealed⟩
  getId := fun d n t h => h.getId hbs t
  getTermArc := by
    intro d n id h
    rcases h.terms.getTermArc_spec hbs id with ⟨d', hr, hev⟩
    exact ⟨d', hr, hev.represents, hev.graphs.graphsOf h.graphs, by rw [hev.tier]; exact h.isSealed⟩
  internGraph := by
    intro d n g h
    rcases h.graphs.internGraph g n.terms n.isSealed with ⟨hr, hgraphs, hterms, hsealed⟩
    refine ⟨_, Prod.ext hr rfl, ?_, hgraphs, ?_⟩
    · rw [hterms]
      exact h.terms.internGraph g
    · rw [hsealed, h.isSealed]
      exact congrArg (fun tier : CompactedTier => decide (tier.encodedCount ≠ 0))
        (internGraph_compacted d g).symm
  getGraphId := fun d n g h => h.graphs.toId g
  getGraph := fun d n id h => h.graphs.ofId id
  compact := by
    intro d n h hsafe
    rcases h.terms.compact_spec hbs (h.terms.compactSafe hbs hsafe) with ⟨d', hr, hrep, hsame, -⟩
    exact ⟨d', decide (d'.compacted.encodedCount ≠ 0), hr, hrep, hsame.graphsOf h.graphs, rfl⟩

/-! ## Runs -/

inductive Op where
  | intern (term : Term)
  | internGraph (graph : GraphName)
  | compact
  | getTermArc (id : TermId)

/-- One call, with the ids it handed out. -/
def step (bs : Nat) (d : Dictionary) : Op → Except Panic (Dictionary × List (Term × TermId))
  | .intern term => do
    let (r, d') ← d.intern term
    match r with
    | .ok id => return (d', [(term, id)])
    | .error _ => return (d', [])
  | .internGraph graph => .ok ((d.internGraph graph).2, [])
  | .compact => do
    let (_, d') ← Dictionary.compact bs d
    return (d', [])
  | .getTermArc id => do
    let (_, d') ← d.getTermArc id
    return (d', [])

/-- A sequence of calls, with all ids handed out. -/
def run (bs : Nat) : Dictionary → List Op → Except Panic (Dictionary × List (Term × TermId))
  | d, [] => .ok (d, [])
  | d, op :: ops => do
    let (d', handed) ← step bs d op
    let (d'', handed') ← run bs d' ops
    return (d'', handed ++ handed')

/-- Every compaction of the run happens in a state where it is safe. -/
def SafeRun (bs : Nat) : Dictionary → List Op → Prop
  | _, [] => True
  | d, op :: ops =>
    (op = .compact → CompactSafe bs d) ∧ ∀ d' handed, step bs d op = .ok (d', handed) → SafeRun bs d' ops

theorem Represents.step_spec (h : Represents bs d terms) (hbs : 0 < bs) (op : Op)
    (hsafe : op = .compact → CompactSafe bs d) :
    ∃ d' handed terms', step bs d op = .ok (d', handed) ∧ terms <+: terms' ∧
      Represents bs d' terms' ∧ ∀ p ∈ handed, terms'[p.2.asU64]? = some p.1 := by
  cases op with
  | intern term =>
    have hT : Represents bs d h.table.items := h
    rcases Represents.intern_spec hbs term hT with ⟨d', hr, hint⟩
    have hpos := (internTerm_spec term h.table).2
    cases hres : (h.table.internTerm term).1 with
    | ok id =>
      rw [hres] at hr hpos
      refine ⟨d', [(term, id)], _, by simp [step, hr], hint.grows, hint.represents, ?_⟩
      intro p hp
      rw [mem_singleton] at hp
      rw [hp]
      exact hpos id rfl
    | error e =>
      rw [hres] at hr
      exact ⟨d', [], _, by simp [step, hr], hint.grows, hint.represents, by simp⟩
  | internGraph g =>
    exact ⟨_, [], terms, rfl, prefix_refl _, h.internGraph g, by simp⟩
  | compact =>
    rcases h.compact_spec hbs (hsafe rfl) with ⟨d', hr, hrep, -⟩
    exact ⟨d', [], terms, by simp [step, hr], prefix_refl _, hrep, by simp⟩
  | getTermArc id =>
    rcases h.getTermArc_spec hbs id with ⟨d', hr, hev⟩
    exact ⟨d', [], terms, by simp [step, hr], hev.grows, hev.represents, by simp⟩

theorem Represents.run_spec (hbs : 0 < bs) (ops : List Op) :
    ∀ {d : Dictionary} {terms : List Term}, Represents bs d terms → SafeRun bs d ops →
      ∃ d' handed terms', run bs d ops = .ok (d', handed) ∧ terms <+: terms' ∧
        Represents bs d' terms' ∧ ∀ p ∈ handed, terms'[p.2.asU64]? = some p.1 := by
  induction ops with
  | nil =>
    intro d terms h _
    exact ⟨d, [], terms, rfl, prefix_refl _, h, by simp⟩
  | cons op ops ih =>
    intro d terms h hsafe
    rcases h.step_spec hbs op hsafe.1 with ⟨d₁, handed₁, terms₁, hstep, hgrow₁, h₁, hpos₁⟩
    rcases ih h₁ (hsafe.2 d₁ handed₁ hstep) with ⟨d₂, handed₂, terms₂, hrun, hgrow₂, h₂, hpos₂⟩
    refine ⟨d₂, handed₁ ++ handed₂, terms₂, by simp [run, hstep, hrun], hgrow₁.trans hgrow₂, h₂, ?_⟩
    intro p hp
    rcases mem_append.mp hp with hp | hp
    · exact getElem?_grow hgrow₂ (hpos₁ p hp)
    · exact hpos₂ p hp

theorem run_append (bs : Nat) (ops₁ ops₂ : List Op) (d : Dictionary) :
    run bs d (ops₁ ++ ops₂) = (do
      let (d₁, handed₁) ← run bs d ops₁
      let (d₂, handed₂) ← run bs d₁ ops₂
      return (d₂, handed₁ ++ handed₂)) := by
  induction ops₁ generalizing d with
  | nil =>
    simp only [nil_append, run, ok_bind]
    cases run bs d ops₂ with
    | error p => rfl
    | ok r => rfl
  | cons op ops₁ ih =>
    simp only [cons_append, run]
    cases step bs d op with
    | error p => rfl
    | ok r =>
      simp only [ok_bind, ih]
      cases run bs r.1 ops₁ with
      | error p => rfl
      | ok r₁ =>
        simp only [ok_bind, except_pure]
        cases run bs r₁.1 ops₂ with
        | error p => rfl
        | ok r₂ => simp

theorem SafeRun.append {ops₁ ops₂ : List Op} :
    ∀ {d : Dictionary}, SafeRun bs d (ops₁ ++ ops₂) →
      SafeRun bs d ops₁ ∧ ∀ d₁ handed₁, run bs d ops₁ = .ok (d₁, handed₁) → SafeRun bs d₁ ops₂ := by
  induction ops₁ with
  | nil =>
    intro d h
    refine ⟨trivial, ?_⟩
    intro d₁ handed₁ hrun
    cases hrun
    exact h
  | cons op ops₁ ih =>
    intro d h
    refine ⟨⟨h.1, fun d' handed hstep => (ih (h.2 d' handed hstep)).1⟩, ?_⟩
    intro d₁ handed₁ hrun
    rcases bind_ok hrun with ⟨⟨d', handed⟩, hstep, hrest⟩
    rcases bind_ok hrest with ⟨⟨d'', handed'⟩, hrun', heq⟩
    cases heq
    exact (ih (h.2 d' handed hstep)).2 _ _ hrun'

/-! ## Stable ids -/

/-- A term with everything nested in it. -/
def subterms : Term → List Term
  | .triple s p o => .triple s p o :: s.toTerm :: .namedNode p :: subterms o
  | t => [t]

/-- `id` is the id of `term`: all three ways to ask agree, and asking again by
interning changes nothing. -/
structure Answers (d : Dictionary) (term : Term) (id : TermId) : Prop where
  getId : d.getId term = .ok (some id)
  getTermArc : ∃ d', d.getTermArc id = .ok (some term, d')
  intern : d.intern term = .ok (.ok id, d)

/-- Every id handed out is still the id of its term; no id has two terms and no
term two ids; and what is nested in an interned term has an id as well. -/
structure IdsStable (d : Dictionary) (handed : List (Term × TermId)) : Prop where
  answers : ∀ term id, (term, id) ∈ handed → d.Answers term id
  oneTerm : ∀ term term' id, (term, id) ∈ handed → (term', id) ∈ handed → term = term'
  oneId : ∀ term id id', (term, id) ∈ handed → (term, id') ∈ handed → id = id'
  nested : ∀ term id, (term, id) ∈ handed → ∀ c ∈ subterms term, ∃ id', d.Answers c id'

section

variable (h : Represents bs d terms)
include h

theorem Represents.answers (hbs : 0 < bs) (hid : terms[id.asU64]? = some term) : d.Answers term id := by
  refine ⟨h.getId hbs hid, ?_, ?_⟩
  · rcases h.getTermArc_spec hbs id with ⟨d', harc, -⟩
    exact ⟨d', by rw [harc, hid]⟩
  · have hT : Represents bs d h.table.items := h
    rcases Represents.intern_spec hbs term hT with ⟨d', hr, hint⟩
    rw [hr, internTerm_known h.table hid, hint.known (mem_of_getElem? hid)]

theorem Represents.mem_of_getId (hbs : 0 < bs)
    (hid : d.getId term = .ok (some id)) : terms[id.asU64]? = some term := by
  by_cases hmem : term ∈ terms
  · rcases mem_iff_getElem?.mp hmem with ⟨i, hi⟩
    have hpos : terms[(⟨i, h.idx_le hi⟩ : TermId).asU64]? = some term := hi
    have hget := h.getId hbs hpos
    rw [hid] at hget
    cases hget
    exact hi
  · rw [h.getId_unknown hbs hmem] at hid
    split at hid <;> cases hid

theorem Represents.closed (hmem : Term.triple s p o ∈ terms) :
    s.toTerm ∈ terms ∧ Term.namedNode p ∈ terms ∧ o ∈ terms := by
  rcases mem_iff_getElem?.mp hmem with ⟨i, hi⟩
  rcases h.parts i s p o hi with ⟨components, -, hat⟩
  exact ⟨mem_of_getElem? hat.subject, mem_of_getElem? hat.predicate,
    mem_of_getElem? hat.object⟩

theorem Represents.subterms_mem (hmem : term ∈ terms) : ∀ c ∈ subterms term, c ∈ terms := by
  induction term with
  | triple s p o ih =>
    rcases h.closed hmem with ⟨hs, hp, ho⟩
    intro c hc
    simp only [subterms, mem_cons] at hc
    rcases hc with rfl | rfl | rfl | hc
    · exact hmem
    · exact hs
    · exact hp
    · exact ih ho c hc
  | namedNode n =>
    intro c hc
    simp only [subterms, mem_singleton] at hc
    rwa [hc]
  | blankNode b =>
    intro c hc
    simp only [subterms, mem_singleton] at hc
    rwa [hc]
  | literal l =>
    intro c hc
    simp only [subterms, mem_singleton] at hc
    rwa [hc]

theorem Represents.idsStable (hbs : 0 < bs)
    {handed : List (Term × TermId)} (hpos : ∀ p ∈ handed, terms[p.2.asU64]? = some p.1) :
    IdsStable d handed where
  answers := fun term id hmem => h.answers hbs (hpos (term, id) hmem)
  oneTerm := by
    intro term term' id hmem hmem'
    have hterm := hpos (term, id) hmem
    have hterm' := hpos (term', id) hmem'
    rw [hterm] at hterm'
    exact Option.some.inj hterm'
  oneId := fun term id id' hmem hmem' =>
    TermId.eq_of_asU64 (h.idx_inj (hpos (term, id) hmem) (hpos (term, id') hmem'))
  nested := by
    intro term id hmem c hc
    have hin := h.subterms_mem (mem_of_getElem? (hpos (term, id) hmem)) c hc
    rcases mem_iff_getElem?.mp hin with ⟨i, hi⟩
    exact ⟨⟨i, h.idx_le hi⟩, h.answers hbs hi⟩

end

/-- In every run of a new dictionary whose compactions are safe, no call
panics, and in every state it reaches all ids handed out so far are stable; an
id once found for a term is found ever after. -/
theorem run_ids_stable (bs : Nat) (hbs : 0 < bs) (ops : List Op) (hsafe : SafeRun bs (new bs) ops) :
    ∃ d handed, run bs (new bs) ops = .ok (d, handed) ∧ IdsStable d handed ∧
      ∀ ops₁, ops₁ <+: ops → ∃ d₁ handed₁, run bs (new bs) ops₁ = .ok (d₁, handed₁) ∧
        IdsStable d₁ handed₁ ∧
        ∀ term id, d₁.getId term = .ok (some id) → d.getId term = .ok (some id) := by
  rcases Represents.run_spec hbs ops (represents_new bs) hsafe with ⟨d, handed, terms, hrun, -, h, hpos⟩
  refine ⟨d, handed, hrun, h.idsStable hbs hpos, ?_⟩
  intro ops₁ hpre
  rcases hpre with ⟨ops₂, rfl⟩
  rcases hsafe.append with ⟨hsafe₁, hsafe₂⟩
  rcases Represents.run_spec hbs ops₁ (represents_new bs) hsafe₁
    with ⟨d₁, handed₁, terms₁, hrun₁, -, h₁, hpos₁⟩
  rcases Represents.run_spec hbs ops₂ h₁ (hsafe₂ d₁ handed₁ hrun₁)
    with ⟨d₂, handed₂, terms₂, hrun₂, hgrow, h₂, -⟩
  have hd : d₂ = d := by
    rw [run_append, hrun₁, ok_bind] at hrun
    simp only [hrun₂, ok_bind, except_pure, Except.ok.injEq, Prod.mk.injEq] at hrun
    exact hrun.1
  refine ⟨d₁, handed₁, hrun₁, h₁.idsStable hbs hpos₁, ?_⟩
  intro term id hid
  rw [← hd]
  exact h₂.getId hbs (getElem?_grow hgrow (h₁.mem_of_getId hbs hid))

/-- A literal whose sort key leaves out what tells it from its siblings. -/
def chat (lang : String) : Term := .literal (.languageTagged "chat" lang)

theorem compactSafe_of_length_le {n : Nat} (hn : n ≤ bs)
    (h : (d.collectEntries (List.range d.idToTerm.length)).map (·.map List.length) = .ok (.ok n)) :
    CompactSafe bs d := by
  intro es hes
  have hlen : (sortEntries es).length ≤ bs := by
    rw [hes] at h
    have hlen : es.length = n := by simpa [Except.map] using h
    rw [(sortEntries_perm es).length_eq, hlen]
    exact hn
  exact ⟨noStraddle_of_length_le hlen, addressable_of_length_le hlen⟩

/-- Two literals with one sort key, compacted into one block. -/
theorem run_ids_stable_one_block :
    SafeRun sourceBlockSize (new sourceBlockSize)
        [.intern (chat "en"), .intern (chat "fr"), .compact, .intern (chat "en")] ∧
      ∃ d handed, run sourceBlockSize (new sourceBlockSize)
          [.intern (chat "en"), .intern (chat "fr"), .compact, .intern (chat "en")] =
            .ok (d, handed) ∧ IdsStable d handed := by
  have hsafe : SafeRun sourceBlockSize (new sourceBlockSize)
      [.intern (chat "en"), .intern (chat "fr"), .compact, .intern (chat "en")] := by
    refine ⟨by simp, fun d₁ h₁ hs₁ => ⟨by simp, fun d₂ h₂ hs₂ => ⟨fun _ => ?_, ?_⟩⟩⟩
    · have hrun : run sourceBlockSize (new sourceBlockSize)
          [.intern (chat "en"), .intern (chat "fr")] = .ok (d₂, h₁ ++ (h₂ ++ [])) := by
        simp [run, hs₁, hs₂]
      have hlen : (run sourceBlockSize (new sourceBlockSize)
          [.intern (chat "en"), .intern (chat "fr")] >>= fun r =>
            (r.1.collectEntries (List.range r.1.idToTerm.length)).map (·.map List.length)) =
              .ok (.ok 2) := by
        decide +kernel
      rw [hrun, ok_bind] at hlen
      exact compactSafe_of_length_le (by decide) hlen
    · intro d₃ h₃ _
      exact ⟨by simp, fun _ _ _ => trivial⟩
  rcases run_ids_stable sourceBlockSize (by decide) _ hsafe with ⟨d, handed, hrun, hstable, -⟩
  exact ⟨hsafe, d, handed, hrun, hstable⟩

/-- Nine literals with one sort key, then a compaction: one more than a block
holds. -/
def straddlingOps : List Op :=
  ["a", "b", "c", "d", "e", "f", "g", "h", "i"].map (fun lang => .intern (chat lang)) ++ [.compact]

/-- The first of the nine had id 0; after the compaction it is not found. -/
theorem straddling_run_breaks_ids :
    ¬∀ ops : List Op, ∃ d handed,
      run sourceBlockSize (new sourceBlockSize) ops = .ok (d, handed) ∧ IdsStable d handed := by
  intro hclaim
  rcases hclaim straddlingOps with ⟨d, handed, hrun, hstable⟩
  have hhanded : (run sourceBlockSize (new sourceBlockSize) straddlingOps >>= fun r =>
      Except.ok r.2.head?) = .ok (some (chat "a", ⟨0, by decide⟩)) := by
    decide +kernel
  have hmiss : (run sourceBlockSize (new sourceBlockSize) straddlingOps >>= fun r =>
      r.1.getId (chat "a")) = .ok none := by
    decide +kernel
  rw [hrun, ok_bind] at hhanded hmiss
  have hmem : (chat "a", (⟨0, by decide⟩ : TermId)) ∈ handed :=
    mem_of_mem_head? (Except.ok.inj hhanded)
  have hget := (hstable.answers _ _ hmem).getId
  rw [hmiss] at hget
  cases hget

end Dictionary

end Nova
