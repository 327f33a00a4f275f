import Nova.Query.PathRing
import Nova.Query.Walks

/-!
# Closures with a bound end

A path `p+` or `p*` over the index is searched from the end that is bound: forwards,
backwards, or from both ends until the searches meet.

* `ringBfsTransitiveBound_iff`: the search returns the pairs of the closure that agree
  with the bound ends, each once, unless it goes backwards for `p+` from a target that
  lies on a cycle.
* `backward_misses_cycle`: there it misses the pair of the target with itself.

The graph is given by the triples of ids that the index holds (`IndexedGraph`); the rings
of the LOUDS store are such graphs.
-/

namespace Nova

open Nova.Lib Relation List

namespace Path

/-! ## A graph in the index -/

/-- The index of a dataset holds the triples: its scans list the values of a column in
the matching triples, predicates are looked up, and every id has a term. -/
structure IndexedGraph (ds : Dataset) (ag : GraphSelector) (triples : List Row) (predId : NamedNode → Option Nat) :
    Prop where
  scan : ∀ s p o target, target < 3 → GraphRing.fieldVal s p o target = none →
    ∃ keys, ds.lftjJoinScan s p o target ag = some keys ∧ keys.Pairwise (· < ·) ∧
      ∀ x, x ∈ keys ↔ ∃ t ∈ triples, GraphRing.column t target = x ∧ GraphRing.Matches s p o t
  intern : ∀ p, ds.lftjInternTerm (.namedNode p) = .ok (predId p)
  decode : Lftj.Decodes ds triples

/-- One edge with the predicate. -/
def Along (triples : List Row) (pId x y : Nat) : Prop := (x, pId, y) ∈ triples

/-- `p+` of a relation, or `p*`. -/
def Closure (includeIdentity : Bool) (r : Nat → Nat → Prop) : Nat → Nat → Prop :=
  if includeIdentity then ReflTransGen r else TransGen r

/-- The pair agrees with the ends that are bound. -/
def Bound (source target : Option Nat) (x y : Nat) : Prop :=
  (∀ s, source = some s → x = s) ∧ ∀ t, target = some t → y = t

/-- The id has a term. -/
def HasTerm (ds : Dataset) (id : Nat) : Prop := ∃ term, ds.lftjDecodeTerm id = .ok (some term)

/-- The terms of pairs of ids. -/
def DecodedAs (ds : Dataset) (ids : List (Nat × Nat)) (pairs : List TermPair) : Prop :=
  List.Forall₂ (fun id pair => ds.lftjDecodeTerm id.1 = .ok (some pair.1) ∧
    ds.lftjDecodeTerm id.2 = .ok (some pair.2))
    ids pairs

variable {x y : Nat}

section Scans

variable {ds : Dataset} {ag : GraphSelector} {triples : List Row} {predId : NamedNode → Option Nat}

theorem scan_ok (h : IndexedGraph ds ag triples predId) {s p o : Option Nat} {target : Nat} (htarget : target < 3)
    (hfree : GraphRing.fieldVal s p o target = none) : scan ds s p o target ag = .ok (Lftj.keys ds ag s p o target) := by
  obtain ⟨keys, hkeys, -⟩ := h.scan s p o target htarget hfree
  rw [scan, Lftj.keys, hkeys]
  rfl

theorem mem_keys (h : IndexedGraph ds ag triples predId) {s p o : Option Nat} {target : Nat} (htarget : target < 3)
    (hfree : GraphRing.fieldVal s p o target = none) : x ∈ Lftj.keys ds ag s p o target ↔
      ∃ t ∈ triples, GraphRing.column t target = x ∧ GraphRing.Matches s p o t := by
  obtain ⟨keys, hkeys, -, hmem⟩ := h.scan s p o target htarget hfree
  rw [Lftj.keys, hkeys]
  exact hmem x

/-- What follows a node along the predicate, and what comes before it. -/
def after (ds : Dataset) (ag : GraphSelector) (pId x : Nat) : List Nat := Lftj.keys ds ag (some x)
    (some pId) none 2

def before (ds : Dataset) (ag : GraphSelector) (pId x : Nat) : List Nat := Lftj.keys ds ag none
    (some pId) (some x) 0

section

variable (h : IndexedGraph ds ag triples predId)
include h

theorem successors_ok (pId x : Nat) :
    successors ds pId ag x = .ok (after ds ag pId x) := scan_ok h (by omega) rfl

theorem predecessors_ok (pId x : Nat) :
    predecessors ds pId ag x = .ok (before ds ag pId x) := scan_ok h (by omega) rfl

theorem mem_after {pId : Nat} : y ∈ after ds ag pId x ↔ Along triples pId x y := by
  rw [after, mem_keys h (by omega) rfl, Along]
  simp only [GraphRing.column, GraphRing.Matches, Option.some.injEq, forall_eq', reduceCtorEq, false_imp_iff,
    implies_true, and_true]
  constructor
  · intro ht
    obtain ⟨⟨s, p, o⟩, ht, rfl, rfl, rfl⟩ := ht
    exact ht
  · intro hxy
    exact ⟨_, hxy, rfl, rfl, rfl⟩

theorem mem_before {pId : Nat} : y ∈ before ds ag pId x ↔ Along triples pId y x := by
  rw [before, mem_keys h (by omega) rfl, Along]
  simp only [GraphRing.column, GraphRing.Matches, Option.some.injEq, forall_eq', reduceCtorEq, false_imp_iff,
    implies_true, true_and]
  constructor
  · intro ht
    obtain ⟨⟨s, p, o⟩, ht, rfl, rfl, rfl⟩ := ht
    exact ht
  · intro hyx
    exact ⟨_, hyx, rfl, rfl, rfl⟩

end

/-- The subjects and objects of the triples. -/
def nodes (triples : List Row) : Finset Nat := (triples.map fun t => t.1).toFinset ∪
    (triples.map fun t => t.2.2).toFinset

theorem mem_nodes : x ∈ nodes triples ↔ ∃ t ∈ triples, t.1 = x ∨ t.2.2 = x := by
  simp only [nodes, Finset.mem_union, mem_toFinset, mem_map]
  constructor
  · intro h
    rcases h with ⟨t, ht, hx⟩ | ⟨t, ht, hx⟩
    · exact ⟨t, ht, .inl hx⟩
    · exact ⟨t, ht, .inr hx⟩
  · intro h
    obtain ⟨t, ht, hx | hx⟩ := h
    · exact .inl ⟨t, ht, hx⟩
    · exact .inr ⟨t, ht, hx⟩

theorem Along.nodes {pId : Nat} (h : Along triples pId x y) : x ∈ nodes triples ∧ y ∈ nodes triples :=
  ⟨mem_nodes.mpr ⟨_, h, .inl rfl⟩, mem_nodes.mpr ⟨_, h, .inr rfl⟩⟩

theorem IndexedGraph.hasTerm (h : IndexedGraph ds ag triples predId) (hx : x ∈ nodes triples) :
    HasTerm ds x := by
  obtain ⟨t, ht, rfl | rfl⟩ := mem_nodes.mp hx
  · exact h.decode t ht 0
  · exact h.decode t ht 2

end Scans

/-! ## Decoding -/

section Decode

variable {ds : Dataset}

theorem decode_ok {id : Nat} {term : Term} (h : ds.lftjDecodeTerm id = .ok (some term)) :
    decode ds id = .ok (some term) := by
  rw [decode, h]
  rfl

theorem decodeAll_ok {ids : List Nat} (h : ∀ id ∈ ids, HasTerm ds id) :
    ∃ terms, decodeAll ds ids = .ok terms ∧
      List.Forall₂ (fun id term => ds.lftjDecodeTerm id = .ok (some term)) ids terms := by
  induction ids with
  | nil => exact ⟨[], rfl, .nil⟩
  | cons id ids ih =>
    rcases forall_mem_cons.mp h with ⟨⟨term, hterm⟩, hrest⟩
    obtain ⟨terms, hterms, hall⟩ := ih hrest
    refine ⟨term :: terms, ?_, .cons hterm hall⟩
    rw [decodeAll, decode_ok hterm, hterms]
    rfl

/-- Pairs with one fixed term. -/
theorem decodedPairs_ok {ids : List Nat} (h : ∀ id ∈ ids, HasTerm ds id) (idPair : Nat → Nat × Nat)
    (pair : Term → TermPair)
    (hpair : ∀ id term, ds.lftjDecodeTerm id = .ok (some term) →
      ds.lftjDecodeTerm (idPair id).1 = .ok (some (pair term).1) ∧
        ds.lftjDecodeTerm (idPair id).2 = .ok (some (pair term).2)) :
    ∃ pairs, decodedPairs ds pair ids = .ok pairs ∧ DecodedAs ds (ids.map idPair) pairs := by
  obtain ⟨terms, hterms, hall⟩ := decodeAll_ok h
  refine ⟨terms.map pair, ?_, ?_⟩
  · rw [decodedPairs, hterms]
    rfl
  · rw [DecodedAs, forall₂_map_left_iff, forall₂_map_right_iff]
    exact hall.imp fun id term hterm => hpair id term hterm

end Decode

/-! ## Forwards -/

section Search

variable {ds : Dataset} {ag : GraphSelector} {triples : List Row} {predId : NamedNode → Option Nat} {pId : Nat}

/-- The nodes of the graph and the start, which need not be one of them. -/
def around (triples : List Row) (start : Nat) : Finset Nat := insert start (nodes triples)

theorem around_closed {start : Nat} (h : Along triples pId x y) : y ∈ around triples start :=
  Finset.mem_insert_of_mem h.nodes.2

theorem around_closed_swap {start : Nat} (h : Along triples pId y x) : y ∈ around triples start :=
  Finset.mem_insert_of_mem h.nodes.1

theorem hasTerm_of_transGen (h : IndexedGraph ds ag triples predId) (hxy : TransGen (Along triples pId) x y) :
    HasTerm ds x ∧ HasTerm ds y := by
  obtain ⟨z, hxz, -⟩ := TransGen.head'_iff.mp hxy
  obtain ⟨w, -, hwy⟩ := TransGen.tail'_iff.mp hxy
  exact ⟨h.hasTerm hxz.nodes.1, h.hasTerm hwy.nodes.2⟩

/-- The search visits what the edges reach from the start. -/
theorem ringReached_returns (h : IndexedGraph ds ag triples predId) (start : Nat) :
    ∃ ids, Returns (fun fuel => ringReached fuel ds pId ag start) ids ∧
      ∀ y, y ∈ ids ↔ TransGen (Along triples pId) start y := by
  have hrel : (fun a b => b ∈ after ds ag pId a) = Along triples pId := by
    funext a b
    exact propext (mem_after h)
  have hsucc : ∀ x ∈ around triples start, successors ds pId ag x = .ok (after ds ag pId x) :=
    fun x _ => successors_ok h pId x
  obtain ⟨st, hret, -, hfound⟩ := Search.run_from_returns PathError.fuel (fun x _ y _ heq => heq)
    (fun x _ y hy => around_closed ((mem_after h).mp hy)) hsucc (Finset.mem_insert_self start (nodes triples))
  rw [hrel] at hfound
  have hmapM : (start :: st.found).mapM (successors ds pId ag) = .ok ((start :: st.found).map (after ds ag pId)) := by
    rw [mapM_congr_left fun x _ => successors_ok h pId x, mapM_ok]
  refine ⟨((start :: st.found).map (after ds ag pId)).flatten, hret.bind ?_, ?_⟩
  · refine ⟨0, fun fuel _ => ?_⟩
    show ((start :: st.found).mapM (successors ds pId ag) >>= fun ids => .ok ids.flatten) = _
    rw [hmapM]
    rfl
  · intro y
    -- the nodes that are expanded are those that the start reaches
    have hexpanded : ∀ x, x ∈ start :: st.found ↔ ReflTransGen (Along triples pId) start x := by
      intro x
      rw [mem_cons, hfound]
      constructor
      · intro hx
        rcases hx with rfl | hx
        · exact .refl
        · exact hx.2
      · intro hx
        by_cases heq : x = start
        · exact .inl heq
        · exact .inr ⟨heq, hx⟩
    rw [TransGen.tail'_iff]
    simp only [mem_flatten, mem_map]
    constructor
    · intro hy
      obtain ⟨_, ⟨x, hx, rfl⟩, hy⟩ := hy
      exact ⟨x, (hexpanded x).mp hx, (mem_after h).mp hy⟩
    · intro hy
      obtain ⟨x, hx, hxy⟩ := hy
      exact ⟨_, ⟨x, (hexpanded x).mpr hx, rfl⟩, (mem_after h).mpr hxy⟩

/-- Pairs whose ends have terms are all kept. -/
theorem decodePairs_ok {ids : List (Nat × Nat)} (h : ∀ id ∈ ids, HasTerm ds id.1 ∧ HasTerm ds id.2) :
    ∃ pairs : List (List TermPair), (ids.mapM fun pair => do
        match ← decode ds pair.1, ← decode ds pair.2 with
        | some s, some o => return [(s, o)]
        | _, _ => return []) = .ok pairs ∧ DecodedAs ds ids pairs.flatten := by
  induction ids with
  | nil => exact ⟨[], rfl, .nil⟩
  | cons id ids ih =>
    rcases forall_mem_cons.mp h with ⟨⟨⟨s, hs⟩, ⟨o, ho⟩⟩, hrest⟩
    obtain ⟨pairs, hpairs, hall⟩ := ih hrest
    refine ⟨[(s, o)] :: pairs, ?_, .cons ⟨hs, ho⟩ hall⟩
    rw [mapM_cons, decode_ok hs, decode_ok ho]
    rw [hpairs]
    rfl

/-- The pairs that a search returns: those of the closure that agree with the bound ends,
each once. -/
def ReturnsClosure (ds : Dataset) (triples : List Row) (pId : Nat) (source target : Option Nat)
    (includeIdentity : Bool)
    (run : Nat → Except PathError (List TermPair)) : Prop :=
  ∃ pairs ids, Returns run pairs ∧ DecodedAs ds ids pairs ∧ ids.Nodup ∧
    ∀ x y, (x, y) ∈ ids ↔ Bound source target x y ∧ Closure includeIdentity (Along triples pId) x y

/-- Only the start is bound: one search, with the identity in front. -/
theorem forward_returns (h : IndexedGraph ds ag triples predId) {s : Nat} (hs : HasTerm ds s)
    (includeIdentity : Bool) :
    ReturnsClosure ds triples pId (some s) none includeIdentity fun fuel =>
      ringBfsTransitive fuel ds pId [s] includeIdentity ag := by
  have hreached : ∃ ids, Returns (fun fuel => ringReached fuel ds pId ag s) ids ∧
      ∀ y, y ∈ ids ↔ TransGen (Along triples pId) s y := ringReached_returns h s
  obtain ⟨ids, ⟨k, hk⟩, hids⟩ := hreached
  obtain ⟨term, hterm⟩ := hs
  let found := ((if includeIdentity then [s] else []) ++ ids).map fun id => (s, id)
  have hfound : ∀ x y, (x, y) ∈ firsts found ↔
      Bound (some s) none x y ∧ Closure includeIdentity (Along triples pId) x y := by
    intro x y
    have hbound : Bound (some s) none x y ↔ x = s := by
      simp [Bound]
    rw [hbound, mem_firsts]
    simp only [found, mem_map, Prod.mk.injEq, mem_append, hids]
    cases includeIdentity with
    | false =>
      simp only [Closure, Bool.false_eq_true, if_false, not_mem_nil, false_or]
      constructor
      · intro hy
        obtain ⟨_, hreach, rfl, rfl⟩ := hy
        exact ⟨rfl, hreach⟩
      · intro hy
        obtain ⟨rfl, hreach⟩ := hy
        exact ⟨y, hreach, rfl, rfl⟩
    | true =>
      simp only [Closure, if_true, mem_singleton, reflTransGen_iff_eq_or_transGen]
      constructor
      · intro hy
        obtain ⟨_, hreach, rfl, rfl⟩ := hy
        exact ⟨rfl, hreach⟩
      · intro hy
        obtain ⟨rfl, hreach⟩ := hy
        exact ⟨y, hreach, rfl, rfl⟩
  -- the start has a term, and so has what is reached
  have hterms : ∀ id ∈ firsts found, HasTerm ds id.1 ∧ HasTerm ds id.2 := by
    intro id hid
    obtain ⟨hbound, hclosure⟩ := (hfound id.1 id.2).mp hid
    rw [hbound.1 s rfl] at hclosure ⊢
    refine ⟨⟨term, hterm⟩, ?_⟩
    have hor : id.2 = s ∨ TransGen (Along triples pId) s id.2 := by
      cases includeIdentity with
      | false => exact .inr hclosure
      | true => exact reflTransGen_iff_eq_or_transGen.mp hclosure
    rcases hor with heq | hreach
    · rw [heq]
      exact ⟨term, hterm⟩
    · exact (hasTerm_of_transGen h hreach).2
  obtain ⟨pairs, hpairs, hdecoded⟩ := decodePairs_ok hterms
  refine ⟨pairs.flatten, firsts found, ⟨k, fun fuel hfuel => ?_⟩, hdecoded, nodup_firsts found, hfound⟩
  show ringBfsTransitive fuel ds pId [s] includeIdentity ag = _
  rw [ringBfsTransitive]
  simp only [mapM_cons, mapM_nil, decode_ok hterm, hk fuel hfuel]
  show ((firsts [found].flatten).mapM _ >>= fun pairs => Except.ok pairs.flatten) = _
  rw [flatten_singleton]
  exact congrArg (fun out => out >>= fun pairs => Except.ok (List.flatten pairs)) hpairs

/-! ## Backwards -/

theorem before_rel (h : IndexedGraph ds ag triples predId) :
    (fun a b => b ∈ before ds ag pId a) = Function.swap (Along triples pId) := by
  funext a b
  exact propext (mem_before h)

theorem backward_found (h : IndexedGraph ds ag triples predId) (t : Nat) :
    ∃ st : Search.State Nat Nat,
      Returns (fun fuel => Search.run id (predecessors ds pId ag) PathError.fuel fuel ⟨[t], [t], []⟩) st ∧
        st.found.Nodup ∧ ∀ x, x ∈ st.found ↔ x ≠ t ∧ ReflTransGen (Along triples pId) x t := by
  have hsucc : ∀ x ∈ around triples t, predecessors ds pId ag x = .ok (before ds ag pId x) :=
    fun x _ => predecessors_ok h pId x
  obtain ⟨st, hret, hnodup, hfound⟩ := Search.run_from_returns PathError.fuel (fun x _ y _ heq => heq)
    (fun x _ y hy => around_closed_swap ((mem_before h).mp hy)) hsucc (Finset.mem_insert_self t (nodes triples))
  refine ⟨st, hret, hnodup, ?_⟩
  intro x
  rw [hfound, before_rel h, reflTransGen_swap]

variable (pId) in
/-- What the backward search returns: a path of no edges only where it is asked for. -/
theorem backward_returns (h : IndexedGraph ds ag triples predId) {t : Nat} (ht : HasTerm ds t)
    (includeIdentity : Bool) :
    ∃ pairs ids, Returns (fun fuel => ringBfsTransitiveBackward fuel ds pId t includeIdentity ag) pairs ∧
      DecodedAs ds ids pairs ∧ ids.Nodup ∧
      ∀ x y, (x, y) ∈ ids ↔
        y = t ∧ (includeIdentity = true ∧ x = t ∨ x ≠ t ∧ ReflTransGen (Along triples pId) x t) := by
  have hsearch : ∃ st : Search.State Nat Nat,
      Returns (fun fuel => Search.run id (predecessors ds pId ag) PathError.fuel fuel ⟨[t], [t], []⟩) st ∧
        st.found.Nodup ∧ ∀ x, x ∈ st.found ↔ x ≠ t ∧ ReflTransGen (Along triples pId) x t := backward_found h t
  obtain ⟨st, ⟨k, hk⟩, hnodup, hfound⟩ := hsearch
  obtain ⟨term, hterm⟩ := ht
  have hterms : ∀ x ∈ st.found, HasTerm ds x := by
    intro x hx
    obtain ⟨hne, hreach⟩ := (hfound x).mp hx
    exact (hasTerm_of_transGen h ((reflTransGen_iff_eq_or_transGen.mp hreach).resolve_left hne.symm)).1
  obtain ⟨pairs, hpairs, hdecoded⟩ := decodedPairs_ok hterms (fun x => (x, t)) (fun s => (s, term))
    fun id s hs => ⟨hs, hterm⟩
  refine ⟨(if includeIdentity then [(term, term)] else []) ++ pairs,
    (if includeIdentity then [(t, t)] else []) ++ st.found.map fun x =>
      (x, t), ⟨k, fun fuel hfuel => ?_⟩, ?_, ?_, ?_⟩
  · show ringBfsTransitiveBackward fuel ds pId t includeIdentity ag = _
    rw [ringBfsTransitiveBackward]
    simp only [decode_ok hterm, hk fuel hfuel]
    show (decodedPairs ds _ st.found >>= fun pairs => Except.ok (_ ++ pairs)) = _
    rw [hpairs]
    rfl
  · cases includeIdentity with
    | false => exact hdecoded
    | true => exact .cons ⟨hterm, hterm⟩ hdecoded
  · have hfoundNodup : (st.found.map fun x => (x, t)).Nodup := hnodup.map fun x y heq => (Prod.mk.inj heq).1
    cases includeIdentity with
    | false => exact hfoundNodup
    | true =>
      refine nodup_cons.mpr ⟨?_, hfoundNodup⟩
      intro hmem
      obtain ⟨x, hx, heq⟩ := mem_map.mp hmem
      exact ((hfound x).mp hx).1 (Prod.mk.inj heq).1
  -- the pair of the end with itself stands in front, where it is asked for
  · intro x y
    simp only [mem_append, mem_map, Prod.mk.injEq, hfound]
    cases includeIdentity with
    | false =>
      simp only [Bool.false_eq_true, if_false, not_mem_nil, false_or, false_and]
      constructor
      · intro hxy
        obtain ⟨_, hx, rfl, rfl⟩ := hxy
        exact ⟨rfl, hx⟩
      · intro hxy
        obtain ⟨rfl, hx⟩ := hxy
        exact ⟨x, hx, rfl, rfl⟩
    | true =>
      simp only [if_true, mem_singleton, Prod.mk.injEq, true_and]
      constructor
      · intro hxy
        rcases hxy with ⟨rfl, rfl⟩ | ⟨_, hx, rfl, rfl⟩
        · exact ⟨rfl, .inl rfl⟩
        · exact ⟨rfl, .inr hx⟩
      · intro hxy
        obtain ⟨rfl, rfl | hx⟩ := hxy
        · exact .inl ⟨rfl, rfl⟩
        · exact .inr ⟨x, hx, rfl, rfl⟩

end Search

/-! ## From both ends -/

variable {next : Nat → Except PathError Scan} {succ : Nat → List Nat}

section Sides

variable {other : List Nat} {side : Side}

/-- What a layer adds to a side: its new nodes, which make the next frontier. -/
structure Grown (side side' : Side) (ys : List Nat) : Prop where
  visited : ∀ y, y ∈ side'.visited ↔ y ∈ side.visited ∨ y ∈ ys
  frontier : ∀ y, y ∈ side'.frontier ↔ y ∈ side.frontier ∨ y ∈ ys ∧ y ∉ side.visited
  nodup : side.visited.Nodup → side'.visited.Nodup
  length : side'.visited.length + side.frontier.length = side.visited.length + side'.frontier.length

/-- Visiting adds the nodes that are new, each once. -/
theorem grown_visit (ys : List Nat) : ∀ side : Side, Grown side (ys.foldl Side.visit side) ys := by
  induction ys with
  | nil => exact fun side => ⟨by simp, by simp, id, rfl⟩
  | cons y ys ih =>
    intro side
    have hrest := ih (side.visit y)
    rw [foldl_cons]
    by_cases hy : y ∈ side.visited
    · have hvisit : side.visit y = side := by rw [Side.visit, if_pos hy]
      rw [hvisit] at hrest ⊢
      refine ⟨?_, ?_, hrest.nodup, hrest.length⟩
      · intro z
        rw [hrest.visited, mem_cons]
        constructor
        · tauto
        · rintro (hz | rfl | hz) <;> tauto
      · intro z
        rw [hrest.frontier, mem_cons]
        constructor
        · tauto
        · rintro (hz | ⟨rfl | hz, hnot⟩) <;> tauto
    · have hvisit : side.visit y = ⟨y :: side.visited, side.frontier ++ [y]⟩ := by rw [Side.visit, if_neg hy]
      rw [hvisit] at hrest ⊢
      refine ⟨?_, ?_, ?_, ?_⟩
      · intro z
        rw [hrest.visited]
        simp only [mem_cons]
        tauto
      · intro z
        rw [hrest.frontier]
        simp only [mem_append, mem_cons, not_mem_nil, or_false]
        constructor
        · rintro ((hz | rfl) | ⟨hz, hnot⟩)
          · exact .inl hz
          · exact .inr ⟨.inl rfl, hy⟩
          · exact .inr ⟨.inr hz, fun hmem => hnot (.inr hmem)⟩
        · rintro (hz | ⟨rfl | hz, hnot⟩)
          · exact .inl (.inl hz)
          · exact .inl (.inr rfl)
          · by_cases heq : z = y
            · exact .inl (.inr heq)
            · exact .inr ⟨hz, fun hmem => hmem.elim heq hnot⟩
      · exact fun hnodup => hrest.nodup (nodup_cons.mpr ⟨hy, hnodup⟩)
      · have hlen := hrest.length
        simp only [length_cons, length_append, length_nil] at hlen
        omega

theorem expandLayer_eq (layer : List Nat)
    (hnext : ∀ x ∈ layer, next x = .ok (succ x)) : ∀ side : Side, expandLayer next other layer side =
      .ok (if (layer.flatMap succ).any (fun y => y ∈ other) then none
        else some ((layer.flatMap succ).foldl Side.visit side)) := by
  induction layer with
  | nil => exact fun side => rfl
  | cons x layer ih =>
    intro side
    rcases forall_mem_cons.mp hnext with ⟨hx, hrest⟩
    rw [expandLayer, hx]
    show (if ((succ x).any fun y => y ∈ other) = true then Except.ok none else expandLayer next other layer _) = _
    rw [flatMap_cons, any_append]
    by_cases hmeet : ((succ x).any fun y => y ∈ other) = true
    · rw [if_pos hmeet, hmeet, Bool.true_or, if_pos rfl]
    · rw [if_neg hmeet, ih hrest, Bool.eq_false_iff.mpr hmeet, Bool.false_or, foldl_append]

/-- The state of a side that starts from `origin` and goes along `r`. A node that is not
on the frontier any more has been expanded, and the other side's start was not next. -/
structure Side.Inv (r : Nat → Nat → Prop) (origin otherOrigin : Nat) (U : Finset Nat) (side : Side) : Prop where
  start : origin ∈ side.visited
  reached : ∀ x ∈ side.visited, ReflTransGen r origin x
  inside : ∀ x ∈ side.visited, x ∈ U
  pending : ∀ x ∈ side.frontier, x ∈ side.visited
  expanded : ∀ x ∈ side.visited, x ∈ side.frontier ∨ ∀ y, r x y → y ∈ side.visited ∧ y ≠ otherOrigin
  nodup : side.visited.Nodup

/-- The steps that are left: twice the nodes to come, and one for a frontier. -/
def Side.left (U : Finset Nat) (side : Side) : Nat :=
  2 * (U.card - side.visited.length) + min side.frontier.length 1

section Expand

variable {r : Nat → Nat → Prop} {origin otherOrigin : Nat} {U : Finset Nat}

theorem Side.Inv.length_le (h : side.Inv r origin otherOrigin U) : side.visited.length ≤ U.card := by
  rw [← toFinset_card_of_nodup h.nodup]
  apply Finset.card_le_card
  intro x hx
  exact h.inside x (mem_toFinset.mp hx)

theorem Side.inv_start (horigin : origin ∈ U) : (Side.start origin).Inv r origin otherOrigin U where
  start := mem_singleton_self origin
  reached := by
    intro x hx
    rw [mem_singleton.mp hx]
  inside := by
    intro x hx
    rw [mem_singleton.mp hx]
    exact horigin
  pending := fun x hx => hx
  expanded := fun x hx => .inl hx
  nodup := nodup_singleton origin

/-- A layer: either the sides meet, or the side has grown and less is left to do. -/
theorem Side.Inv.expand (h : side.Inv r origin otherOrigin U) (hother : otherOrigin ∈ other)
    (hnext : ∀ x, next x = .ok (succ x))
    (hsucc : ∀ x y, y ∈ succ x ↔ r x y) (hclosed : ∀ x y, r x y → y ∈ U) :
    (side.expand next other = .ok none ∧ ∃ x y, ReflTransGen r origin x ∧ r x y ∧ y ∈ other) ∨
      ∃ side', side.expand next other = .ok (some side') ∧ side'.Inv r origin otherOrigin U ∧
        side'.left U ≤ side.left U ∧ (side.frontier ≠ [] → side'.left U < side.left U) := by
  have hexpand : side.expand next other = _ :=
    expandLayer_eq side.frontier (fun x _ => hnext x) { side with frontier := [] }
  rw [hexpand]
  by_cases hmeet : (side.frontier.flatMap succ).any (fun y => y ∈ other) = true
  -- an edge from the frontier leads to the other side
  · left
    rw [if_pos hmeet]
    refine ⟨rfl, ?_⟩
    simp only [any_eq_true, mem_flatMap, decide_eq_true_eq] at hmeet
    obtain ⟨y, ⟨x, hx, hy⟩, hmem⟩ := hmeet
    exact ⟨x, y, h.reached x (h.pending x hx), (hsucc x y).mp hy, hmem⟩
  · right
    rw [if_neg hmeet]
    have hgrown := grown_visit (side.frontier.flatMap succ) { side with frontier := [] }
    have hlayer : ∀ y, y ∈ side.frontier.flatMap succ ↔ ∃ x ∈ side.frontier, r x y := by
      intro y
      simp only [mem_flatMap, hsucc]
    have hapart : ∀ x ∈ side.frontier, ∀ y, r x y → y ≠ otherOrigin := by
      rintro x hx y hy rfl
      apply hmeet
      exact any_eq_true.mpr ⟨y, (hlayer y).mpr ⟨x, hx, hy⟩, decide_eq_true hother⟩
    -- what the frontier reaches is visited now and waits for the next layer
    have hinv : ((side.frontier.flatMap succ).foldl Side.visit { side with frontier := [] }).Inv r origin otherOrigin U := by
      refine ⟨?_, ?_, ?_, ?_, ?_, hgrown.nodup h.nodup⟩
      · exact (hgrown.visited origin).mpr (.inl h.start)
      · intro y hy
        rcases (hgrown.visited y).mp hy with hy | hy
        · exact h.reached y hy
        · obtain ⟨x, hx, hxy⟩ := (hlayer y).mp hy
          exact (h.reached x (h.pending x hx)).tail hxy
      · intro y hy
        rcases (hgrown.visited y).mp hy with hy | hy
        · exact h.inside y hy
        · obtain ⟨x, hx, hxy⟩ := (hlayer y).mp hy
          exact hclosed x y hxy
      · intro y hy
        rcases (hgrown.frontier y).mp hy with hy | hy
        · exact absurd hy not_mem_nil
        · exact (hgrown.visited y).mpr (.inr hy.1)
      · intro x hx
        rcases (hgrown.visited x).mp hx with hx | hx
        · -- it was on the frontier, and is expanded now, or it was before
          right
          intro y hy
          rcases h.expanded x hx with hfrontier | hdone
          · exact ⟨(hgrown.visited y).mpr (.inr ((hlayer y).mpr ⟨x, hfrontier, hy⟩)), hapart x hfrontier y hy⟩
          · exact ⟨(hgrown.visited y).mpr (.inl (hdone y hy).1), (hdone y hy).2⟩
        · by_cases hold : x ∈ side.visited
          · right
            intro y hy
            rcases h.expanded x hold with hfrontier | hdone
            · exact ⟨(hgrown.visited y).mpr (.inr ((hlayer y).mpr ⟨x, hfrontier, hy⟩)), hapart x hfrontier y hy⟩
            · exact ⟨(hgrown.visited y).mpr (.inl (hdone y hy).1), (hdone y hy).2⟩
          · exact .inl ((hgrown.frontier x).mpr (.inr ⟨hx, hold⟩))
    refine ⟨_, rfl, hinv, ?_⟩
    have hlen := hgrown.length
    have hle := hinv.length_le
    simp only [length_nil, Nat.add_zero] at hlen
    simp only [Side.left]
    have hpos : side.frontier ≠ [] → 0 < side.frontier.length := length_pos_iff.mpr
    have hsame : side.frontier = [] → (side.frontier.flatMap succ).foldl Side.visit { side with frontier := [] } =
        { side with frontier := [] } := by
      intro hnil
      rw [hnil]
      rfl
    by_cases hnil : side.frontier = []
    · rw [hsame hnil, hnil]
      exact ⟨le_rfl, fun hne => absurd rfl hne⟩
    · have hfrontier := hpos hnil
      constructor
      · omega
      · intro _
        omega

end Expand

end Sides

section Bidirectional

variable {ds : Dataset} {ag : GraphSelector} {triples : List Row} {predId : NamedNode → Option Nat} {pId s t : Nat}
  {U : Finset Nat}

/-- Two sides that have met: an edge leads from what the source reaches to what reaches the
target. -/
theorem transGen_of_meet {r : Nat → Nat → Prop} (hx : ReflTransGen r s x) (hxy : r x y)
    (hy : ReflTransGen r y t) : TransGen r s t :=
  TransGen.trans_left (TransGen.tail' hx hxy) hy

/-- A layer of one side and then one of the other, which goes the other way along the
edges. -/
theorem expandTwo_spec (out : Side → Side → Side × Side) {r : Nat → Nat → Prop} (hU : ∀ x y, r x y → x ∈ U ∧ y ∈ U)
    {first second : Side} (hfirst : first.Inv r s t U) (hsecond : second.Inv (Function.swap r) t s U)
    {next' : Nat → Except PathError Scan} {succ' : Nat → List Nat}
    (hnext : ∀ x, next x = .ok (succ x)) (hsucc : ∀ x y, y ∈ succ x ↔ r x y)
    (hnext' : ∀ x, next' x = .ok (succ' x)) (hsucc' : ∀ x y, y ∈ succ' x ↔ r y x) :
    let run : Except PathError (Option (Side × Side)) := do
      match ← first.expand next second.visited with
      | none => return none
      | some first =>
        match ← second.expand next' first.visited with
        | none => return none
        | some second => return some (out first second)
    (run = .ok none ∧ TransGen r s t) ∨
      ∃ first' second', run = .ok (some (out first' second')) ∧ first'.Inv r s t U ∧
        second'.Inv (Function.swap r) t s U ∧ first'.left U + second'.left U ≤ first.left U + second.left U ∧
          (first.frontier ≠ [] ∨ second.frontier ≠ [] →
            first'.left U + second'.left U < first.left U + second.left U) := by
  rcases hfirst.expand hsecond.start hnext hsucc (fun x y hxy => (hU x y hxy).2) with
    ⟨hrun, x, y, hx, hxy, hy⟩ | ⟨first', hrun, hfirst', hle, hlt⟩
  · -- an edge from what the source reaches to what reaches the target
    left
    rw [hrun]
    exact ⟨rfl, transGen_of_meet hx hxy (reflTransGen_swap.mp (hsecond.reached y hy))⟩
  · rcases hsecond.expand hfirst'.start hnext' hsucc' (fun x y hxy => (hU y x hxy).1) with
      ⟨hrun', x, y, hx, hxy, hy⟩ | ⟨second', hrun', hsecond', hle', hlt'⟩
    -- the second side meets what the first has reached
    · left
      rw [hrun]
      show (second.expand next' first'.visited >>= _) = _ ∧ _
      rw [hrun']
      exact ⟨rfl, transGen_of_meet (hfirst'.reached y hy) hxy (reflTransGen_swap.mp hx)⟩
    · right
      refine ⟨first', second', ?_, hfirst', hsecond', by omega, ?_⟩
      · rw [hrun]
        show (second.expand next' first'.visited >>= _) = _
        rw [hrun']
        rfl
      · intro hne
        rcases hne with hne | hne
        · have hdec := hlt hne
          omega
        · have hdec := hlt' hne
          omega

/-- A round of both sides. -/
theorem expandBoth_spec (h : IndexedGraph ds ag triples predId) (hU : ∀ x y, Along triples pId x y → x ∈ U ∧ y ∈ U)
    {fwd bwd : Side} (hfwd : fwd.Inv (Along triples pId) s t U)
    (hbwd : bwd.Inv (Function.swap (Along triples pId)) t s U) :
    (expandBoth ds pId ag fwd bwd = .ok none ∧ TransGen (Along triples pId) s t) ∨
      ∃ fwd' bwd', expandBoth ds pId ag fwd bwd = .ok (some (fwd', bwd')) ∧ fwd'.Inv (Along triples pId) s t U ∧
        bwd'.Inv (Function.swap (Along triples pId)) t s U ∧ fwd'.left U + bwd'.left U ≤ fwd.left U + bwd.left U ∧
          (fwd.frontier ≠ [] ∨ bwd.frontier ≠ [] → fwd'.left U + bwd'.left U < fwd.left U + bwd.left U) := by
  have hsucc : ∀ x y, y ∈ after ds ag pId x ↔ Along triples pId x y := fun x y => mem_after h
  have hpred : ∀ x y, y ∈ before ds ag pId x ↔ Function.swap (Along triples pId) x y := fun x y => mem_before h
  rw [expandBoth]
  split
  · -- forwards first
    exact expandTwo_spec Prod.mk hU hfwd hbwd (successors_ok h pId) hsucc (predecessors_ok h pId) hpred
  · -- backwards first, along the edges the other way round
    rcases expandTwo_spec (fun bwd fwd => (fwd, bwd)) (fun x y hxy => (hU y x hxy).symm) hbwd hfwd
      (predecessors_ok h pId) hpred (successors_ok h pId) hsucc with ⟨hrun, hpath⟩ |
      ⟨bwd', fwd', hrun, hbwd', hfwd', hle, hlt⟩
    · exact .inl ⟨hrun, transGen_swap.mp hpath⟩
    · refine .inr ⟨fwd', bwd', hrun, hfwd', hbwd', by omega, ?_⟩
      intro hne
      have hdec := hlt hne.symm
      omega

section

variable (h : IndexedGraph ds ag triples predId)
include h

/-- The loop ends, and has found a path exactly if there is one. -/
theorem bidirectionalLoop_returns
    (hU : ∀ x y, Along triples pId x y → x ∈ U ∧ y ∈ U) : ∀ {fwd bwd : Side}, fwd.Inv (Along triples pId) s t U →
      bwd.Inv (Function.swap (Along triples pId)) t s U →
      ∃ found, Returns (fun fuel => bidirectionalLoop ds pId ag fuel fwd bwd) found ∧
        (found = true ↔ TransGen (Along triples pId) s t) := by
  intro fwd bwd
  -- induction on the steps that are left
  induction hm : fwd.left U + bwd.left U using Nat.strong_induction_on generalizing fwd bwd with
  | _ m ih =>
    intro hfwd hbwd
    by_cases hempty : (fwd.frontier.isEmpty && bwd.frontier.isEmpty) = true
    · -- all that the source reaches has been expanded, and the target was never next
      refine ⟨false, ⟨1, fun fuel hfuel => ?_⟩, ?_⟩
      · obtain ⟨k, rfl⟩ := Nat.exists_eq_add_of_le' hfuel
        show bidirectionalLoop ds pId ag (k + 1) fwd bwd = _
        rw [bidirectionalLoop, if_pos hempty]
        rfl
      · simp only [Bool.false_eq_true, false_iff]
        intro hpath
        have hnil : fwd.frontier = [] := List.isEmpty_iff.mp (Bool.and_eq_true_iff.mp hempty).1
        have hdone : ∀ x ∈ fwd.visited, ∀ y, Along triples pId x y → y ∈ fwd.visited ∧ y ≠ t := by
          intro x hx
          rcases hfwd.expanded x hx with hfrontier | hdone
          · rw [hnil] at hfrontier
            exact absurd hfrontier not_mem_nil
          · exact hdone
        have hall : ∀ x, ReflTransGen (Along triples pId) s x → x ∈ fwd.visited := by
          intro x hx
          induction hx with
          | refl => exact hfwd.start
          | tail _ hstep ih => exact (hdone _ ih _ hstep).1
        obtain ⟨x, hx, hxt⟩ := TransGen.tail'_iff.mp hpath
        exact (hdone x (hall x hx) t hxt).2 rfl
    · have hne : fwd.frontier ≠ [] ∨ bwd.frontier ≠ [] := by
        by_contra hnone
        push Not at hnone
        exact hempty (by rw [hnone.1, hnone.2]; rfl)
      rcases expandBoth_spec h hU hfwd hbwd with ⟨hrun, hpath⟩ | ⟨fwd', bwd', hrun, hfwd', hbwd', -, hlt⟩
      · refine ⟨true, ⟨1, fun fuel hfuel => ?_⟩, by simp [hpath]⟩
        obtain ⟨k, rfl⟩ := Nat.exists_eq_add_of_le' hfuel
        show bidirectionalLoop ds pId ag (k + 1) fwd bwd = _
        rw [bidirectionalLoop, if_neg hempty, hrun]
        rfl
      · obtain ⟨found, ⟨k, hk⟩, hfound⟩ := ih _ (by have hdec := hlt hne; omega) rfl hfwd' hbwd'
        refine ⟨found, ⟨k + 1, fun fuel hfuel => ?_⟩, hfound⟩
        obtain ⟨j, rfl⟩ := Nat.exists_eq_add_of_le' (show 1 ≤ fuel by omega)
        show bidirectionalLoop ds pId ag (j + 1) fwd bwd = _
        rw [bidirectionalLoop, if_neg hempty, hrun]
        exact hk j (by omega)

theorem bidirectionalReachable_returns (pId s t : Nat) :
    ∃ found, Returns (fun fuel => bidirectionalReachable fuel ds pId s t ag) found ∧
      (found = true ↔ TransGen (Along triples pId) s t) := by
  have hU : ∀ x y, Along triples pId x y → x ∈ insert s (around triples t) ∧ y ∈ insert s (around triples t) := by
    intro x y hxy
    exact ⟨Finset.mem_insert_of_mem (around_closed_swap hxy), Finset.mem_insert_of_mem (around_closed hxy)⟩
  have ht : t ∈ insert s (around triples t) := Finset.mem_insert_of_mem (Finset.mem_insert_self t (nodes triples))
  exact bidirectionalLoop_returns h hU (Side.inv_start (Finset.mem_insert_self s (around triples t))) (Side.inv_start ht)

/-- Both ends are bound: the search meets in the middle. -/
theorem both_returns {s t : Nat} (hs : HasTerm ds s) (ht : HasTerm ds t)
    (includeIdentity : Bool) : ReturnsClosure ds triples pId (some s) (some t) includeIdentity fun fuel =>
      ringBfsTransitiveBound fuel ds pId (some s) (some t) includeIdentity ag := by
  have hreached : ∃ found, Returns (fun fuel => bidirectionalReachable fuel ds pId s t ag) found ∧
      (found = true ↔ TransGen (Along triples pId) s t) := bidirectionalReachable_returns h pId s t
  obtain ⟨found, ⟨k, hk⟩, hfound⟩ := hreached
  replace hk : ∀ fuel ≥ k, bidirectionalReachable fuel ds pId s t ag = .ok found := hk
  obtain ⟨sTerm, hsTerm⟩ := hs
  obtain ⟨tTerm, htTerm⟩ := ht
  have hbound : ∀ x y, Bound (some s) (some t) x y ↔ x = s ∧ y = t := by simp [Bound]
  have hclosure : Closure includeIdentity (Along triples pId) s t ↔
      includeIdentity = true ∧ s = t ∨ TransGen (Along triples pId) s t := by
    cases includeIdentity with
    | false => simp [Closure]
    | true => simp [Closure, reflTransGen_iff_eq_or_transGen, eq_comm]
  -- the pair is returned exactly if it is in the closure
  have hone : Closure includeIdentity (Along triples pId) s t →
      ∀ x y, (x, y) ∈ [(s, t)] ↔ Bound (some s) (some t) x y ∧
        Closure includeIdentity (Along triples pId) x y := by
    intro hyes x y
    rw [hbound, mem_singleton, Prod.mk.injEq]
    constructor
    · intro hxy
      refine ⟨hxy, ?_⟩
      rw [hxy.1, hxy.2]
      exact hyes
    · exact fun hxy => hxy.1
  by_cases hpath : found = true
  · refine ⟨[(sTerm, tTerm)], [(s, t)], ⟨k, fun fuel hfuel => ?_⟩, .cons ⟨hsTerm, htTerm⟩ .nil, nodup_singleton _,
      hone (hclosure.mpr (.inr (hfound.mp hpath)))⟩
    show ringBfsTransitiveBound fuel ds pId (some s) (some t) includeIdentity ag = _
    rw [ringBfsTransitiveBound, hk fuel hfuel, hpath, decode_ok hsTerm, decode_ok htTerm]
    rfl
  · have hnone : found = false := Bool.eq_false_iff.mpr hpath
    by_cases hsame : (includeIdentity && decide (s = t)) = true
    · obtain ⟨hincl, heq⟩ := Bool.and_eq_true_iff.mp hsame
      have hst : s = t := of_decide_eq_true heq
      have hpair : DecodedAs ds [(s, t)] [(sTerm, sTerm)] := .cons ⟨hsTerm, hst ▸ hsTerm⟩ .nil
      refine ⟨[(sTerm, sTerm)], [(s, t)], ⟨k, fun fuel hfuel => ?_⟩, hpair, nodup_singleton _,
        hone (hclosure.mpr (.inl ⟨hincl, hst⟩))⟩
      show ringBfsTransitiveBound fuel ds pId (some s) (some t) includeIdentity ag = _
      rw [ringBfsTransitiveBound, hk fuel hfuel, hnone, decode_ok hsTerm]
      rw [if_pos hsame]
      rfl
    · refine ⟨[], [], ⟨k, fun fuel hfuel => ?_⟩, .nil, nodup_nil, ?_⟩
      · show ringBfsTransitiveBound fuel ds pId (some s) (some t) includeIdentity ag = _
        rw [ringBfsTransitiveBound, hk fuel hfuel, hnone]
        rw [if_neg hsame]
        rfl
      · intro x y
        rw [hbound]
        refine ⟨nofun, ?_⟩
        rintro ⟨⟨rfl, rfl⟩, hxy⟩
        rcases hclosure.mp hxy with ⟨hincl, hst⟩ | hreach
        · exact absurd (Bool.and_eq_true_iff.mpr ⟨hincl, decide_eq_true hst⟩) hsame
        · exact absurd (hfound.mpr hreach) hpath

end

end Bidirectional

/-! ## All the searches -/

section Main

variable {ds : Dataset} {ag : GraphSelector} {triples : List Row} {predId : NamedNode → Option Nat} {pId : Nat}

variable (pId) in
/-- Backwards, the pair of the target with itself is returned only for a path of no
edges. -/
theorem backward_returnsClosure_iff (h : IndexedGraph ds ag triples predId) {t : Nat} (ht : HasTerm ds t)
    (includeIdentity : Bool) :
    (ReturnsClosure ds triples pId none (some t) includeIdentity fun fuel =>
      ringBfsTransitiveBackward fuel ds pId t includeIdentity ag) ↔
        (includeIdentity = false → ¬ TransGen (Along triples pId) t t) := by
  obtain ⟨pairs, ids, hret, hdecoded, hnodup, hmem⟩ := backward_returns pId h ht includeIdentity
  have hbound : ∀ x y, Bound none (some t) x y ↔ y = t := by simp [Bound]
  have hsound : ∀ x y, (x, y) ∈ ids →
      Bound none (some t) x y ∧ Closure includeIdentity (Along triples pId) x y := by
    intro x y hxy
    rcases (hmem x y).mp hxy with ⟨rfl, ⟨hincl, rfl⟩ | ⟨hne, hreach⟩⟩
    · refine ⟨(hbound _ _).mpr rfl, ?_⟩
      rw [Closure, if_pos hincl]
    · refine ⟨(hbound _ _).mpr rfl, ?_⟩
      rcases reflTransGen_iff_eq_or_transGen.mp hreach with heq | hpath
      · exact absurd heq.symm hne
      · rw [Closure]
        split
        · exact hreach
        · exact hpath
  constructor
  · intro hreturns hincl hcycle
    -- the list that is returned is too short to have the pair of the target with itself
    obtain ⟨pairs', ids', hret', hdecoded', hnodup', hmem'⟩ := hreturns
    have hlen : ids.length = ids'.length := by
      rw [hdecoded.length_eq, hdecoded'.length_eq, hret.unique hret']
    have hmissing : (t, t) ∉ ids := by
      intro hin
      rcases ((hmem t t).mp hin).2 with ⟨htrue, -⟩ | ⟨hne, -⟩
      · rw [hincl] at htrue
        exact Bool.false_ne_true htrue
      · exact hne rfl
    have hsub : ((t, t) :: ids) ⊆ ids' := by
      intro xy hxy
      rcases mem_cons.mp hxy with rfl | hxy
      · refine (hmem' t t).mpr ⟨(hbound t t).mpr rfl, ?_⟩
        rw [Closure, hincl]
        exact hcycle
      · exact (hmem' xy.1 xy.2).mpr (hsound xy.1 xy.2 hxy)
    have hlonger := (subperm_of_subset (nodup_cons.mpr ⟨hmissing, hnodup⟩) hsub).length_le
    rw [length_cons] at hlonger
    omega
  · intro hcond
    refine ⟨pairs, ids, hret, hdecoded, hnodup, fun x y => ⟨hsound x y, ?_⟩⟩
    rintro ⟨hxy, hreach⟩
    rw [(hbound x y).mp hxy] at hreach ⊢
    rw [hmem]
    refine ⟨rfl, ?_⟩
    cases hincl : includeIdentity with
    | true =>
      rw [Closure, if_pos hincl] at hreach
      by_cases heq : x = t
      · exact .inl ⟨rfl, heq⟩
      · exact .inr ⟨heq, hreach⟩
    | false =>
      rw [Closure, hincl] at hreach
      refine .inr ⟨?_, TransGen.to_reflTransGen hreach⟩
      rintro rfl
      exact hcond hincl hreach

/-- The search from the bound ends returns the closure in all cases but one: backwards
from a target on a cycle, for `p+`. -/
theorem ringBfsTransitiveBound_iff (h : IndexedGraph ds ag triples predId) {source target : Option Nat}
    (hbound : source ≠ none ∨ target ≠ none) (hsource : ∀ s, source = some s → HasTerm ds s)
    (htarget : ∀ t, target = some t → HasTerm ds t) (includeIdentity : Bool) :
    (ReturnsClosure ds triples pId source target includeIdentity fun fuel =>
      ringBfsTransitiveBound fuel ds pId source target includeIdentity ag) ↔
        (source = none → includeIdentity = false → ∀ t, target = some t → ¬ TransGen (Along triples pId) t t) := by
  cases source with
  | some s =>
    -- forwards and from both ends nothing is missed
    have hreturns : ReturnsClosure ds triples pId (some s) target includeIdentity fun fuel =>
        ringBfsTransitiveBound fuel ds pId (some s) target includeIdentity ag := by
      cases target with
      | some t => exact both_returns h (hsource s rfl) (htarget t rfl) includeIdentity
      | none => exact forward_returns h (hsource s rfl) includeIdentity
    exact ⟨fun _ hnone => absurd hnone (Option.some_ne_none s), fun _ => hreturns⟩
  | none =>
    cases target with
    | none => exact absurd hbound (by simp)
    | some t =>
      have hiff := backward_returnsClosure_iff pId h (htarget t rfl) includeIdentity
      constructor
      · intro hreturns _ hincl t' heq
        rw [← Option.some.inj heq]
        exact hiff.mp hreturns hincl
      · intro hcond
        exact hiff.mpr fun hincl => hcond rfl hincl t rfl

end Main

/-! ## A state of the store -/

section Store

variable {D : Type} {A : DictApi D} {Knows : D → Names → Prop} {CompactOk : Names → Prop} {names : Names}
  {s : LoudsStore D} {graph : GraphSelector} {g : GraphId}

theorem indexedGraph_ringOf (I : Implements A Knows CompactOk) (h : s.Inv Knows names)
    (hgraph : StoreDataset.graphId (LoudsStore.quadStore A GraphRing.prepareShape s) graph = some g) :
    IndexedGraph (s.dataset A) graph (s.ringOf A graph).spoTriples fun p =>
      (names.termId (.namedNode p)).map TermId.asU64 where
  scan := by
    intro sv pv ov target htarget hfree
    refine ⟨(s.ringOf A graph).joinScan sv pv ov target, ?_, GraphRing.joinScan_ascending, ?_⟩
    · show (StoreDataset.graphId (LoudsStore.quadStore A GraphRing.prepareShape s) graph).bind _ = _
      rw [LoudsStore.ringOf, hgraph, Option.bind_some, Option.bind_some]
      simp only [LoudsStore.quadStore]
      cases s.graphs[g]? with
      | none => rfl
      | some ring => rfl
    · intro x
      rw [GraphRing.mem_joinScan htarget hfree]
      simp only [GraphRing.mem_triples]
  intern := by
    intro p
    show (do return (← A.getId s.dict (.namedNode p)).map TermId.asU64) = _
    rw [I.getId s.dict names _ h.knows, Names.getId]
    cases names.termId (.namedNode p) <;> rfl
  decode := Lftj.decodes_ringOf I h graph

end Store

/-! ## A node linked to itself -/

theorem indexedGraph_loop : IndexedGraph (Lftj.loopStore.dataset tableApi) .default
    (Lftj.loopStore.ringOf tableApi .default).spoTriples fun p =>
      (Lftj.loopNames.termId (.namedNode p)).map TermId.asU64 :=
  indexedGraph_ringOf tableApi_implements Lftj.loopStore_inv (g := graphDefault) rfl

theorem hasTerm_loop : HasTerm (Lftj.loopStore.dataset tableApi) 0 :=
  indexedGraph_loop.hasTerm (mem_nodes.mpr ⟨_, Lftj.mem_loopStore, .inl rfl⟩)

/-- The closure from the node is found forwards. -/
theorem ringBfsTransitiveBound_iff_loop :
    (ReturnsClosure (Lftj.loopStore.dataset tableApi)
      (Lftj.loopStore.ringOf tableApi .default).spoTriples 1 (some 0) none
        false fun fuel => ringBfsTransitiveBound fuel (Lftj.loopStore.dataset tableApi) 1 (some 0) none false .default) ↔
      ((some 0 : Option Nat) = none → false = false → ∀ t, (none : Option Nat) = some t →
        ¬ TransGen (Along (Lftj.loopStore.ringOf tableApi .default).spoTriples 1) t t) :=
  ringBfsTransitiveBound_iff indexedGraph_loop (.inl (by decide))
    (fun s hs => by rw [← Option.some.inj hs]; exact hasTerm_loop)
      (fun t ht => absurd ht.symm (Option.some_ne_none t)) false

/-- Backwards from the node, its pair with itself is missed. -/
theorem backward_misses_cycle :
    ¬ ReturnsClosure (Lftj.loopStore.dataset tableApi)
      (Lftj.loopStore.ringOf tableApi .default).spoTriples 1 none (some 0)
        false fun fuel => ringBfsTransitiveBound fuel (Lftj.loopStore.dataset tableApi) 1 none (some 0) false .default := by
  intro hreturns
  have hiff := backward_returnsClosure_iff 1 indexedGraph_loop hasTerm_loop false
  exact hiff.mp hreturns rfl (.single Lftj.mem_loopStore)

end Path

end Nova
