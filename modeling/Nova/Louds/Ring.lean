import Nova.Lib.Trie
import Mathlib.Data.Finset.Card

/-!
# The ring index of one graph

Six tries over the same triples, one for each order of the columns. A pattern
with bound columns is answered from an order that starts with them: seek the
bound values, descend, and enumerate what is below.

A `GraphRing` carries what its construction guarantees: sorted tries with the
same triples, and the number of these. `contains_iff`, `mem_matchTriples` and
`matchTriples_nodup` are its three contracts. A trie is a tree here; its bit-level
encoding and the local numbering of the columns are `Nova.Louds.Cltj`, and
`Nova.Louds.RingBuilder` leads from the one to the other.
-/

namespace Nova

open Nova.Lib List

/-- Which of the six orders of the columns a trie uses. -/
inductive SortOrder where
  | spo
  | sop
  | pso
  | pos
  | ops
  | osp
deriving DecidableEq, Repr

namespace SortOrder

/-- The columns of a row of this order, back as `[s, p, o]`. -/
def toSpo : SortOrder → Row → Row
  | .spo, (c₀, c₁, c₂) => (c₀, c₁, c₂)
  | .sop, (c₀, c₁, c₂) => (c₀, c₂, c₁)
  | .pso, (c₀, c₁, c₂) => (c₁, c₀, c₂)
  | .pos, (c₀, c₁, c₂) => (c₂, c₀, c₁)
  | .ops, (c₀, c₁, c₂) => (c₂, c₁, c₀)
  | .osp, (c₀, c₁, c₂) => (c₁, c₂, c₀)

/-- The row of a triple `[s, p, o]` in this order. -/
def ofSpo : SortOrder → Row → Row
  | .spo, (s, p, o) => (s, p, o)
  | .sop, (s, p, o) => (s, o, p)
  | .pso, (s, p, o) => (p, s, o)
  | .pos, (s, p, o) => (p, o, s)
  | .ops, (s, p, o) => (o, p, s)
  | .osp, (s, p, o) => (o, s, p)

@[simp] theorem toSpo_ofSpo (ord : SortOrder) (t : Row) : ord.toSpo (ord.ofSpo t) = t := by
  cases ord <;> rfl

@[simp] theorem ofSpo_toSpo (ord : SortOrder) (r : Row) : ord.ofSpo (ord.toSpo r) = r := by
  cases ord <;> rfl

theorem toSpo_injective (ord : SortOrder) : Function.Injective ord.toSpo :=
  Function.LeftInverse.injective ord.ofSpo_toSpo

end SortOrder

/-- The immutable data of one graph: sorted tries that hold the same triples. -/
structure RingData where
  tries : SortOrder → Trie3
  sorted : ∀ ord, (tries ord).Sorted
  noStub : ∀ ord, (tries ord).NoStub
  same : ∀ ord, ((tries ord).rows.map ord.toSpo).Perm (tries .spo).rows
  nodup : (tries .spo).rows.Nodup

/-- The ring of one graph; `n` is its number of distinct triples. -/
structure GraphRing where
  n : Nat
  data : Option RingData
  n_eq : n = data.elim 0 fun d => (d.tries .spo).rows.length

/-! ## Building -/

/-- `build_cltj_data`: the triples, distinct and sorted, once for each order. -/
def buildCltjData (triples : List Row) (hsorted : triples.Pairwise fun a b => Row.le a b = true)
    (hnodup : triples.Nodup) : RingData where
  tries := fun ord =>
    Trie3.ofRows (match ord with
      | .spo => triples
      | ord => sortRows (triples.map ord.ofSpo))
  sorted := by
    intro ord
    have hmap : (triples.map ord.ofSpo).Nodup :=
      hnodup.map (Function.LeftInverse.injective ord.toSpo_ofSpo)
    have hsort := Trie3.sorted_ofRows (sortRows_sorted (triples.map ord.ofSpo))
      ((sortRows_perm _).nodup_iff.mpr hmap)
    cases ord with
    | spo => exact Trie3.sorted_ofRows hsorted hnodup
    | _ => exact hsort
  noStub := fun _ => Trie3.noStub_ofRows _
  same := by
    intro ord
    have hperm := (sortRows_perm (triples.map ord.ofSpo)).map ord.toSpo
    rw [List.map_map] at hperm
    have hid : ord.toSpo ∘ ord.ofSpo = id := funext ord.toSpo_ofSpo
    rw [hid, List.map_id] at hperm
    cases ord with
    | spo =>
      have hspo : SortOrder.spo.toSpo = id := rfl
      rw [Trie3.rows_ofRows, hspo, List.map_id]
    | _ =>
      rw [Trie3.rows_ofRows, Trie3.rows_ofRows]
      exact hperm
  nodup := by
    rw [Trie3.rows_ofRows]
    exact hnodup

/-- The ring without data. -/
def GraphRing.empty : GraphRing := ⟨0, none, rfl⟩

/-- `RingBuilder::build`: sort, drop duplicates, index. -/
def ringBuild (triples : List Row) : GraphRing :=
  let sorted := dedupRuns (sortRows triples)
  if sorted.length = 0 then .empty
  else
    { n := sorted.length
      data := some (buildCltjData sorted
        ((sortRows_sorted triples).sublist (dedupRuns_sublist _))
        (dedupRuns_nodup (sortRows_sorted triples)))
      n_eq := by
        simp only [Option.elim_some, buildCltjData]
        rw [Trie3.rows_ofRows] }

namespace GraphRing

/-! ## Reading -/

/-- `spo_triples`: three nested loops over the SPO trie. -/
def spoTriples (r : GraphRing) : List Row :=
  match r.data with
  | none => []
  | some data =>
    (data.tries .spo).flatMap fun e₀ =>
      e₀.2.flatMap fun e₁ =>
        e₁.2.map fun e₂ => (e₀.1, e₁.1, e₂.1)

def contains (r : GraphRing) (s p o : Nat) : Bool :=
  match r.data with
  | none => false
  | some data =>
    match (data.tries .spo).find s with
    | none => false
    | some it =>
      match it.find p with
      | none => false
      | some it => (it.find o).isSome

/-- `enumerate_suffix` from depth 2: the last column varies. -/
def enumerateSuffix₂ (it : Level Unit) (c₀ c₁ : Nat) (order : SortOrder) : List Row :=
  it.map fun e => order.toSpo (c₀, c₁, e.1)

/-- `enumerate_suffix` from depth 1. -/
def enumerateSuffix₁ (it : Level (Level Unit)) (c₀ : Nat) (order : SortOrder) : List Row :=
  it.flatMap fun e => enumerateSuffix₂ e.2 c₀ e.1 order

/-- `enumerate_suffix` from the root. -/
def enumerateSuffix₀ (it : Trie3) (order : SortOrder) : List Row :=
  it.flatMap fun e => enumerateSuffix₁ e.2 e.1 order

/-- One bound column: seek it in an order that starts with it. -/
def matchOne (data : RingData) (order : SortOrder) (v : Nat) : List Row :=
  match (data.tries order).find v with
  | none => []
  | some it => enumerateSuffix₁ it v order

/-- Two bound columns. -/
def matchTwo (data : RingData) (order : SortOrder) (v w : Nat) : List Row :=
  match (data.tries order).find v with
  | none => []
  | some it =>
    match it.find w with
    | none => []
    | some it => enumerateSuffix₂ it v w order

def matchTriples (r : GraphRing) (s p o : Option Nat) : List Row :=
  match r.data with
  | none => []
  | some data =>
    match s, p, o with
    | some sv, some pv, some ov => if r.contains sv pv ov then [(sv, pv, ov)] else []
    | none, none, none => enumerateSuffix₀ (data.tries .spo) .spo
    | some sv, none, none => matchOne data .spo sv
    | none, some pv, none => matchOne data .pso pv
    | none, none, some ov => matchOne data .ops ov
    | some sv, some pv, none => matchTwo data .spo sv pv
    | some sv, none, some ov => matchTwo data .sop sv ov
    | none, some pv, some ov => matchTwo data .pos pv ov

/-! ## Contracts -/

variable {r : GraphRing}

/-- The triples of the ring. -/
def triples (r : GraphRing) : Finset Row := r.spoTriples.toFinset

theorem spoTriples_eq (r : GraphRing) :
    r.spoTriples = r.data.elim [] fun d => (d.tries .spo).rows := by
  unfold spoTriples
  cases r.data with
  | none => rfl
  | some data =>
    simp [Trie3.rows, Trie3.rows₂, map_flatMap, Function.comp_def]

theorem spoTriples_nodup (r : GraphRing) : r.spoTriples.Nodup := by
  rw [spoTriples_eq]
  cases r.data with
  | none => exact .nil
  | some data => exact data.nodup

variable {t : Row}

theorem mem_triples : t ∈ r.triples ↔ t ∈ r.spoTriples := mem_toFinset

theorem n_eq_card (r : GraphRing) : r.n = r.triples.card := by
  rw [triples, toFinset_card_of_nodup r.spoTriples_nodup, spoTriples_eq, r.n_eq]
  cases r.data with
  | none => rfl
  | some data => rfl

theorem ringBuild_spoTriples (ts : List Row) : (ringBuild ts).spoTriples = dedupRuns (sortRows ts) := by
  rw [spoTriples_eq, ringBuild]
  split
  · next hlen => exact (length_eq_zero_iff.mp hlen).symm
  · simp only [Option.elim_some, buildCltjData]
    rw [Trie3.rows_ofRows]

theorem mem_triples_ringBuild {ts : List Row} : t ∈ (ringBuild ts).triples ↔ t ∈ ts := by
  rw [mem_triples, ringBuild_spoTriples, mem_dedupRuns, (sortRows_perm ts).mem_iff]

theorem contains_iff {s p o : Nat} : r.contains s p o = true ↔ (s, p, o) ∈ r.triples := by
  rw [mem_triples, spoTriples_eq, contains]
  cases r.data with
  | none => simp
  | some data =>
    simp only [Option.elim_some]
    rw [Trie3.mem_rows_iff (data.sorted .spo)]
    cases (data.tries .spo).find s with
    | none => simp
    | some it =>
      simp only [Option.bind_some]
      cases it.find p with
      | none => simp
      | some it =>
        simp only [Option.bind_some]
        cases it.find o with
        | none => simp
        | some _ => simp

variable {data : RingData}

theorem mem_rows_iff (ord : SortOrder) {row : Row} :
    row ∈ (data.tries ord).rows ↔ ord.toSpo row ∈ (data.tries .spo).rows := by
  rw [← (data.same ord).mem_iff]
  exact (mem_map_of_injective ord.toSpo_injective).symm

theorem rows_nodup (data : RingData) (ord : SortOrder) : ((data.tries ord).rows.map ord.toSpo).Nodup :=
  (data.same ord).nodup_iff.mpr data.nodup

theorem matchOne_eq (data : RingData) (ord : SortOrder) (v : Nat) :
    matchOne data ord v = ((data.tries ord).rows.filter fun r => r.1 = v).map ord.toSpo := by
  rw [Trie3.filter₀ (data.sorted ord), matchOne]
  cases (data.tries ord).find v with
  | none => rfl
  | some it =>
    simp [enumerateSuffix₁, enumerateSuffix₂, Trie3.rows₂, map_flatMap, Function.comp_def]

theorem matchTwo_eq (data : RingData) (ord : SortOrder) (v w : Nat) :
    matchTwo data ord v w =
      ((data.tries ord).rows.filter fun r => r.1 = v ∧ r.2.1 = w).map ord.toSpo := by
  rw [Trie3.filter₀₁ (data.sorted ord), matchTwo]
  cases (data.tries ord).find v with
  | none => rfl
  | some it =>
    simp only [Option.bind_some]
    cases it.find w with
    | none => rfl
    | some it => simp [enumerateSuffix₂]

theorem enumerateSuffix₀_eq (data : RingData) :
    enumerateSuffix₀ (data.tries .spo) .spo = (data.tries .spo).rows := by
  simp [enumerateSuffix₀, enumerateSuffix₁, enumerateSuffix₂, Trie3.rows, Trie3.rows₂,
    map_flatMap, Function.comp_def, SortOrder.toSpo]

/-- A bound column has its value. -/
def Matches (s p o : Option Nat) (t : Row) : Prop :=
  (∀ v, s = some v → t.1 = v) ∧ (∀ v, p = some v → t.2.1 = v) ∧ ∀ v, o = some v → t.2.2 = v

/-- What a filter over the rows of an order keeps. -/
theorem mem_filter_rows {ord : SortOrder} {keep : Row → Bool} :
    t ∈ ((data.tries ord).rows.filter keep).map ord.toSpo ↔
      t ∈ (data.tries .spo).rows ∧ keep (ord.ofSpo t) = true := by
  rw [mem_map]
  constructor
  · intro h
    rcases h with ⟨row, hrow, rfl⟩
    rw [mem_filter, mem_rows_iff] at hrow
    exact ⟨hrow.1, by simpa using hrow.2⟩
  · intro h
    refine ⟨ord.ofSpo t, ?_, ord.toSpo_ofSpo t⟩
    rwa [mem_filter, mem_rows_iff, ord.toSpo_ofSpo]

theorem mem_matchOne {ord : SortOrder} {v : Nat} :
    t ∈ matchOne data ord v ↔ t ∈ (data.tries .spo).rows ∧ (ord.ofSpo t).1 = v := by
  rw [matchOne_eq, mem_filter_rows, decide_eq_true_iff]

theorem mem_matchTwo {ord : SortOrder} {v w : Nat} : t ∈ matchTwo data ord v w ↔
      t ∈ (data.tries .spo).rows ∧ (ord.ofSpo t).1 = v ∧ (ord.ofSpo t).2.1 = w := by
  rw [matchTwo_eq, mem_filter_rows, decide_eq_true_iff]

/-- `match_triples` returns the triples that match, for every choice of bound
columns. -/
theorem mem_matchTriples {s p o : Option Nat} :
    t ∈ r.matchTriples s p o ↔ t ∈ r.triples ∧ Matches s p o t := by
  rcases t with ⟨ts, tp, tob⟩
  rw [matchTriples, Matches, mem_triples, spoTriples_eq]
  cases hdata : r.data with
  | none => simp
  | some data =>
    cases s <;> cases p <;> cases o
    case none.none.none => simp [enumerateSuffix₀_eq]
    case some.some.some sv pv ov =>
      simp only [Option.elim_some, Option.some.injEq, forall_eq']
      constructor
      · intro h
        split at h
        · next hin =>
          rw [mem_singleton] at h
          have hmem := contains_iff.mp hin
          rw [mem_triples, spoTriples_eq, hdata] at hmem
          simp only [Prod.mk.injEq] at h
          rw [h.1, h.2.1, h.2.2]
          exact ⟨hmem, rfl, rfl, rfl⟩
        · cases h
      · intro h
        rcases h with ⟨hmem, rfl, rfl, rfl⟩
        have hin : r.contains ts tp tob = true := by
          rw [contains_iff, mem_triples, spoTriples_eq, hdata]
          exact hmem
        rw [if_pos hin]
        exact mem_singleton_self _
    all_goals simp [mem_matchOne, mem_matchTwo, SortOrder.ofSpo, and_comm]

/-- No triple is returned twice. -/
theorem matchTriples_nodup (s p o : Option Nat) : (r.matchTriples s p o).Nodup := by
  rw [matchTriples]
  cases r.data with
  | none => exact .nil
  | some data =>
    have hone : ∀ ord v, (matchOne data ord v).Nodup := by
      intro ord v
      rw [matchOne_eq]
      exact (rows_nodup data ord).sublist (filter_sublist.map _)
    have htwo : ∀ ord v w, (matchTwo data ord v w).Nodup := by
      intro ord v w
      rw [matchTwo_eq]
      exact (rows_nodup data ord).sublist (filter_sublist.map _)
    cases s <;> cases p <;> cases o
    case none.none.none =>
      simp only [enumerateSuffix₀_eq]
      exact data.nodup
    case some.some.some =>
      simp only
      split
      · exact nodup_singleton _
      · exact .nil
    all_goals first | exact hone _ _ | exact htwo _ _ _

end GraphRing

end Nova
