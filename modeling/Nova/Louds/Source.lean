import Nova.Louds.JoinScan
import Nova.Louds.Refine
import Nova.Query.Dataset

/-!
# The LOUDS store under the query layer

`quadStore` is a state of the store as the query layer calls it. The two families
of calls look at different things: `quadsForPattern` at the live quads, the join
scans at the rings alone, whatever the delta says of their triples.

The state is fixed: a read fills the caches of the dictionary, and what it leaves
there is dropped, because no answer depends on it. `lftj_decode_term` reads the
dictionary; its snapshot is the subject of `Nova.Louds.Writers`. The prepared
shapes of a ring are a parameter, in the place of `Nova.Louds.PreparedShape`.
-/

namespace Nova

open Nova.Lib

/-- `vocab_size_for_field`: how many values a column takes. -/
def GraphRing.vocabSizeForField (r : GraphRing) (field : Nat) : Nat :=
  if field < 3 then (r.spoTriples.map fun t => column t field).dedup.length else 0

/-- `estimate_count`. -/
def GraphRing.estimateCount (r : GraphRing) (s p o : Option Nat) (target : Nat) : Nat :=
  let nBound := [s, p, o].countP Option.isSome
  r.vocabSizeForField target / (nBound + 1)

namespace LoudsStore

variable {D : Type}

def quadStore (A : DictApi D) (shapes : GraphRing → PhysicalShape → Option (List (List Nat)))
    (s : LoudsStore D) : QuadStore where
  quadsForPattern subject predicate object graphName :=
    match quadsForPattern A s subject predicate object graphName with
    | .ok (quads, _) => .ok quads
    | .error p => .error (.panic p)
  knownNamedGraphs := knownNamedGraphs A s
  supportsLftj := true
  lftjHasDelta := !s.delta.isEmpty
  supportsVeoEstimates := true
  lftjInternTerm t := do return (← A.getId s.dict t).map TermId.asU64
  lftjDecodeTerm id :=
    match TermId.new id with
    | .error _ => .ok none
    | .ok tid => do return (← A.getTermArc s.dict tid).1
  lftjGraphId g := A.getGraphId s.dict g
  lftjEstimateCount sv pv ov target g :=
    match s.graphs[g]? with
    | none => 0
    | some ring => ring.estimateCount sv pv ov target
  lftjRealCount _ _ _ _ _ := none
  lftjJoinScan sv pv ov target g :=
    match s.graphs[g]? with
    | none => some []
    | some ring => some (ring.joinScan sv pv ov target)
  lftjMultiSubjectObjectIntersect _ _ _ := none
  lftjPrepareSpObjectScan _ _ := none
  lftjPrepareShape shape g := s.graphs[g]?.bind fun ring => shapes ring shape

/-- A term whose lookup returns even if it is a quoted triple. -/
def Known (n : Names) (t : Term) : Prop := n.termId t ≠ none ∨ n.isSealed = false

variable {A : DictApi D} {Knows : D → Names → Prop} {CompactOk : Names → Prop} {n : Names}
  {s : LoudsStore D} {shapes : GraphRing → PhysicalShape → Option (List (List Nat))}

theorem getId_of_askable (I : Implements A Knows CompactOk) (h : Inv Knows n s) {t : Term}
    (ht : Askable (Known n) t) : A.getId s.dict t = .ok (n.termId t) := by
  rw [I.getId _ _ _ h.knows, Names.getId]
  cases hid : n.termId t with
  | some id => rfl
  | none =>
    refine if_neg fun hpanic => ?_
    rw [Bool.and_eq_true] at hpanic
    rcases ht hpanic.1 with hsome | hopen
    · exact hsome hid
    · rw [hopen] at hpanic
      cases hpanic.2

theorem askable_of_getId (I : Implements A Knows CompactOk) (h : Inv Knows n s) {t : Term} {id : Option TermId}
    (ht : A.getId s.dict t = .ok id) : Askable (Known n) t := by
  intro htriple
  by_contra hnot
  simp only [Known, not_or, not_not, Bool.not_eq_false] at hnot
  rw [I.getId _ _ _ h.knows, Names.getId, hnot.1] at ht
  simp [htriple, hnot.2] at ht

variable (shapes) in
theorem serves (I : Implements A Knows CompactOk) (h : Inv Knows n s) {S : Finset Quad}
    (hS : ∀ q, q ∈ S ↔ Live n s q) : Serves (quadStore A shapes s) S (Known n) where
  answers := by
    intro subject predicate object graphName hsub hobj
    rcases quadsForPattern_spec I h subject predicate object graphName
      (fun t ht => getId_of_askable I h (hsub t ht)) (fun _ _ t ht => getId_of_askable I h (hobj t ht))
      with ⟨qs, d', hr, _, hnodup, hmem⟩
    refine ⟨qs, ?_, hnodup, fun q => by rw [hmem, hS]⟩
    show (match quadsForPattern A s subject predicate object graphName with
      | .ok (quads, _) => Except.ok quads
      | .error p => .error (Fault.panic p)) = _
    rw [hr]
  stored := fun q hq _ => .inl ((hS q).mp hq).terms_known.2.2

theorem exists_liveSet (I : Implements A Knows CompactOk) (h : Inv Knows n s) :
    ∃ S : Finset Quad, ∀ q, q ∈ S ↔ Live n s q := by
  classical
  rcases quadsForPattern_spec I h none none none none (fun _ ht => by cases ht)
    (fun _ _ _ ht => by cases ht) with ⟨qs, _, _, _, _, hmem⟩
  refine ⟨qs.toFinset, fun q => ?_⟩
  rw [List.mem_toFinset, hmem]
  refine and_iff_left ⟨?_, ?_, ?_, ?_⟩
  all_goals exact fun _ hx => by cases hx

end LoudsStore

end Nova
