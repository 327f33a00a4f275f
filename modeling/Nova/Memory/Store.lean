import Nova.Query.Dataset

/-!
# The in-memory reference store

A list of distinct quads and the IRIs of the graphs that were ever named. A
pattern is answered by a linear scan. The store has no join acceleration, so that
every query over it takes the generic path.

`serves` is its contract towards the query layer, without any reservation;
`toFinset_insert` and `toFinset_remove` say what a write does to the set of its
quads.
-/

namespace Nova

open List

/-- `MemoryStore`; `insert` never adds a quad twice. -/
structure MemoryStore where
  quads : List Quad
  namedGraphIris : List String
  nodup : quads.Nodup

namespace MemoryStore

def new : MemoryStore := ⟨[], [], .nil⟩

/-- A named graph is registered once. -/
def register (iris : List String) : GraphName → List String
  | .namedNode n => if n.iri ∈ iris then iris else iris ++ [n.iri]
  | _ => iris

def insert (m : MemoryStore) (q : Quad) : Bool × MemoryStore :=
  if h : q ∈ m.quads then (false, { m with namedGraphIris := register m.namedGraphIris q.graphName })
  else
    (true,
      { quads := m.quads ++ [q]
        namedGraphIris := register m.namedGraphIris q.graphName
        nodup := List.nodup_append.mpr ⟨m.nodup, List.nodup_singleton q, by
          intro a ha b hb heq
          rw [List.mem_singleton.mp hb] at heq
          exact h (heq ▸ ha)⟩ })

/-- `Vec::swap_remove` of a value that is there: the last element takes its
place. -/
def swapRemove (quads : List Quad) (q : Quad) : List Quad :=
  match quads.getLast? with
  | none => []
  | some last => if last = q then quads.dropLast else quads.dropLast.replace q last

theorem swapRemove_perm {quads : List Quad} {q : Quad} (h : q ∈ quads) :
    (swapRemove quads q).Perm (quads.erase q) := by
  rcases eq_nil_or_concat quads with rfl | ⟨front, last, rfl⟩
  · cases h
  · rw [concat_eq_append] at h ⊢
    unfold swapRemove
    rw [getLast?_concat, dropLast_concat]
    by_cases hlast : last = q
    · rw [hlast]
      simp only [if_pos]
      have hperm : (front ++ [q]).Perm (q :: front) := perm_append_comm
      have herase := hperm.erase q
      rw [erase_cons_head] at herase
      exact herase.symm
    · simp only [if_neg hlast]
      have hfront : q ∈ front := by
        rcases mem_append.mp h with hf | hl
        · exact hf
        · exact absurd (mem_singleton.mp hl).symm hlast
      rw [erase_append_left _ hfront]
      -- the last element stands in the place of the removed one
      clear h
      induction front with
      | nil => cases hfront
      | cons a front ih =>
        by_cases ha : a = q
        · rw [ha, replace_cons_self, erase_cons_head]
          exact (perm_append_singleton last front).symm
        · have hbeq : (q == a) = false := by simpa using fun heq => ha heq.symm
          rw [replace_cons, hbeq, erase_cons_tail (by simpa using ha), cons_append]
          have hmem : q ∈ front := by
            rcases mem_cons.mp hfront with heq | hm
            · exact absurd heq.symm ha
            · exact hm
          exact (ih hmem).cons a

def remove (m : MemoryStore) (q : Quad) : Bool × MemoryStore :=
  if h : q ∈ m.quads then
    (true,
      { m with
        quads := swapRemove m.quads q
        nodup := (swapRemove_perm h).nodup_iff.mpr (m.nodup.erase q) })
  else (false, m)

/-- `apply_batch`, the default of `QuadStore`: one call for each element. -/
def applyBatch (m : MemoryStore) (ops : List QuadOp) : MemoryStore :=
  ops.foldl (fun m op =>
    match op with
    | .insert q => (m.insert q).2
    | .remove q => (m.remove q).2) m

/-- `quads_for_pattern`: a linear scan. -/
def quadsForPattern (m : MemoryStore) (subject : Option Term) (predicate : Option NamedNode)
    (object : Option Term) (graphName : Option GraphName) : List StoredQuad :=
  (m.quads.filter fun q =>
    subject.all (fun s => q.subject.toTerm = s) && predicate.all (fun p => q.predicate = p) &&
      object.all (fun o => q.object = o) && graphName.all (fun g => q.graphName = g)).map Quad.stored

/-- The store as the query layer sees it: the defaults of `LftjSource`. -/
def quadStore (m : MemoryStore) : QuadStore where
  quadsForPattern s p o g := .ok (m.quadsForPattern s p o g)
  knownNamedGraphs := m.namedGraphIris.map fun iri => .namedNode ⟨iri⟩
  supportsLftj := false
  lftjHasDelta := false
  supportsVeoEstimates := false
  lftjInternTerm _ := .ok none
  lftjDecodeTerm _ := .ok none
  lftjGraphId _ := none
  lftjEstimateCount _ _ _ _ _ := u64Max
  lftjRealCount _ _ _ _ _ := none
  lftjJoinScan _ _ _ _ _ := none
  lftjMultiSubjectObjectIntersect _ _ _ := none
  lftjPrepareSpObjectScan _ _ := none
  lftjPrepareShape _ _ := none

/-! ## Contracts -/

theorem serves (m : MemoryStore) : Serves m.quadStore m.quads.toFinset fun _ => True where
  answers := by
    intro subject predicate object graphName _ _
    refine ⟨_, rfl, m.nodup.filter _, ?_⟩
    intro q
    rw [mem_filter, mem_toFinset]
    refine and_congr_right fun _ => ?_
    simp only [Bool.and_eq_true, Option.all_eq_true, decide_eq_true_eq]
    constructor
    · intro h
      rcases h with ⟨⟨⟨hs, hp⟩, ho⟩, hg⟩
      exact ⟨hs, hp, ho, hg⟩
    · intro h
      exact ⟨⟨⟨h.subject, h.predicate⟩, h.object⟩, h.graphName⟩
  stored := fun _ _ _ => trivial

theorem toFinset_insert (m : MemoryStore) (q : Quad) :
    (m.insert q).2.quads.toFinset = Insert.insert q m.quads.toFinset := by
  unfold insert
  split
  · next h => exact (Finset.insert_eq_of_mem (mem_toFinset.mpr h)).symm
  · ext q'
    simp

theorem toFinset_remove (m : MemoryStore) (q : Quad) :
    (m.remove q).2.quads.toFinset = m.quads.toFinset.erase q := by
  unfold remove
  split
  · next h =>
    ext q'
    rw [mem_toFinset, (swapRemove_perm h).mem_iff, m.nodup.mem_erase_iff, Finset.mem_erase,
      mem_toFinset]
  · next h => exact (Finset.erase_eq_of_notMem fun hm => h (mem_toFinset.mp hm)).symm

end MemoryStore

end Nova
