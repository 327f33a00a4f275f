import Nova.Louds.Refine
import Nova.Memory.Store
import Nova.Query.Bgp

/-!
# DELETE/INSERT … WHERE

The solutions of the WHERE clause are turned into one batch of writes, row by
row: the deletes of a row, then its inserts. A store applies the batch in that
order.

Meant is one delete followed by one insert: first everything that the delete
template yields over all rows goes, then everything that the insert template
yields comes. `deleteInsert_iff` says when the batch does that: every quad that
the insert template yields is inserted by some row after which no row deletes it.

The WHERE clause is a list of solutions here. A fresh blank node is the next name
of a supply; nothing is asked of the supply.
-/

namespace Nova

open Nova.Lib List

namespace Update

/-! ## Templates -/

inductive GraphNamePattern where
  | defaultGraph
  | namedNode (n : NamedNode)
  | var (v : Variable)
deriving DecidableEq, Repr

/-- `GroundTermPattern`: a term of a delete template, which has no blank nodes. -/
inductive GroundTermPattern where
  | namedNode (n : NamedNode)
  | literal (l : Literal)
  | triple (subject : GroundTermPattern) (predicate : NamedNodePattern) (object : GroundTermPattern)
  | var (v : Variable)
deriving DecidableEq, Repr

structure GroundQuadPattern where
  subject : GroundTermPattern
  predicate : NamedNodePattern
  object : GroundTermPattern
  graphName : GraphNamePattern
deriving DecidableEq, Repr

/-- `QuadPattern` of the algebra: a quad of an insert template. -/
structure QuadPattern where
  subject : TermPattern
  predicate : NamedNodePattern
  object : TermPattern
  graphName : GraphNamePattern
deriving DecidableEq, Repr

/-- `nn_pattern_to_named_node`. -/
def nnPatternToNamedNode (nnp : NamedNodePattern) (sol : Solution) : Option NamedNode :=
  match nnp with
  | .namedNode n => some n
  | .var v =>
    match sol.get v with
    | some (.namedNode n) => some n
    | _ => none

/-- `graph_name_pattern_to_graph`. -/
def graphNamePatternToGraph (gnp : GraphNamePattern) (sol : Solution) : Option GraphName :=
  match gnp with
  | .defaultGraph => some .defaultGraph
  | .namedNode n => some (.namedNode n)
  | .var v =>
    match sol.get v with
    | some (.namedNode n) => some (.namedNode n)
    | some (.blankNode b) => some (.blankNode b)
    | _ => none

/-- A term in subject position: an IRI or a blank node. -/
def toSubject : Term → Option Subject
  | .namedNode n => some (.namedNode n)
  | .blankNode b => some (.blankNode b)
  | _ => none

/-- `ground_term_pattern_to_term`. -/
def groundTermPatternToTerm (sol : Solution) : GroundTermPattern → Option Term
  | .namedNode n => some (.namedNode n)
  | .literal l => some (.literal l)
  | .var v => sol.get v
  | .triple s p o => do
    let subject ← (groundTermPatternToTerm sol s).bind toSubject
    let predicate ← nnPatternToNamedNode p sol
    let object ← groundTermPatternToTerm sol o
    return .triple subject predicate object

/-- `instantiate_ground_quad_pattern`. -/
def instantiateGroundQuadPattern (sol : Solution) (gqp : GroundQuadPattern) : Option Quad := do
  let subject ← (groundTermPatternToTerm sol gqp.subject).bind toSubject
  let predicate ← nnPatternToNamedNode gqp.predicate sol
  let object ← groundTermPatternToTerm sol gqp.object
  let graphName ← graphNamePatternToGraph gqp.graphName sol
  return ⟨subject, predicate, object, graphName⟩

/-- The blank nodes that a row has allocated for the labels of the template, and
the number of names drawn from the supply so far. -/
structure Fresh where
  map : List (BlankNode × BlankNode)
  next : Nat

/-- `fresh_bnode_for`: the blank node of a label in the current row. -/
def freshBnodeFor (supply : Nat → BlankNode) (b : BlankNode) (f : Fresh) : BlankNode × Fresh :=
  match f.map.lookup b with
  | some x => (x, f)
  | none => (supply f.next, ⟨(b, supply f.next) :: f.map, f.next + 1⟩)

/-- `term_pattern_to_term`. The labels met before a failure keep their nodes. -/
def termPatternToTerm (supply : Nat → BlankNode) (sol : Solution) :
    TermPattern → Fresh → Option Term × Fresh
  | .namedNode n, f => (some (.namedNode n), f)
  | .literal l, f => (some (.literal l), f)
  | .var v, f => (sol.get v, f)
  | .blankNode b, f =>
    let (x, f) := freshBnodeFor supply b f
    (some (.blankNode x), f)
  | .triple s p o, f =>
    let (st, f) := termPatternToTerm supply sol s f
    match st.bind toSubject with
    | none => (none, f)
    | some subject =>
      match nnPatternToNamedNode p sol with
      | none => (none, f)
      | some predicate =>
        let (ot, f) := termPatternToTerm supply sol o f
        (ot.map fun object => .triple subject predicate object, f)

/-- `instantiate_quad_pattern`. -/
def instantiateQuadPattern (supply : Nat → BlankNode) (sol : Solution) (qp : QuadPattern) (f : Fresh) :
    Option Quad × Fresh :=
  let (st, f) := termPatternToTerm supply sol qp.subject f
  match st.bind toSubject with
  | none => (none, f)
  | some subject =>
    match nnPatternToNamedNode qp.predicate sol with
    | none => (none, f)
    | some predicate =>
      match termPatternToTerm supply sol qp.object f with
      | (none, f) => (none, f)
      | (some object, f) =>
        ((graphNamePatternToGraph qp.graphName sol).map fun g => ⟨subject, predicate, object, g⟩, f)

/-! ## The batch -/

/-- What the insert template yields for one row. -/
def rowInserts (supply : Nat → BlankNode) (sol : Solution) : List QuadPattern → Fresh → List Quad × Fresh
  | [], f => ([], f)
  | qp :: rest, f =>
    let (quad, f) := instantiateQuadPattern supply sol qp f
    let (quads, f) := rowInserts supply sol rest f
    (quad.toList ++ quads, f)

/-- What one row deletes and inserts. -/
structure Row where
  deletes : List Quad
  inserts : List Quad

/-- The loop over the solutions; the labels of the template are new in each row. -/
def templateRows (supply : Nat → BlankNode) (delete : List GroundQuadPattern)
    (insert : List QuadPattern) : List Solution → Nat → List Row
  | [], _ => []
  | sol :: rest, next =>
    let (inserts, f) := rowInserts supply sol insert ⟨[], next⟩
    ⟨delete.filterMap (instantiateGroundQuadPattern sol), inserts⟩ ::
      templateRows supply delete insert rest f.next

def Row.ops (r : Row) : List QuadOp := r.deletes.map .remove ++ r.inserts.map .insert

/-- The `ops` of `delete_insert`. -/
def batchOps (rows : List Row) : List QuadOp := rows.flatMap Row.ops

/-- Everything that the delete template yields over all rows. -/
def deleted (rows : List Row) : Finset Quad := (rows.flatMap Row.deletes).toFinset

/-- Everything that the insert template yields over all rows. -/
def inserted (rows : List Row) : Finset Quad := (rows.flatMap Row.inserts).toFinset

/-- `delete_insert`, given the solutions of its WHERE clause. -/
def deleteInsert {St : Type} (applyBatch : St → List QuadOp → Except Fault Unit × St)
    (supply : Nat → BlankNode) (delete : List GroundQuadPattern) (insert : List QuadPattern)
    (solutions : List Solution) (s : St) : Except Fault Unit × St :=
  applyBatch s (batchOps (templateRows supply delete insert solutions 0))

/-! ## What the batch leaves -/

/-- Every quad that the insert template yields is inserted by some row after which
no row deletes it. -/
def NoLaterDelete (rows : List Row) : Prop :=
  ∀ q ∈ inserted rows, ∃ front row back, rows = front ++ row :: back ∧ q ∈ row.inserts ∧
    ∀ r ∈ back, q ∉ r.deletes

theorem mem_foldl_inserts (qs : List Quad) : ∀ {S : Finset Quad} {q : Quad},
    q ∈ (qs.map QuadOp.insert).foldl Spec.applyPlain S ↔ q ∈ qs ∨ q ∈ S := by
  induction qs with
  | nil => simp
  | cons q' qs ih =>
    intro S q
    rw [map_cons, foldl_cons, ih, Spec.applyPlain, Finset.mem_insert, mem_cons]
    tauto

theorem mem_foldl_removes (qs : List Quad) : ∀ {S : Finset Quad} {q : Quad},
    q ∈ (qs.map QuadOp.remove).foldl Spec.applyPlain S ↔ q ∈ S ∧ q ∉ qs := by
  induction qs with
  | nil => simp
  | cons q' qs ih =>
    intro S q
    rw [map_cons, foldl_cons, ih, Spec.applyPlain, Finset.mem_erase, mem_cons]
    tauto

/-- The row inserts the quad and no later row deletes it. -/
def InsertedLast (q : Quad) (rows : List Row) : Prop :=
  ∃ front row back, rows = front ++ row :: back ∧ q ∈ row.inserts ∧ ∀ r ∈ back, q ∉ r.deletes

variable {rows : List Row}

theorem insertedLast_cons {q : Quad} {row : Row} : InsertedLast q (row :: rows) ↔
      (q ∈ row.inserts ∧ ∀ r ∈ rows, q ∉ r.deletes) ∨ InsertedLast q rows := by
  constructor
  · intro h
    rcases h with ⟨front, r, back, heq, hins, hback⟩
    cases front with
    | nil =>
      cases heq
      exact .inl ⟨hins, hback⟩
    | cons r' front =>
      cases heq
      exact .inr ⟨front, r, back, rfl, hins, hback⟩
  · intro h
    rcases h with ⟨hins, hback⟩ | ⟨front, r, back, rfl, hins, hback⟩
    · exact ⟨[], row, rows, rfl, hins, hback⟩
    · exact ⟨row :: front, r, back, rfl, hins, hback⟩

/-- After the batch: what was there and is deleted by no row, and what a row
inserts that no later row deletes. -/
theorem mem_batch : ∀ {S : Finset Quad} {q : Quad},
    q ∈ (batchOps rows).foldl Spec.applyPlain S ↔
      (q ∈ S ∧ ∀ r ∈ rows, q ∉ r.deletes) ∨ InsertedLast q rows := by
  induction rows with
  | nil =>
    intro S q
    simp [batchOps, InsertedLast]
  | cons row rows ih =>
    intro S q
    have hsplit : batchOps (row :: rows) = row.ops ++ batchOps rows := flatMap_cons
    have hrow : q ∈ row.ops.foldl Spec.applyPlain S ↔
        q ∈ row.inserts ∨ q ∈ S ∧ q ∉ row.deletes := by
      rw [Row.ops, foldl_append, mem_foldl_inserts, mem_foldl_removes]
    rw [hsplit, foldl_append, ih, hrow, insertedLast_cons]
    simp only [mem_cons, forall_eq_or_imp]
    tauto

theorem mem_deleted {q : Quad} : q ∈ deleted rows ↔ ∃ r ∈ rows, q ∈ r.deletes := by
  simp [deleted]

theorem mem_inserted {q : Quad} : q ∈ inserted rows ↔ ∃ r ∈ rows, q ∈ r.inserts := by
  simp [inserted]

theorem InsertedLast.mem_inserted {q : Quad} (h : InsertedLast q rows) : q ∈ inserted rows := by
  rcases h with ⟨front, r, back, rfl, hins, -⟩
  exact Update.mem_inserted.mpr ⟨r, by simp, hins⟩

/-- The batch is one delete followed by one insert exactly when no insert is undone
by a later row. -/
theorem batch_eq_iff (S : Finset Quad) :
    (batchOps rows).foldl Spec.applyPlain S = S \ deleted rows ∪ inserted rows ↔ NoLaterDelete rows := by
  constructor
  · intro heq q hq
    have hmem : q ∈ S \ deleted rows ∪ inserted rows := Finset.mem_union_right _ hq
    rw [← heq, mem_batch] at hmem
    rcases hmem with ⟨-, hnodel⟩ | hlast
    · -- no row deletes the quad, so any row that inserts it will do
      rcases mem_inserted.mp hq with ⟨r, hr, hins⟩
      rcases append_of_mem hr with ⟨front, back, rfl⟩
      exact ⟨front, r, back, rfl, hins, fun r' hr' => hnodel r' (by simp [hr'])⟩
    · exact hlast
  · intro hlast
    ext q
    rw [mem_batch, Finset.mem_union, Finset.mem_sdiff, mem_deleted]
    constructor
    · intro h
      rcases h with ⟨hS, hnodel⟩ | h
      · exact .inl ⟨hS, fun hd => by
          rcases hd with ⟨r, hr, hdel⟩
          exact hnodel r hr hdel⟩
      · exact .inr h.mem_inserted
    · intro h
      rcases h with ⟨hS, hnodel⟩ | h
      · exact .inl ⟨hS, fun r hr hdel => hnodel ⟨r, hr, hdel⟩⟩
      · exact .inr (hlast q h)

/-! ## Stores -/

/-- The contract of `apply_batch`: a batch that succeeds makes its writes one after
another on the set of quads that the store holds. -/
def AppliesBatches {St : Type} (Holds : St → Finset Quad → Prop)
    (applyBatch : St → List QuadOp → Except Fault Unit × St) : Prop :=
  ∀ s G ops s', Holds s G → applyBatch s ops = (.ok (), s') → Holds s' (ops.foldl Spec.applyPlain G)

def memoryApplyBatch (m : MemoryStore) (ops : List QuadOp) : Except Fault Unit × MemoryStore :=
  (.ok (), m.applyBatch ops)

theorem memory_appliesBatches :
    AppliesBatches (fun m G => m.quads.toFinset = G) memoryApplyBatch := by
  intro m G ops m' hG hr
  cases hr
  rw [← hG]
  clear hG
  induction ops generalizing m with
  | nil => rfl
  | cons op ops ih =>
    have hone : ∀ m₁ : MemoryStore, m₁.quads.toFinset = Spec.applyPlain m.quads.toFinset op →
        (m₁.applyBatch ops).quads.toFinset =
          (op :: ops).foldl Spec.applyPlain m.quads.toFinset := by
      intro m₁ hm₁
      rw [ih m₁, hm₁, foldl_cons]
    cases op with
    | insert q => exact hone _ (m.toFinset_insert q)
    | remove q => exact hone _ (m.toFinset_remove q)

/-- After a DELETE/INSERT that succeeds the store holds the old quads without all
that is deleted and with all that is inserted, if and only if every inserted quad
is inserted by some row after which no row deletes it. -/
theorem deleteInsert_iff {St : Type} {Holds : St → Finset Quad → Prop}
    {applyBatch : St → List QuadOp → Except Fault Unit × St} (hstore : AppliesBatches Holds applyBatch)
    (hfun : ∀ s G G', Holds s G → Holds s G' → G = G') (supply : Nat → BlankNode)
    (delete : List GroundQuadPattern) (insert : List QuadPattern) (solutions : List Solution)
    {s s' : St} {G : Finset Quad} (hG : Holds s G)
    (hr : deleteInsert applyBatch supply delete insert solutions s = (.ok (), s')) :
    Holds s' (G \ deleted (templateRows supply delete insert solutions 0) ∪
        inserted (templateRows supply delete insert solutions 0)) ↔
      NoLaterDelete (templateRows supply delete insert solutions 0) := by
  have hafter := hstore s G _ s' hG hr
  rw [← batch_eq_iff G]
  constructor
  · intro hmeant
    exact hfun s' _ _ hafter hmeant
  · intro heq
    rw [← heq]
    exact hafter

/-- Two edges, one the other way round. -/
def swapStore : MemoryStore :=
  MemoryStore.new.applyBatch
    [.insert ⟨.namedNode ⟨"http://ex/a"⟩, ⟨"http://ex/p"⟩, .namedNode ⟨"http://ex/b"⟩, .defaultGraph⟩,
      .insert ⟨.namedNode ⟨"http://ex/b"⟩, ⟨"http://ex/p"⟩, .namedNode ⟨"http://ex/a"⟩, .defaultGraph⟩]

def edgePattern : TriplePattern := ⟨.var ⟨"x"⟩, .namedNode ⟨"http://ex/p"⟩, .var ⟨"y"⟩⟩

def deleteEdge : GroundQuadPattern :=
  ⟨.var ⟨"x"⟩, .namedNode ⟨"http://ex/p"⟩, .var ⟨"y"⟩, .defaultGraph⟩

def insertReversed : QuadPattern :=
  ⟨.var ⟨"y"⟩, .namedNode ⟨"http://ex/p"⟩, .var ⟨"x"⟩, .defaultGraph⟩

/-- The rows of `?x p ?y` over the two edges. -/
def edgeRow : Solution :=
  ⟨[⟨"x"⟩, ⟨"y"⟩], [some (.namedNode ⟨"http://ex/a"⟩), some (.namedNode ⟨"http://ex/b"⟩)], rfl⟩

def reverseRow : Solution :=
  ⟨[⟨"x"⟩, ⟨"y"⟩], [some (.namedNode ⟨"http://ex/b"⟩), some (.namedNode ⟨"http://ex/a"⟩)], rfl⟩

/-- The row of another edge. -/
def otherRow : Solution :=
  ⟨[⟨"x"⟩, ⟨"y"⟩], [some (.namedNode ⟨"http://ex/c"⟩), some (.namedNode ⟨"http://ex/d"⟩)], rfl⟩

/-- Rows none of which deletes what one of them inserts. -/
theorem noLaterDelete_of_apart {rows : List Row} (h : ∀ r ∈ rows, ∀ q ∈ inserted rows, q ∉ r.deletes) :
    NoLaterDelete rows := by
  intro q hq
  obtain ⟨row, hrow, hins⟩ := mem_inserted.mp hq
  obtain ⟨front, back, rfl⟩ := append_of_mem hrow
  exact ⟨front, row, back, rfl, hins, fun r hr => h r (mem_append_right _ (mem_cons_of_mem _ hr)) q hq⟩

/-- Rows turn their edges round: nothing undoes their inserts. -/
theorem deleteInsert_iff_edgeRow :
    (deleteInsert memoryApplyBatch (fun _ => ⟨"b"⟩) [deleteEdge] [insertReversed] [edgeRow]
          swapStore).2.quads.toFinset =
        swapStore.quads.toFinset \
            deleted (templateRows (fun _ => ⟨"b"⟩) [deleteEdge] [insertReversed] [edgeRow] 0) ∪
          inserted (templateRows (fun _ => ⟨"b"⟩) [deleteEdge] [insertReversed] [edgeRow] 0) ∧
      (deleteInsert memoryApplyBatch (fun _ => ⟨"b"⟩) [deleteEdge] [insertReversed] [edgeRow, otherRow]
          swapStore).2.quads.toFinset =
        swapStore.quads.toFinset \
            deleted (templateRows (fun _ => ⟨"b"⟩) [deleteEdge] [insertReversed] [edgeRow, otherRow] 0) ∪
          inserted (templateRows (fun _ => ⟨"b"⟩) [deleteEdge] [insertReversed] [edgeRow, otherRow] 0) := by
  constructor
  all_goals
    refine (deleteInsert_iff memory_appliesBatches (fun m G G' hG hG' => hG.symm.trans hG')
      (fun _ => ⟨"b"⟩) [deleteEdge] [insertReversed] _ rfl rfl).mpr (noLaterDelete_of_apart ?_)
    decide +kernel

/-- Both edges turned round at once: the second row deletes what the first has
inserted. -/
theorem deleteInsert_loses_insert :
    ¬∀ (m : MemoryStore) (supply : Nat → BlankNode) (delete : List GroundQuadPattern)
        (insert : List QuadPattern) (tp : TriplePattern) (solutions : List Solution),
      evalBgpNested (storeDataset m.quadStore) .new [tp] .default = .ok solutions →
      (deleteInsert memoryApplyBatch supply delete insert solutions m).2.quads.toFinset =
        m.quads.toFinset \ deleted (templateRows supply delete insert solutions 0) ∪
          inserted (templateRows supply delete insert solutions 0) := by
  intro hclaim
  have hlost := hclaim swapStore (fun _ => ⟨"b"⟩) [deleteEdge] [insertReversed] edgePattern
    [edgeRow, reverseRow] (by decide +kernel)
  revert hlost
  decide +kernel

end Update

end Nova
