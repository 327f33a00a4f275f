import Nova.Query.Rows
import Nova.Query.Meaning
import Nova.Query.PathMeaning
import Nova.Query.Eval

/-!
# What an update relies on

Batches are applied, BGPs that do not misread a predicate are answered by their
solutions over the default graph, paths by a relation that grows with the graph, and
the optimiser keeps the rows (`Answers`). How an engine reads a path is left to it.
`Answers.ran` says what an operation does then, and `memory_answers_plain` is the
contract for the in-memory store, where no path is asked for.
-/

namespace Nova

open Nova.Lib List

/-! ## The contract of an engine -/

/-- A path pattern between two variables. -/
structure PathBetween where
  subject : Variable
  path : PropertyPathExpression
  object : Variable
deriving DecidableEq, Repr

/-- How the ends of a path over a set of quads are read. -/
abbrev PathReading := Finset Quad → PropertyPathExpression → Term → Term → Prop

namespace PathBetween

def pattern (p : PathBetween) : GraphPattern := .path (.var p.subject) p.path (.var p.object)

/-- The mapping leads from a term to a term that the path joins. -/
def Joins (Linked : PathReading) (S : Finset Quad) (p : PathBetween) (μ : Mapping) : Prop :=
  ∃ a b, μ p.subject = some a ∧ μ p.object = some b ∧ Linked S p.path a b

end PathBetween

/-- What an update relies on, of a store that holds one set of quads and of the engine
over it; the paths are those of the update. -/
structure Answers {St : Type} (E : Update.Engine St) (Holds : St → Finset Quad → Prop) (Linked : PathReading)
    (paths : List PathBetween) : Prop where
  batches : Update.AppliesBatches Holds E.applyBatch
  unique : ∀ {s S S'}, Holds s S → Holds s S' → S = S'
  bgp : ∀ {s S}, Holds s S → ∀ patterns, NoMisread S .default patterns →
    Yields (E.evalPattern s (.bgp patterns)) {μ | Solves S .default patterns μ}
  path : ∀ {s S}, Holds s S → ∀ p ∈ paths,
    Yields (E.evalPattern s p.pattern) {μ | HasDomain μ [p.subject, p.object] ∧ p.Joins Linked S μ}
  grows : ∀ {S S' : Finset Quad} {e : PropertyPathExpression} {a b : Term}, S ⊆ S' →
    Linked S e a b → Linked S' e a b
  optimize : ∀ {s P M}, Yields (E.evalPattern s P) M →
    Yields (E.evalPattern s (Eval.optimizePattern E.optimize P)) M

/-! ## One operation -/

section Operation

open Update

variable {St : Type} {E : Engine St} {Holds : St → Finset Quad → Prop} {Linked : PathReading}
  {paths : List PathBetween} {s s' : St} {S : Finset Quad} {M : Set Mapping}

theorem Answers.whereRows (hE : Answers E Holds Linked paths) {P : GraphPattern}
    (hP : Yields (E.evalPattern s P) M)
    {sols : List Solution} (hsols : E.whereSolutions s none P = .ok sols) : mappings sols = M := by
  obtain ⟨sols', hr, _, hM⟩ := hE.optimize hP
  rw [Engine.whereSolutions_eq_ok.mp hsols] at hr
  cases hr
  exact hM

/-- What the writes of the rows leave of a set of quads. -/
def written (S : Finset Quad) (supply : Nat → BlankNode) (op : DeleteInsert)
    (sols : List Solution) : Finset Quad :=
  (batchOps (templateRows supply op.delete op.insert sols 0)).foldl Spec.applyPlain S

/-- An operation that succeeds has made the writes of the rows of its pattern. -/
theorem Answers.ran (hE : Answers E Holds Linked paths) (hS : Holds s S) {n : Nat} {op : DeleteInsert}
    (hrun : E.executeOperation n s op = (.ok (), s')) :
    ∃ sols, E.whereSolutions s op.usingDataset op.pattern = .ok sols ∧
      Holds s' (written S (E.supply n) op sols) := by
  obtain ⟨sols, hsols, hbatch⟩ := Engine.executeOperation_ok hrun
  exact ⟨sols, hsols, hE.batches s S _ s' hS hbatch⟩

/-- Without an insert template, the rows take away the instances of the delete
template. -/
theorem mem_written_delete {supply : Nat → BlankNode} {op : DeleteInsert} (hop : op.insert = [])
    {sols : List Solution}
    {q : Quad} : q ∈ written S supply op sols ↔
      q ∈ S ∧ ∀ sol ∈ sols, ∀ gqp ∈ op.delete, instantiateGroundQuadPattern sol gqp ≠ some q := by
  have hrows : ∀ (sols : List Solution) (next : Nat), ∀ row, row ∈ templateRows supply op.delete [] sols next ↔
      ∃ sol ∈ sols, row = ⟨op.delete.filterMap (instantiateGroundQuadPattern sol), []⟩ := by
    intro sols
    induction sols with
    | nil =>
      intro next row
      simp [templateRows]
    | cons sol sols ih =>
      intro next row
      simp only [templateRows, rowInserts, mem_cons, ih, exists_eq_or_imp]
  rw [written, mem_batch, hop]
  constructor
  · rintro (⟨hq, hnot⟩ | ⟨front, row, back, heq, hins, _⟩)
    · refine ⟨hq, fun sol hsol gqp hgqp hinst => ?_⟩
      exact hnot _ ((hrows sols 0 _).mpr ⟨sol, hsol, rfl⟩) (mem_filterMap.mpr ⟨gqp, hgqp, hinst⟩)
    · -- no row inserts anything
      obtain ⟨sol, _, rfl⟩ := (hrows sols 0 row).mp (by rw [heq]; simp)
      exact absurd hins not_mem_nil
  · rintro ⟨hq, hnot⟩
    refine .inl ⟨hq, fun row hrow hdel => ?_⟩
    obtain ⟨sol, hsol, rfl⟩ := (hrows sols 0 row).mp hrow
    obtain ⟨gqp, hgqp, hinst⟩ := mem_filterMap.mp hdel
    exact hnot sol hsol gqp hgqp hinst

end Operation

/-! ## The in-memory store -/

/-- The in-memory store with its generic evaluator, without an optimiser. -/
def memoryEngine (scalars : Scalars) (fuel : MemoryStore → Nat) (supply : Nat → Nat → BlankNode) :
    Update.Engine MemoryStore where
  dataset m := storeDataset m.quadStore
  applyBatch := Update.memoryApplyBatch
  scalars := scalars
  optimize := id
  fuel := fuel
  supply := supply

def MemoryStore.Holds (m : MemoryStore) (S : Finset Quad) : Prop := m.quads.toFinset = S

/-- The generic evaluator's reading of a path: no `+` leads back to its start. -/
def linkedAway : PathReading := fun S e a b => DenotesAway (Path.edgesOf (selected S .default)) e a b

theorem mappings_of_returnsOnce {sols : List Solution} {P : Mapping → Prop} (h : ReturnsOnce sols P) :
    mappings sols = {μ | P μ} := by
  classical
  ext μ
  have hcount := h μ
  have hmem : μ ∈ mappings sols ↔ 0 < copies sols μ := by
    rw [copies, count_pos_iff]
    exact mem_map.symm
  rw [hmem, hcount]
  by_cases hP : P μ <;> simp [hP]

theorem denotesAway_mono {F G : Edges} (h : ∀ a p b, F a p b → G a p b) (e : PropertyPathExpression) :
    ∀ {a b : Term}, DenotesAway F e a b → DenotesAway G e a b := by
  have hnode : ∀ {x}, IsNode F x → IsNode G x := by
    rintro x ⟨p, y, hxy⟩
    exact ⟨p, y, hxy.imp (h x p y) (h y p x)⟩
  induction e with
  | namedNode p => exact fun hab => h _ _ _ hab
  | reverse e ih => exact fun hab => ih hab
  | sequence l r ihl ihr => exact fun ⟨m, hl, hr⟩ => ⟨m, ihl hl, ihr hr⟩
  | alternative l r ihl ihr => exact fun hab => hab.imp ihl ihr
  | zeroOrMore e ih => exact fun ⟨ha, hab⟩ => ⟨hnode ha, Relation.ReflTransGen.mono (fun _ _ => ih) _ _ hab⟩
  | oneOrMore e ih => exact fun ⟨hne, hab⟩ => ⟨hne, Relation.TransGen.mono (fun _ _ => ih) _ _ hab⟩
  | zeroOrOne e ih => exact fun hab => hab.imp ih fun ⟨heq, ha⟩ => ⟨heq, hnode ha⟩
  | negatedPropertySet ps => exact fun ⟨p, hp, hab⟩ => ⟨p, hp, h _ _ _ hab⟩

theorem linkedAway_grows {S S' : Finset Quad} {e : PropertyPathExpression} {a b : Term} (h : S ⊆ S')
    (hab : linkedAway S e a b) : linkedAway S' e a b := by
  refine denotesAway_mono ?_ e hab
  rintro s p o ⟨q, hq, hs, hp, ho⟩
  obtain ⟨hS, hg⟩ := Finset.mem_filter.mp hq
  exact ⟨q, Finset.mem_filter.mpr ⟨h hS, hg⟩, hs, hp, ho⟩

section Memory

variable (scalars : Scalars) (fuel : MemoryStore → Nat) (supply : Nat → Nat → BlankNode)

theorem memory_bgp {m : MemoryStore} {S : Finset Quad} (hS : m.Holds S) (patterns : List TriplePattern)
    (hread : NoMisread S .default patterns) :
    Yields ((memoryEngine scalars fuel supply).evalPattern m (.bgp patterns))
      {μ | Solves S .default patterns μ} := by
  subst hS
  obtain ⟨sols, hr, hiff⟩ := nested_single_iff m.serves patterns (.inl rfl) fun _ _ _ _ _ => trivial
  refine ⟨sols, ?_, ?_, mappings_of_returnsOnce (hiff.mpr hread)⟩
  · unfold Update.Engine.evalPattern
    show QueryError.ofEval (evalBgpNested (storeDataset m.quadStore) .new patterns .default) = _
    rw [hr]
    rfl
  · refine proper_evalPatterns (fun sol hsol => ?_) hr
    rw [mem_singleton.mp hsol]
    exact Solution.proper_new

theorem memory_optimize (P : GraphPattern) :
    Eval.optimizePattern (memoryEngine scalars fuel supply).optimize P = P := by
  unfold Eval.optimizePattern
  split <;> rfl

/-- An update without paths runs on the in-memory store as expected, whatever the
fuel. -/
theorem memory_answers_plain :
    Answers (memoryEngine scalars fuel supply) MemoryStore.Holds linkedAway [] where
  batches := Update.memory_appliesBatches
  unique := fun h h' => h.symm.trans h'
  bgp := fun hS => memory_bgp scalars fuel supply hS
  path := nofun
  grows := linkedAway_grows
  optimize := fun {s P M} h => by rwa [memory_optimize scalars fuel supply P]

end Memory

end Nova
