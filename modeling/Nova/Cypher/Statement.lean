import Nova.Cypher.Match
import Nova.Query.Labels

/-!
# Several write clauses

Every clause becomes an operation of its own, which evaluates `MATCH` and `WHERE` again
on the store that the earlier ones left. Meant is that every clause is applied to the
rows of the store as it was before the statement (`AppliesToStartRows`).

`SparesStart` applies the operations to the rows of the start by plain set operations.
If none but the last takes away a triple that a row was matched from, adds one that makes
a new row, or cuts or makes a path, the clauses are applied as meant; for the order in
which the evaluator takes the rows of a clause this is exact
(`appliesToStartRows_of_spares`).
-/

namespace Nova

open Nova.Lib List

namespace Cypher

open Update

/-! ## The pattern in an operation -/

/-- What an operation's pattern takes from `MATCH` and `WHERE`. -/
def matchPart : GraphPattern → GraphPattern
  | .extend (.leftJoin left _ _) _ _ => left
  | .leftJoin left _ _ => left
  | .join left (.bgp _) => left
  | pattern => pattern

theorem matchPart_joined : ∀ (paths : List PathBetween) {left : GraphPattern}, matchPart left = left →
    matchPart (paths.foldl (fun base path => .join base path.pattern) left) =
      paths.foldl (fun base path => .join base path.pattern) left := by
  intro paths
  induction paths with
  | nil => exact fun h => h
  | cons p paths ih => exact fun _ => ih rfl

theorem matchPart_base {stmt : CypherStatement} {base : GraphPattern} {ctx : LowerCtx}
    (h : Matched stmt base ctx) :
    matchPart base = base := by
  obtain ⟨whereExpr, _, rfl⟩ := h.base
  cases whereExpr with
  | none => exact matchPart_joined ctx.paths rfl
  | some e => rfl

/-! ## The rows of an operation -/

/-- The expression has the value on every row, whatever the dataset. -/
def HasValue (scalars : Scalars) (e : Expression) (value : Mapping → Option Term) : Prop :=
  ∀ options fuel ds ag sol, Eval.evalExpr scalars options fuel ds e sol ag = .ok (value sol.get)

/-- The rows, joined with the matches of a triple pattern. -/
def joinedTo (T : Finset Quad) (tp : TriplePattern) (R : Set Mapping) : Set Mapping :=
  {ξ | ∃ μ ∈ R, ∃ ν ∈ {ν | Solves T .default [tp] ν}, Mapping.Compatible μ ν ∧ Mapping.merge μ ν = ξ}

/-- The same, where a row without a match stays as it is. -/
def optionally (T : Finset Quad) (tp : TriplePattern) (R : Set Mapping) : Set Mapping :=
  {ξ | ξ ∈ joinedTo T tp R ∨ ξ ∈ R ∧ ∀ ν ∈ {ν | Solves T .default [tp] ν}, ¬Mapping.Compatible ξ ν}

/-- The rows of an operation's pattern over the quads `T`, where `MATCH` and `WHERE`
have the rows `R`. -/
inductive RowsFrom (scalars : Scalars) (base : GraphPattern) (R : Set Mapping) (T : Finset Quad) :
    GraphPattern → Set Mapping → Prop where
  | plain : RowsFrom scalars base R T base R
  | probe (tp : TriplePattern) : RowsFrom scalars base R T (.join base (.bgp [tp])) (joinedTo T tp R)
  | old (tp : TriplePattern) : RowsFrom scalars base R T (.leftJoin base (.bgp [tp]) none) (optionally T tp R)
  | set (tp : TriplePattern) (v : Variable) {e : Expression} {value : Mapping → Option Term}
      (he : HasValue scalars e value) :
      RowsFrom scalars base R T (.extend (.leftJoin base (.bgp [tp]) none) v e)
        {ξ | ∃ μ ∈ optionally T tp R, Mapping.bind v (value μ) μ = ξ}

/-- The operation starts from the pattern of `MATCH` and `WHERE`, over the whole store. -/
structure StartsFrom (scalars : Scalars) (base : GraphPattern) (op : DeleteInsert) : Prop where
  dataset : op.usingDataset = none
  rows : ∀ R T, ∃ M, RowsFrom scalars base R T op.pattern M

theorem RowsFrom.matchPart {scalars : Scalars} {base P : GraphPattern} {R M : Set Mapping} {T : Finset Quad}
    (h : RowsFrom scalars base R T P M) (hbase : Cypher.matchPart base = base) : Cypher.matchPart P = base := by
  cases h with
  | plain => exact hbase
  | probe tp => rfl
  | old tp => rfl
  | set tp v he => rfl

section Writes

variable {scalars : Scalars} {base : GraphPattern} {ctx ctx' : LowerCtx} {ops : List DeleteInsert}

theorem createTerm_counter (ctx : LowerCtx) (bnodes : CreateBnodes) (name : Option String) :
    ∃ k, (createTerm ctx bnodes name).2.1 = { ctx with anonCounter := k } := by
  unfold createTerm
  rcases name with _ | n
  · exact ⟨_, rfl⟩
  · dsimp only
    rcases ctx.nodeVars.lookup n with _ | v
    · rcases bnodes.lookup n with _ | b <;> exact ⟨_, rfl⟩
    · exact ⟨_, rfl⟩

theorem lowerCreateNode_counter {bnodes bnodes' : CreateBnodes} {node : NodePattern} {term : TermPattern}
    {quads : List Update.QuadPattern} (hr : lowerCreateNode ctx bnodes node = .ok (term, quads, ctx', bnodes')) :
    ∃ k, ctx' = { ctx with anonCounter := k } := by
  obtain ⟨k, hk⟩ := createTerm_counter ctx bnodes node.var
  unfold lowerCreateNode at hr
  obtain ⟨properties, _, hr⟩ := bind_ok hr
  cases hr
  exact ⟨k, hk⟩

/-- A `CREATE` draws names and changes nothing else of the context. -/
theorem lowerCreateHops_counter : ∀ {hops : List (RelPattern × NodePattern)} {ctx : LowerCtx}
    {bnodes : CreateBnodes} {prev : TermPattern} {quads : List Update.QuadPattern},
    lowerCreateHops ctx bnodes prev hops = .ok (quads, ctx') → ∃ k, ctx' = { ctx with anonCounter := k } := by
  intro hops
  induction hops with
  | nil =>
    intro ctx bnodes prev quads hr
    cases hr
    exact ⟨_, rfl⟩
  | cons hop hops ih =>
    intro ctx bnodes prev quads hr
    obtain ⟨⟨next, first, ctx₁, bnodes₁⟩, hnode, hr⟩ := bind_ok hr
    obtain ⟨quad, _, hr⟩ := bind_ok hr
    obtain ⟨⟨rest, ctx₂⟩, hrest, hr⟩ := bind_ok hr
    cases hr
    obtain ⟨k, rfl⟩ := lowerCreateNode_counter hnode
    obtain ⟨k', rfl⟩ := ih hrest
    exact ⟨k', rfl⟩

theorem startsFrom_delete : ∀ {names : List String} {ctx ctx' : LowerCtx} {ops : List DeleteInsert},
    lowerDelete base ctx names = .ok (ops, ctx') →
      (∀ op ∈ ops, StartsFrom scalars base op) ∧ ∃ k, ctx' = { ctx with anonCounter := k } := by
  intro names
  induction names with
  | nil =>
    intro ctx ctx' ops hr
    cases hr
    exact ⟨nofun, _, rfl⟩
  | cons name names ih =>
    intro ctx ctx' ops hr
    unfold lowerDelete at hr
    split at hr
    · obtain ⟨⟨rest, ctx₁⟩, hrest, hr⟩ := bind_ok hr
      cases hr
      obtain ⟨hops, hctx⟩ := ih hrest
      exact ⟨forall_mem_cons.mpr ⟨⟨rfl, fun R T => ⟨_, .plain⟩⟩, hops⟩, hctx⟩
    · cases hr
    · obtain ⟨v, _, hr⟩ := bind_ok hr
      obtain ⟨⟨rest, ctx₁⟩, hrest, hr⟩ := bind_ok hr
      cases hr
      obtain ⟨hops, hctx⟩ := ih hrest
      refine ⟨?_, hctx⟩
      -- the subject side, the object side, and the other names
      exact forall_mem_cons.mpr ⟨⟨rfl, fun R T => ⟨_, .probe _⟩⟩,
        forall_mem_cons.mpr ⟨⟨rfl, fun R T => ⟨_, .probe _⟩⟩, hops⟩⟩

/-- The operations of a clause start from `MATCH` and `WHERE`, and the columns keep
their names. -/
theorem startsFrom_write {write : WriteClause} (hc : ctx.Columns)
    (hr : lowerWrite base ctx write = .ok (ops, ctx')) :
    (∀ op ∈ ops, StartsFrom scalars base op) ∧ ctx'.Columns := by
  cases write with
  | create pattern =>
    obtain ⟨⟨op, ctx₁⟩, hcreate, hr⟩ := bind_ok hr
    cases hr
    obtain ⟨⟨prev, first, ctx₂, bnodes⟩, hnode, hcreate⟩ := bind_ok hcreate
    obtain ⟨⟨rest, ctx₃⟩, hhops, hcreate⟩ := bind_ok hcreate
    cases hcreate
    obtain ⟨k, rfl⟩ := lowerCreateNode_counter hnode
    obtain ⟨k', rfl⟩ := lowerCreateHops_counter hhops
    exact ⟨forall_mem_singleton.mpr ⟨rfl, fun R T => ⟨_, .plain⟩⟩, hc⟩
  | setProperty name property value =>
    obtain ⟨⟨op, ctx₁⟩, hset, hr⟩ := bind_ok hr
    cases hr
    obtain ⟨v, _, hset⟩ := bind_ok hset
    obtain ⟨⟨e, ctx₂⟩, hlower, hset⟩ := bind_ok hset
    cases hset
    have hcolumns : (ctx.freshVar "set_old").2.Columns := hc
    have he : HasValue scalars e (ctx₂.valueOn scalars value) :=
      fun options fuel ds ag sol => lowerExpr_valueOn hcolumns hlower sol
    exact ⟨forall_mem_singleton.mpr ⟨rfl, fun R T => ⟨_, .set _ _ he⟩⟩,
      (lowerExpr_reads value hlower).columns hcolumns⟩
  | setLabel name label =>
    obtain ⟨op, hset, hr⟩ := bind_ok hr
    cases hr
    obtain ⟨v, _, hset⟩ := bind_ok hset
    cases hset
    exact ⟨forall_mem_singleton.mpr ⟨rfl, fun R T => ⟨_, .plain⟩⟩, hc⟩
  | delete names detach =>
    obtain ⟨hall, k, rfl⟩ : (∀ op ∈ ops, StartsFrom scalars base op) ∧ ∃ k, ctx' = { ctx with anonCounter := k } :=
      startsFrom_delete hr
    exact ⟨hall, hc⟩
  | removeProperty name property =>
    obtain ⟨⟨op, ctx₁⟩, hremove, hr⟩ := bind_ok hr
    cases hr
    obtain ⟨v, _, hremove⟩ := bind_ok hremove
    cases hremove
    exact ⟨forall_mem_singleton.mpr ⟨rfl, fun R T => ⟨_, .old _⟩⟩, hc⟩
  | removeLabel name label =>
    obtain ⟨op, hremove, hr⟩ := bind_ok hr
    cases hr
    obtain ⟨v, _, hremove⟩ := bind_ok hremove
    cases hremove
    exact ⟨forall_mem_singleton.mpr ⟨rfl, fun R T => ⟨_, .plain⟩⟩, hc⟩

theorem startsFrom_writes : ∀ {writes : List WriteClause} {ctx : LowerCtx} {ops : List DeleteInsert}, ctx.Columns →
    lowerWrites base ctx writes = .ok ops → ∀ op ∈ ops, StartsFrom scalars base op := by
  intro writes
  induction writes with
  | nil =>
    intro ctx ops _ hr op hop
    cases hr
    exact absurd hop not_mem_nil
  | cons write writes ih =>
    intro ctx ops hc hr op hop
    obtain ⟨⟨first, ctx₁⟩, hfirst, hr⟩ := bind_ok hr
    obtain ⟨rest, hrest, hr⟩ := bind_ok hr
    cases hr
    obtain ⟨hstarts, hc₁⟩ : (∀ op ∈ first, StartsFrom scalars base op) ∧ ctx₁.Columns := startsFrom_write hc hfirst
    rcases mem_append.mp hop with hop | hop
    · exact hstarts op hop
    · exact ih hc₁ hrest op hop

theorem lowerStatement_ok {validName : String → Bool} {stmt : CypherStatement}
    (hm : lowerMatch validName stmt = .ok (base, ctx)) :
    lowerStatement validName stmt = .ok ops ↔ lowerWrites base ctx stmt.writes = .ok ops := by
  unfold lowerStatement
  rw [hm, ok_bind]

end Writes

section Rows

variable {St : Type} {E : Engine St} {Holds : St → Finset Quad → Prop} {Linked : PathReading}
  {paths : List PathBetween} {s : St} {T : Finset Quad} {base P : GraphPattern} {R M : Set Mapping}

theorem RowsFrom.yields (h : RowsFrom E.scalars base R T P M) (hE : Answers E Holds Linked paths) (hT : Holds s T)
    (hbase : Yields (E.evalPattern s base) R) : Yields (E.evalPattern s P) M := by
  have hmatch : ∀ tp : TriplePattern, Yields (E.evalPattern s (.bgp [tp])) {ν | Solves T .default [tp] ν} :=
    fun tp => hE.bgp hT [tp] (noMisread_single tp T .default)
  cases h with
  | plain => exact hbase
  | probe tp => exact hbase.join (hmatch tp)
  | old tp => exact hbase.leftJoin (hmatch tp)
  | set tp v he => exact (hbase.leftJoin (hmatch tp)).extend v fun sol => he _ _ _ _ sol

end Rows

/-! ## What leaves the rows alone -/

section Spares

variable (Linked : PathReading) (scalars : Scalars) (whereExpr : Option Expr)

/-- The change of the quads touches no row: no triple goes that a row of `R` was matched
from, none comes that a new row needs, and no path between the ends of a row is cut or
made. -/
structure Spares (ctx : LowerCtx) (R : Set Mapping) (T T' : Finset Quad) : Prop where
  kept : ∀ q ∈ selected T .default, q ∉ T' → ∀ μ ∈ R, ∀ tp ∈ ctx.triples, ¬tp.Matches μ q
  added : ∀ q ∈ selected T' .default, q ∉ T → ∀ μ, ctx.Row Linked scalars whereExpr T' μ →
    ∀ tp ∈ ctx.triples, ¬tp.Matches μ q
  keptPaths : ∀ μ ∈ R, ∀ p ∈ ctx.paths, p.Joins Linked T' μ
  addedPaths : ∀ μ, ctx.Row Linked scalars whereExpr T' μ → ∀ p ∈ ctx.paths, p.Joins Linked T μ

/-- The operations are applied to the rows `R`, one after another, by plain set
operations; each but the last leaves the rows alone. `Listed` says in which orders the
rows of the `n`-th operation can come. -/
def SparesStart (ctx : LowerCtx) (base : GraphPattern) (R : Set Mapping) (supply : Nat → Nat → BlankNode)
    (Listed : Nat → List Solution → Prop) : Nat → Finset Quad → List DeleteInsert → Prop
  | _, _, [] => True
  | n, T, op :: ops => ops = [] ∨ ∀ sols, Listed n sols → RowsFrom scalars base R T op.pattern (mappings sols) →
      Spares Linked scalars whereExpr ctx R T (written T (supply n) op sols) ∧
        SparesStart ctx base R supply Listed (n + 1) (written T (supply n) op sols) ops

variable {Linked scalars whereExpr} {ctx : LowerCtx} {R : Set Mapping} {S S' : Finset Quad}

theorem SparesStart.mono {base : GraphPattern} {supply : Nat → Nat → BlankNode}
    {Few Many : Nat → List Solution → Prop}
    (hsub : ∀ n sols, Few n sols → Many n sols) : ∀ {ops : List DeleteInsert} {n : Nat} {T : Finset Quad},
      SparesStart Linked scalars whereExpr ctx base R supply Many n T ops →
        SparesStart Linked scalars whereExpr ctx base R supply Few n T ops := by
  intro ops
  induction ops with
  | nil => exact fun h => h
  | cons op ops ih =>
    intro n T h
    refine h.imp_right fun hall sols hlisted hrows => ?_
    obtain ⟨hspares, hrest⟩ := hall sols (hsub n sols hlisted) hrows
    exact ⟨hspares, ih hrest⟩

theorem row_of_spared (hkept : ∀ q ∈ selected S .default, q ∉ S' → ∀ μ, ctx.Row Linked scalars whereExpr S μ →
      ∀ tp ∈ ctx.triples, ¬tp.Matches μ q)
    (hpaths : ∀ μ, ctx.Row Linked scalars whereExpr S μ → ∀ p ∈ ctx.paths, p.Joins Linked S' μ) {μ : Mapping}
    (h : ctx.Row Linked scalars whereExpr S μ) : ctx.Row Linked scalars whereExpr S' μ := by
  refine ⟨h.domain, ⟨fun tp htp => ?_, hpaths μ h⟩, h.passes⟩
  obtain ⟨q, hq, hm⟩ := h.fitted.triples tp htp
  obtain ⟨_, hgraph⟩ := Finset.mem_filter.mp hq
  by_cases hq' : q ∈ S'
  · exact ⟨q, Finset.mem_filter.mpr ⟨hq', hgraph⟩, hm⟩
  · exact absurd hm (hkept q hq hq' μ h tp htp)

theorem spared_of_rows (hrows : ∀ μ, ctx.Row Linked scalars whereExpr S μ →
    ctx.Row Linked scalars whereExpr S' μ) :
    ∀ q ∈ selected S .default, q ∉ S' → ∀ μ, ctx.Row Linked scalars whereExpr S μ →
      ∀ tp ∈ ctx.triples, ¬tp.Matches μ q := by
  intro q hq hq' μ h tp htp hm
  obtain ⟨q₁, hq₁, hm₁⟩ := (hrows μ h).fitted.triples tp htp
  obtain ⟨hmem, hgraph₁⟩ := Finset.mem_filter.mp hq₁
  obtain ⟨_, hgraph⟩ := Finset.mem_filter.mp hq
  simp only [graphMatches, decide_eq_true_eq] at hgraph hgraph₁
  -- the default graph has one triple for the instance
  have heq := hm.eq_of_graph hm₁ (hgraph.trans hgraph₁.symm)
  rw [heq] at hq'
  exact hq' hmem

theorem rows_eq_iff_spares (hR : ∀ μ, μ ∈ R ↔ ctx.Row Linked scalars whereExpr S μ) :
    (∀ μ, μ ∈ R ↔ ctx.Row Linked scalars whereExpr S' μ) ↔ Spares Linked scalars whereExpr ctx R S S' := by
  constructor
  · intro h
    refine ⟨?_, ?_, fun μ hμ => ((h μ).mp hμ).fitted.paths, fun μ hμ => ((hR μ).mp ((h μ).mpr hμ)).fitted.paths⟩
    · intro q hq hq' μ hμ
      exact spared_of_rows (fun μ hrow => (h μ).mp ((hR μ).mpr hrow)) q hq hq' μ ((hR μ).mp hμ)
    · exact spared_of_rows fun μ hrow => (hR μ).mp ((h μ).mpr hrow)
  · intro h μ
    rw [hR μ]
    constructor
    · exact row_of_spared (fun q hq hq' μ hrow => h.kept q hq hq' μ ((hR μ).mpr hrow))
        fun μ hrow => h.keptPaths μ ((hR μ).mpr hrow)
    · exact row_of_spared h.added h.addedPaths

end Spares

/-! ## The run -/

section Run

variable {St : Type} (E : Engine St) {Holds : St → Finset Quad → Prop} {Linked : PathReading}

/-- Every operation meets, in the store that it finds, the rows that the pattern had
before the statement. -/
def AppliesToStartRows (base : GraphPattern) (ops : List DeleteInsert) (s : St) : Prop :=
  ∀ k op sk, ops[k]? = some op → E.executeUpdate (ops.take k) s = (.ok (), sk) →
    ∃ M, Yields (E.evalPattern s base) M ∧ Yields (E.evalPattern sk (matchPart op.pattern)) M

/-- The order in which the `n`-th operation of an update takes its rows. -/
def TakesRows (ops : List DeleteInsert) (s : St) (n : Nat) (sols : List Solution) : Prop :=
  ∃ op sn s', ops[n]? = some op ∧ E.executeUpdate (ops.take n) s = (.ok (), sn) ∧
    E.executeOperation n sn op = (.ok (), s') ∧ E.whereSolutions sn op.usingDataset op.pattern = .ok sols

variable {E} {stmt : CypherStatement} {base : GraphPattern} {ctx : LowerCtx} {ops : List DeleteInsert} {s : St}
  {S : Finset Quad}

section Steps

variable (hmatched : Matched stmt base ctx) (hstarts : ∀ op ∈ ops, StartsFrom E.scalars base op)
  (hapart : RelsApart stmt) (hE : Answers E Holds Linked ctx.paths) (hS : Holds s S)
include hmatched hstarts hapart hE hS

/-- While the rows are spared, the run is the application to the rows of the start. -/
theorem rows_kept (hspare : SparesStart Linked E.scalars stmt.whereExpr ctx base
      {μ | ctx.Row Linked E.scalars stmt.whereExpr S μ} E.supply (TakesRows E ops s) 0 S ops) :
    ∀ {k : Nat} {sk : St}, k < ops.length → E.executeUpdate (ops.take k) s = (.ok (), sk) → ∃ Sk, Holds sk Sk ∧
      (∀ μ, ctx.Row Linked E.scalars stmt.whereExpr S μ ↔ ctx.Row Linked E.scalars stmt.whereExpr Sk μ) ∧
      SparesStart Linked E.scalars stmt.whereExpr ctx base {μ | ctx.Row Linked E.scalars stmt.whereExpr S μ} E.supply
        (TakesRows E ops s) k Sk (ops.drop k) := by
  intro k
  induction k with
  | zero =>
    intro sk _ hrun
    cases hrun
    exact ⟨S, hS, fun μ => Iff.rfl, hspare⟩
  | succ k ih =>
    intro sk hk hrun
    have hop : ops[k]? = some ops[k] := getElem?_eq_getElem (by omega)
    obtain ⟨s₁, hrun₁, hstep⟩ := (Engine.executeUpdate_take hop).mp hrun
    obtain ⟨S₁, hS₁, hrows, hspare₁⟩ := ih (by omega) hrun₁
    obtain ⟨sols, hsols, hafter⟩ := hE.ran hS₁ hstep
    have hlisted : TakesRows E ops s k sols := ⟨_, s₁, sk, hop, hrun₁, hstep, hsols⟩
    obtain ⟨hdataset, hform⟩ := hstarts _ (mem_of_getElem? hop)
    obtain ⟨M, hM⟩ := hform {μ | ctx.Row Linked E.scalars stmt.whereExpr S μ} S₁
    -- the pattern of the clause has the rows of the start
    have hbase := (hmatched.rows hE hapart hS₁).congr fun μ => (hrows μ).symm
    rw [hdataset] at hsols
    have hmappings : mappings sols = M := hE.whereRows (hM.yields hE hS₁ hbase) hsols
    rw [List.drop_eq_getElem_cons (by omega)] at hspare₁
    rcases hspare₁ with hlast | hall
    · rw [drop_eq_nil_iff] at hlast
      omega
    · obtain ⟨hspares, hrest⟩ := hall sols hlisted (hmappings.symm ▸ hM)
      exact ⟨_, hafter, (rows_eq_iff_spares hrows).mpr hspares, hrest⟩

/-- Where the rows stay, every operation spares them. -/
theorem spares_of_applies (h : AppliesToStartRows E base ops s) : ∀ {rest : List DeleteInsert} {k : Nat} {sk : St}
    {Sk : Finset Quad}, ops.drop k = rest → E.executeUpdate (ops.take k) s = (.ok (), sk) → Holds sk Sk →
      SparesStart Linked E.scalars stmt.whereExpr ctx base {μ | ctx.Row Linked E.scalars stmt.whereExpr S μ} E.supply
        (TakesRows E ops s) k Sk rest := by
  have hstart := hmatched.rows hE hapart hS
  have hbase := matchPart_base hmatched
  have hat : ∀ {j : Nat} {op : DeleteInsert} {sj : St} {Sj : Finset Quad}, ops[j]? = some op →
      E.executeUpdate (ops.take j) s = (.ok (), sj) → Holds sj Sj → ∀ μ,
        ctx.Row Linked E.scalars stmt.whereExpr S μ ↔ ctx.Row Linked E.scalars stmt.whereExpr Sj μ := by
    intro j op sj Sj hop hrun hSj μ
    obtain ⟨M, hM, hM'⟩ := h j op sj hop hrun
    obtain ⟨_, hform⟩ := (hstarts op (mem_of_getElem? hop)).rows ∅ ∅
    rw [hform.matchPart hbase] at hM'
    have hrows : {μ | ctx.Row Linked E.scalars stmt.whereExpr S μ} =
        {μ | ctx.Row Linked E.scalars stmt.whereExpr Sj μ} := by
      rw [hstart.unique hM, (hmatched.rows hE hapart hSj).unique hM']
    exact Set.ext_iff.mp hrows μ
  intro rest
  induction rest with
  | nil => exact fun _ _ _ => trivial
  | cons op rest ih =>
    intro k sk Sk hdrop hrun hSk
    have hk : ops[k]? = some op := by
      rw [← List.head?_drop, hdrop]
      rfl
    have hdrop₁ : ops.drop (k + 1) = rest := by
      rw [← List.tail_drop, hdrop]
      rfl
    rcases rest with _ | ⟨op₁, rest⟩
    · exact .inl rfl
    have hnext : ops[k + 1]? = some op₁ := by
      rw [← List.head?_drop, hdrop₁]
      rfl
    refine .inr fun sols hlisted _ => ?_
    obtain ⟨op', sn, s', hop', hrun', hstep, hsols⟩ := hlisted
    rw [hk] at hop'
    cases hop'
    rw [hrun] at hrun'
    cases hrun'
    obtain ⟨sols', hsols', hafter⟩ := hE.ran hSk hstep
    rw [hsols] at hsols'
    cases hsols'
    have hrun₁ : E.executeUpdate (ops.take (k + 1)) s = (.ok (), s') :=
      (Engine.executeUpdate_take hk).mpr ⟨sk, hrun, hstep⟩
    exact ⟨(rows_eq_iff_spares (hat hk hrun hSk)).mp (hat hnext hrun₁ hafter), ih hdrop₁ hrun₁ hafter⟩

end Steps

end Run

/-! ## One person -/

def annStore : MemoryStore where
  quads := [⟨.namedNode ⟨"http://ex/ann"⟩, rdfType, .namedNode (labelIri "Person"), .defaultGraph⟩]
  namedGraphIris := []
  nodup := by decide +kernel

def sampleEngine : Engine MemoryStore := memoryEngine Eval.iriScalars (fun _ => 0) fun n k => ⟨toString n ++ "b" ++ toString k⟩

/-- `MATCH (n:Person)` with write clauses. -/
def onPersons (writes : List WriteClause) : CypherStatement := ⟨some ⟨⟨some "n", ["Person"], []⟩, []⟩, none, writes⟩

def personContext : LowerCtx := ⟨[("n", ⟨"n"⟩)], [], [], [], [labelTriple ⟨"n"⟩ "Person"], [], 0⟩

def personRow : Solution := ⟨[⟨"n"⟩], [some (.namedNode ⟨"http://ex/ann"⟩)], rfl⟩

def addLabel (label : String) : DeleteInsert :=
  ⟨[], [insertQuad (.var ⟨"n"⟩) (.namedNode rdfType) (.namedNode (labelIri label))], none, personContext.joined⟩

def dropLabel (label : String) : DeleteInsert :=
  ⟨[deleteQuad (.var ⟨"n"⟩) (.namedNode rdfType) (.namedNode (labelIri label))], [], none, personContext.joined⟩

theorem relsApart_onPersons (writes : List WriteClause) : RelsApart (onPersons writes) where
  nodes := nofun
  columns := nofun
  generatedRels := nofun
  generatedNodes := by
    intro name h
    rw [mem_singleton.mp h]
    exact not_generated (by decide)
  generatedColumns := nofun

/-- Ann was something else before. -/
def formerStore : MemoryStore where
  quads := annStore.quads ++ [⟨.namedNode ⟨"http://ex/ann"⟩, rdfType, .namedNode (labelIri "Former"), .defaultGraph⟩]
  namedGraphIris := []
  nodup := by decide +kernel

/-- `REMOVE n:Former SET n:Old`: neither label is in the pattern. -/
theorem sparesStart_ann (R : Set Mapping) (supply : Nat → Nat → BlankNode) :
    SparesStart linkedAway sampleEngine.scalars none personContext personContext.joined R supply (fun _ _ => True) 0
      formerStore.quads.toFinset [dropLabel "Former", addLabel "Old"] := by
  refine .inr fun sols _ _ => ⟨⟨?_, ?_, nofun, nofun⟩, .inl rfl⟩
  · intro q hq hgone μ _ tp htp hm
    have hmem := (Finset.mem_filter.mp hq).1
    rw [mem_singleton.mp htp] at hm
    have hobject : q.object = .namedNode (labelIri "Person") := hm.2.2
    refine hgone ((mem_written_delete rfl).mpr ⟨hmem, fun sol _ gqp hgqp hinst => ?_⟩)
    rw [mem_singleton.mp hgqp] at hinst
    have hformer : q.object = .namedNode (labelIri "Former") := by
      obtain ⟨t, _, hinst⟩ := Option.bind_eq_some_iff.mp hinst
      obtain ⟨subject, _, hinst⟩ := Option.bind_eq_some_iff.mp hinst
      cases hinst
      rfl
    rw [hformer] at hobject
    revert hobject
    decide
  · intro q hq hnew
    exact absurd ((mem_written_delete rfl).mp (Finset.mem_filter.mp hq).1).1 hnew

end Cypher

end Nova
