import Nova.Cypher.Delete

/-!
# SET of a property

One operation: the row of `MATCH` and `WHERE`, with an old value of the property if
there is one, gets the value of the expression; the old value is deleted and the new
one inserted. Meant is that the property of a matched node then has the values that the
expression takes on the matches of the node (`SetsProperty`). A property that only the
expression reads is in no triple of the pattern, so it has no value when the expression
is evaluated; the old value is deleted all the same. `setsProperty_iff` says when every
value arrives.
-/

namespace Nova

open Nova.Lib List Mapping

/-- The node has the property in the default graph. -/
def HasProperty (S : Finset Quad) (x : Term) (key : NamedNode) (t : Term) : Prop :=
  ∃ q ∈ selected S .default, q.subject.toTerm = x ∧ q.predicate = key ∧ q.object = t

variable {q : Quad}

theorem mem_selected_default {S : Finset Quad} :
    q ∈ selected S .default ↔ q ∈ S ∧ q.graphName = .defaultGraph := by
  rw [selected, Finset.mem_filter]
  simp [graphMatches]

namespace Cypher

open Update

/-! ## The rows of the template -/

/-- The quad that a template makes of a solution. -/
def propertyQuad (v : Variable) (key : NamedNode) (value : Variable) (sol : Solution) : Option Quad :=
  (sol.get v).bind toSubject |>.bind fun subject =>
    (sol.get value).map fun object => ⟨subject, key, object, .defaultGraph⟩

variable {v : Variable} {key : NamedNode} {sol : Solution}

theorem propertyQuad_eq_some {value : Variable} :
    propertyQuad v key value sol = some q ↔ sol.get v = some q.subject.toTerm ∧ sol.get value = some q.object ∧
      q.predicate = key ∧ q.graphName = .defaultGraph := by
  obtain ⟨subject, predicate, object, graphName⟩ := q
  simp only [propertyQuad, Option.bind_eq_some_iff, Option.map_eq_some_iff]
  constructor
  · rintro ⟨s, ⟨t, ht, hs⟩, o, ho, heq⟩
    cases heq
    rw [ht, toSubject_eq_some.mp hs]
    exact ⟨rfl, ho, rfl, rfl⟩
  · rintro ⟨hs, ho, rfl, rfl⟩
    exact ⟨subject, ⟨_, hs, toSubject_eq_some.mpr rfl⟩, object, ho, rfl⟩

/-- The operation of `SET`. -/
def setOp (base : GraphPattern) (v : Variable) (property : String) (old new : Variable) (value : Expression) :
    DeleteInsert :=
  ⟨[deleteQuad (.var v) (.namedNode (propIri property)) (.var old)],
    [insertQuad (.var v) (.namedNode (propIri property)) (.var new)], none,
    .extend (withOld base v property old) new value⟩

/-- A row deletes its old value and inserts the new one. -/
def setRow (v : Variable) (key : NamedNode) (old new : Variable) (sol : Solution) : Update.Row :=
  ⟨(propertyQuad v key old sol).toList, (propertyQuad v key new sol).toList⟩

theorem instantiate_delete_property (v old : Variable) (key : NamedNode) (sol : Solution) :
    instantiateGroundQuadPattern sol (deleteQuad (.var v) (.namedNode key)
      (.var old)) = propertyQuad v key old sol := by
  unfold instantiateGroundQuadPattern propertyQuad deleteQuad
  simp only [groundTermPatternToTerm, nnPatternToNamedNode, graphNamePatternToGraph]
  cases (sol.get v).bind toSubject with
  | none => rfl
  | some s => cases sol.get old <;> rfl

theorem instantiate_insert_property (supply : Nat → BlankNode) (v new : Variable) (key : NamedNode)
    (sol : Solution)
    (f : Fresh) : instantiateQuadPattern supply sol (insertQuad (.var v) (.namedNode key) (.var new)) f =
      (propertyQuad v key new sol, f) := by
  unfold instantiateQuadPattern propertyQuad insertQuad
  simp only [termPatternToTerm, nnPatternToNamedNode, graphNamePatternToGraph]
  cases (sol.get v).bind toSubject with
  | none => rfl
  | some s => cases sol.get new <;> rfl

theorem templateRows_set (supply : Nat → BlankNode) (base : GraphPattern) (v : Variable) (property : String)
    (old new : Variable) (value : Expression) : ∀ (sols : List Solution) (next : Nat),
      templateRows supply (setOp base v property old new value).delete (setOp base v property old new value).insert
        sols next = sols.map (setRow v (propIri property) old new) := by
  intro sols
  induction sols with
  | nil => exact fun _ => rfl
  | cons sol sols ih =>
    intro next
    have hdelete : [deleteQuad (.var v) (.namedNode (propIri property)) (.var old)].filterMap
        (instantiateGroundQuadPattern sol) = (propertyQuad v (propIri property) old sol).toList := by
      rw [filterMap_cons, filterMap_nil, instantiate_delete_property]
      cases propertyQuad v (propIri property) old sol <;> rfl
    have hinsert : rowInserts supply sol [insertQuad (.var v) (.namedNode (propIri property))
      (.var new)] ⟨[], next⟩ =
        ((propertyQuad v (propIri property) new sol).toList, ⟨[], next⟩) := by
      simp only [rowInserts, instantiate_insert_property, append_nil]
    simp only [setOp] at ih ⊢
    rw [templateRows, hinsert, hdelete, map_cons]
    simp only [ih]
    rfl

/-- The row gives the node the value. -/
def Gives (v value : Variable) (x t : Term) (sol : Solution) : Prop := sol.get v = some x ∧ sol.get value = some t

/-- Some row gives the node the new value, and no later one has it as an old value. -/
def GivesLast (v old new : Variable) (x t : Term) (sols : List Solution) : Prop :=
  ∃ front sol back, sols = front ++ sol :: back ∧ Gives v new x t sol ∧ ∀ later ∈ back, ¬Gives v old x t later

variable {old new : Variable}

theorem mem_setRow_deletes :
    q ∈ (setRow v key old new sol).deletes ↔ Gives v old q.subject.toTerm q.object sol ∧ q.predicate = key ∧
      q.graphName = .defaultGraph := by
  rw [setRow, Option.mem_toList, propertyQuad_eq_some, Gives, and_assoc]

theorem mem_setRow_inserts :
    q ∈ (setRow v key old new sol).inserts ↔ Gives v new q.subject.toTerm q.object sol ∧ q.predicate = key ∧
      q.graphName = .defaultGraph := by
  rw [setRow, Option.mem_toList, propertyQuad_eq_some, Gives, and_assoc]

variable {x t : Term}

/-- The quads that stay inserted are the last values given. -/
theorem insertedLast_setRow {sols : List Solution} (hkey : q.predicate = key) (hgraph : q.graphName = .defaultGraph) :
    InsertedLast q (sols.map (setRow v key old new)) ↔
      GivesLast v old new q.subject.toTerm q.object sols := by
  constructor
  · rintro ⟨front, row, back, heq, hins, hback⟩
    obtain ⟨front', rest, rfl, rfl, hrest⟩ := map_eq_append_iff.mp heq
    obtain ⟨sol, back', rfl, rfl, rfl⟩ := map_eq_cons_iff.mp hrest
    refine ⟨front', sol, back', rfl, (mem_setRow_inserts.mp hins).1, fun later hl hgives => ?_⟩
    exact hback _ (mem_map_of_mem hl) (mem_setRow_deletes.mpr ⟨hgives, hkey, hgraph⟩)
  · rintro ⟨front, sol, back, rfl, hgives, hback⟩
    refine ⟨_, _, _, by rw [map_append, map_cons], mem_setRow_inserts.mpr ⟨hgives, hkey, hgraph⟩, ?_⟩
    intro row hrow hdel
    obtain ⟨later, hl, rfl⟩ := mem_map.mp hrow
    exact hback later hl (mem_setRow_deletes.mp hdel).1

/-- What the rows of a `SET` leave of the values of a node. -/
theorem hasProperty_written {supply : Nat → BlankNode} {base : GraphPattern} {property : String}
    {value : Expression} {sols : List Solution} {S : Finset Quad} :
    HasProperty (written S supply (setOp base v property old new value) sols) x (propIri property) t ↔
      (HasProperty S x (propIri property) t ∧ ∀ sol ∈ sols, ¬Gives v old x t sol) ∨
        ((toSubject x).isSome = true ∧ GivesLast v old new x t sols) := by
  have hmem : ∀ q : Quad, q.predicate = propIri property → q.graphName = .defaultGraph →
      (q ∈ written S supply (setOp base v property old new value) sols ↔
        (q ∈ S ∧ ∀ sol ∈ sols, ¬Gives v old q.subject.toTerm q.object sol) ∨
          GivesLast v old new q.subject.toTerm q.object sols) := by
    intro q hkey hgraph
    rw [written, templateRows_set, mem_batch]
    refine or_congr (and_congr_right fun _ => ?_) ?_
    · simp only [forall_mem_map, mem_setRow_deletes, hkey, hgraph, and_true]
    · exact insertedLast_setRow hkey hgraph
  constructor
  · rintro ⟨q, hq, rfl, hkey, rfl⟩
    obtain ⟨hq, hgraph⟩ := mem_selected_default.mp hq
    rcases (hmem q hkey hgraph).mp hq with ⟨hqS, hnot⟩ | hlast
    · exact .inl ⟨⟨q, mem_selected_default.mpr ⟨hqS, hgraph⟩, rfl, hkey, rfl⟩, hnot⟩
    · refine .inr ⟨?_, hlast⟩
      rw [toSubject_eq_some.mpr rfl]
      rfl
  · rintro (⟨⟨q, hq, rfl, hkey, rfl⟩, hnot⟩ | ⟨hsubject, hlast⟩)
    · obtain ⟨hqS, hgraph⟩ := mem_selected_default.mp hq
      exact ⟨q, mem_selected_default.mpr ⟨(hmem q hkey hgraph).mpr (.inl ⟨hqS, hnot⟩), hgraph⟩, rfl, hkey, rfl⟩
    · obtain ⟨subject, hs⟩ := Option.isSome_iff_exists.mp hsubject
      obtain rfl := toSubject_eq_some.mp hs
      let q : Quad := ⟨subject, propIri property, t, .defaultGraph⟩
      exact ⟨q, mem_selected_default.mpr ⟨(hmem q rfl rfl).mpr (.inr hlast), rfl⟩, rfl, rfl, rfl⟩

/-! ## The rows of the operation -/

/-- A row with each old value that joins it, and the value of the expression. -/
def LowerCtx.setRows (Linked : PathReading) (scalars : Scalars) (whereExpr : Option Expr) (ctx : LowerCtx)
    (S : Finset Quad) (v old new : Variable) (key : NamedNode) (e : Expr) : Set Mapping :=
  {ζ | ∃ μ, ctx.Row Linked scalars whereExpr S μ ∧
    ((∃ x o, HasProperty S x key o ∧ (∀ u, μ v = some u → u = x) ∧
        ζ = Mapping.bind new (ctx.valueOn scalars e (Mapping.bind v (some x) μ))
          (Mapping.bind old (some o) (Mapping.bind v (some x) μ))) ∨
      (∀ x o, HasProperty S x key o → ¬∀ u, μ v = some u → u = x) ∧
        ζ = Mapping.bind new (ctx.valueOn scalars e μ) μ)}

variable {μ : Mapping}

section Rows

variable {St : Type} {E : Engine St} {Holds : St → Finset Quad → Prop} {Linked : PathReading} {s : St}
  {S : Finset Quad} {stmt : CypherStatement} {base : GraphPattern} {ctx : LowerCtx} {v old new : Variable}
  {property : String} {e : Expr}

/-- A row with the old value that joins it. -/
theorem withOld_rows (h : Matched stmt base ctx) (hE : Answers E Holds Linked ctx.paths) (hapart : RelsApart stmt)
    (hS : Holds s S) (hold : old ∉ ctx.vars) (hov : old ≠ v) :
    Yields (E.evalPattern s (withOld base v property old))
      {ξ | ∃ μ, ctx.Row Linked E.scalars stmt.whereExpr S μ ∧
        ((∃ x o, HasProperty S x (propIri property) o ∧ (∀ u, μ v = some u → u = x) ∧
            ξ = Mapping.bind old (some o) (Mapping.bind v (some x) μ)) ∨
          (∀ x o, HasProperty S x (propIri property) o → ¬∀ u, μ v = some u → u = x) ∧ ξ = μ)} := by
  have hright := hE.bgp hS [columnTriple v property old] (noMisread_single _ S .default)
  have hsolves : ∀ ν, Solves S .default [columnTriple v property old] ν ↔
    ∃ x o, HasProperty S x (propIri property) o ∧
      ν = Mapping.bind old (some o) (Mapping.bind v (some x) fun _ => none) := by
    have hvars : bgpVars [columnTriple v property old] = [v, old] := rfl
    intro ν
    rw [Solves, hvars]
    constructor
    · rintro ⟨hdom, hall⟩
      obtain ⟨q, hq, hs, hp, ho⟩ := hall _ (mem_singleton_self _)
      have hs' : ν v = some q.subject.toTerm := hs
      have ho' : ν old = some q.object := ho
      refine ⟨q.subject.toTerm, q.object, ⟨q, hq, rfl, Term.namedNode.inj hp, rfl⟩, funext fun w => ?_⟩
      by_cases hw : w = old
      · rw [hw, ho', Mapping.bind_same, bind_of_ne hov]
        rfl
      rw [bind_of_ne hw]
      by_cases hw' : w = v
      · rw [hw', hs', Mapping.bind_same]
        rfl
      · rw [bind_of_ne hw']
        cases hν : ν w with
        | none => rfl
        | some t =>
          have hmem := (hdom w).mp (by rw [hν]; rfl)
          simp [hw, hw'] at hmem
    · rintro ⟨x, o, ⟨q, hq, rfl, hkey, rfl⟩, rfl⟩
      constructor
      · intro w
        simp only [Mapping.bind, mem_cons, not_mem_nil, or_false]
        by_cases hw : w = old
        · simp [hw]
        · by_cases hw' : w = v <;> simp [hw, hw', Ne.symm hov]
      · intro tp htp
        rw [mem_singleton.mp htp]
        refine ⟨q, hq, ?_, congrArg Term.namedNode hkey, ?_⟩
        · exact (bind_of_ne (Ne.symm hov) _ _).trans (Mapping.bind_same _ _ _)
        · exact (Mapping.bind_same _ _ _).trans (by rw [bind_of_ne hov]; rfl)
  -- a row does not bind the helper, so only the node can disagree
  have hopen : ∀ {μ : Mapping}, ctx.Row Linked E.scalars stmt.whereExpr S μ → μ old = none := by
    intro μ hrow
    cases hμ : μ old with
    | none => rfl
    | some t => exact absurd ((hrow.domain old).mp (by rw [hμ]; rfl)) hold
  have hcompat : ∀ {μ : Mapping} {x o : Term}, μ old = none →
      (Mapping.Compatible μ (Mapping.bind old (some o) (Mapping.bind v (some x) fun _ => none)) ↔
        ∀ u, μ v = some u → u = x) := by
    intro μ x o hμ
    constructor
    · intro hc u hu
      refine hc v u x hu ?_
      rw [bind_of_ne (Ne.symm hov), Mapping.bind_same]
      rfl
    · intro hagree w t u ht hu
      by_cases hw : w = old
      · rw [hw, hμ] at ht
        cases ht
      rw [bind_of_ne hw] at hu
      by_cases hw' : w = v
      · rw [hw', Mapping.bind_same] at hu
        rw [hw'] at ht
        cases hu
        exact hagree t ht
      · rw [bind_of_ne hw'] at hu
        cases hu
  have hmerge : ∀ {μ : Mapping} {x o : Term},
      Mapping.merge μ (Mapping.bind old (some o) (Mapping.bind v (some x) fun _ => none)) =
        Mapping.bind old (some o) (Mapping.bind v (some x) μ) := by
    intro μ x o
    funext w
    simp only [merge_apply, Mapping.bind]
    by_cases hw : w = old
    · simp only [hw, if_true, if_neg hov, Option.none_or]
    · by_cases hw' : w = v <;> simp [hw, hw', Ne.symm hov]
  refine ((h.rows hE hapart hS).leftJoin hright).congr fun ξ => ?_
  constructor
  · rintro (⟨μ, hrow, ν, hν, hc, rfl⟩ | ⟨hrow, hno⟩)
    · obtain ⟨x, o, hprop, rfl⟩ := (hsolves ν).mp hν
      exact ⟨μ, hrow, .inl ⟨x, o, hprop, (hcompat (hopen hrow)).mp hc, hmerge⟩⟩
    · refine ⟨ξ, hrow, .inr ⟨fun x o hprop hagree => ?_, rfl⟩⟩
      exact hno _ ((hsolves _).mpr ⟨x, o, hprop, rfl⟩) ((hcompat (hopen hrow)).mpr hagree)
  · rintro ⟨μ, hrow, ⟨x, o, hprop, hagree, rfl⟩ | ⟨hno, rfl⟩⟩
    · exact .inl ⟨μ, hrow, _, (hsolves _).mpr ⟨x, o, hprop, rfl⟩, (hcompat (hopen hrow)).mpr hagree, hmerge⟩
    · refine .inr ⟨hrow, fun ν hν hc => ?_⟩
      obtain ⟨x, o, hprop, rfl⟩ := (hsolves ν).mp hν
      exact hno x o hprop ((hcompat (hopen hrow)).mp hc)

variable {lowered : Expression} {sols : List Solution}

/-- The variables of a `SET`: the helpers are new, and the expression reads neither. -/
structure HelpersApart (E : Engine St) (ctx : LowerCtx) (v old new : Variable) (e : Expr) : Prop where
  old_free : old ∉ ctx.vars
  new_free : new ∉ ctx.vars
  old_node : old ≠ v
  new_node : new ≠ v
  apart : new ≠ old
  unread : ∀ μ t, ctx.valueOn E.scalars e (Mapping.bind old t μ) = ctx.valueOn E.scalars e μ

/-- The solutions of the operation are the rows with the value bound. -/
theorem set_rows (h : Matched stmt base ctx) (hE : Answers E Holds Linked ctx.paths) (hapart : RelsApart stmt)
    (hS : Holds s S) (hhelp : HelpersApart E ctx v old new e)
    (hvalue : ∀ sol, Eval.evalExpr E.scalars defaultOptions (E.fuel s) (E.dataset s) lowered sol .default =
      .ok (ctx.valueOn E.scalars e sol.get))
    (hsols : E.whereSolutions s none (setOp base v property old new lowered).pattern = .ok sols) :
    mappings sols = ctx.setRows Linked E.scalars stmt.whereExpr S v old new (propIri property) e := by
  have hold : Yields (E.evalPattern s (withOld base v property old)) _ :=
    withOld_rows h hE hapart hS hhelp.old_free hhelp.old_node
  rw [hE.whereRows (hold.extend new hvalue) hsols]
  ext ζ
  constructor
  · rintro ⟨ξ, ⟨μ, hrow, ⟨x, o, hprop, hagree, rfl⟩ | ⟨hno, rfl⟩⟩, rfl⟩
    · refine ⟨μ, hrow, .inl ⟨x, o, hprop, hagree, ?_⟩⟩
      rw [hhelp.unread]
    · exact ⟨ξ, hrow, .inr ⟨hno, rfl⟩⟩
  · rintro ⟨μ, hrow, ⟨x, o, hprop, hagree, rfl⟩ | ⟨hno, rfl⟩⟩
    · refine ⟨_, ⟨μ, hrow, .inl ⟨x, o, hprop, hagree, rfl⟩⟩, ?_⟩
      rw [hhelp.unread]
    · exact ⟨μ, ⟨μ, hrow, .inr ⟨hno, rfl⟩⟩, rfl⟩

theorem row_helper {w : Variable} (hw : w ∉ ctx.vars)
    (hrow : ctx.Row Linked E.scalars stmt.whereExpr S μ) : μ w = none := by
  cases hμ : μ w with
  | none => rfl
  | some t => exact absurd ((hrow.domain w).mp (by rw [hμ]; rfl)) hw

theorem bind_eq_self (h : μ v = some x) : Mapping.bind v (some x) μ = μ := by
  funext w
  by_cases hw : w = v
  · rw [hw, Mapping.bind_same, h]
    rfl
  · exact bind_of_ne hw _ _

theorem bind_agreeing (h : ∀ u, μ v = some u → u = x) : Mapping.bind v (some x) μ v = some x := by
  rw [Mapping.bind_same]
  cases hμ : μ v with
  | none => rfl
  | some u => rw [h u hμ, Option.some_or]

section

variable (hhelp : HelpersApart E ctx v old new e)
    (hrows : mappings sols = ctx.setRows Linked E.scalars stmt.whereExpr S v old new (propIri property) e)
include hhelp hrows

theorem gives_old_iff : (∃ sol ∈ sols, Gives v old x t sol) ↔ HasProperty S x (propIri property) t ∧
      ∃ μ, ctx.Row Linked E.scalars stmt.whereExpr S μ ∧ ∀ u, μ v = some u → u = x := by
  constructor
  · rintro ⟨sol, hsol, hnode, hvalue⟩
    have hmem : sol.get ∈ mappings sols := ⟨sol, hsol, rfl⟩
    rw [hrows] at hmem
    obtain ⟨μ, hrow, ⟨x', o, hprop, hagree, heq⟩ | ⟨_, heq⟩⟩ := hmem
    · rw [heq, bind_of_ne hhelp.apart.symm, Mapping.bind_same,
        bind_of_ne hhelp.old_node, row_helper hhelp.old_free hrow, Option.none_or] at hvalue
      rw [heq, bind_of_ne hhelp.new_node.symm, bind_of_ne hhelp.old_node.symm,
        bind_agreeing hagree] at hnode
      cases hvalue
      cases hnode
      exact ⟨hprop, μ, hrow, hagree⟩
    · rw [heq, bind_of_ne hhelp.apart.symm, row_helper hhelp.old_free hrow] at hvalue
      cases hvalue
  · rintro ⟨hprop, μ, hrow, hagree⟩
    have hmem : Mapping.bind new (ctx.valueOn E.scalars e (Mapping.bind v (some x) μ))
        (Mapping.bind old (some t) (Mapping.bind v (some x) μ)) ∈ mappings sols := by
      rw [hrows]
      exact ⟨μ, hrow, .inl ⟨x, t, hprop, hagree, rfl⟩⟩
    obtain ⟨sol, hsol, heq⟩ := hmem
    refine ⟨sol, hsol, ?_, ?_⟩
    · rw [heq, bind_of_ne hhelp.new_node.symm, bind_of_ne hhelp.old_node.symm, bind_agreeing hagree]
    · rw [heq, bind_of_ne hhelp.apart.symm, Mapping.bind_same, bind_of_ne hhelp.old_node,
        row_helper hhelp.old_free hrow, Option.none_or]

/-- The values that the rows insert: an open node needs an old value to be bound. -/
theorem gives_new_iff :
    (∃ sol ∈ sols, Gives v new x t sol) ↔ ∃ μ, ctx.Row Linked E.scalars stmt.whereExpr S μ ∧
      (μ v = some x ∨ v ∉ ctx.vars ∧ ∃ o, HasProperty S x (propIri property) o) ∧
        ctx.valueOn E.scalars e (Mapping.bind v (some x) μ) = some t := by
  have hnew : ∀ {μ : Mapping}, ctx.Row Linked E.scalars stmt.whereExpr S μ → ∀ x o,
      Mapping.bind old (some o) (Mapping.bind v (some x) μ) new = none := by
    intro μ hrow x o
    rw [bind_of_ne hhelp.apart, bind_of_ne hhelp.new_node, row_helper hhelp.new_free hrow]
  constructor
  · rintro ⟨sol, hsol, hnode, hvalue⟩
    have hmem : sol.get ∈ mappings sols := ⟨sol, hsol, rfl⟩
    -- a row with an old value of the property, or one without
    rw [hrows] at hmem
    obtain ⟨μ, hrow, ⟨x', o, hprop, hagree, heq⟩ | ⟨_, heq⟩⟩ := hmem
    · rw [heq, Mapping.bind_same, hnew hrow, Option.none_or] at hvalue
      rw [heq, bind_of_ne hhelp.new_node.symm, bind_of_ne hhelp.old_node.symm,
        bind_agreeing hagree] at hnode
      cases hnode
      refine ⟨μ, hrow, ?_, hvalue⟩
      cases hμ : μ v with
      | some u => exact .inl (congrArg some (hagree u hμ))
      | none =>
        refine .inr ⟨fun hv => ?_, o, hprop⟩
        have hsome := (hrow.domain v).mpr hv
        rw [hμ] at hsome
        cases hsome
    · rw [heq, Mapping.bind_same, row_helper hhelp.new_free hrow, Option.none_or] at hvalue
      rw [heq, bind_of_ne hhelp.new_node.symm] at hnode
      refine ⟨μ, hrow, .inl hnode, ?_⟩
      rwa [bind_eq_self hnode]
  · rintro ⟨μ, hrow, hnode, hvalue⟩
    have hagree : ∀ u, μ v = some u → u = x := by
      intro u hu
      rcases hnode with hnode | ⟨hv, _⟩
      · exact Option.some.inj (hu.symm.trans hnode)
      · rw [row_helper hv hrow] at hu
        cases hu
    by_cases hprop : ∃ o, HasProperty S x (propIri property) o
    · obtain ⟨o, hprop⟩ := hprop
      have hmem : Mapping.bind new (ctx.valueOn E.scalars e (Mapping.bind v (some x) μ))
          (Mapping.bind old (some o) (Mapping.bind v (some x) μ)) ∈ mappings sols := by
        rw [hrows]
        exact ⟨μ, hrow, .inl ⟨x, o, hprop, hagree, rfl⟩⟩
      obtain ⟨sol, hsol, heq⟩ := hmem
      refine ⟨sol, hsol, ?_, ?_⟩
      · rw [heq, bind_of_ne hhelp.new_node.symm, bind_of_ne hhelp.old_node.symm, bind_agreeing hagree]
      · rw [heq, Mapping.bind_same, hnew hrow, Option.none_or, hvalue]
    · -- without an old value the row binds the node itself
      have hbound : μ v = some x := hnode.resolve_right fun hopen => hprop hopen.2
      have hmem : Mapping.bind new (ctx.valueOn E.scalars e μ) μ ∈ mappings sols := by
        rw [hrows]
        refine ⟨μ, hrow, .inr ⟨fun x' o hprop' hagree' => hprop ⟨o, ?_⟩, rfl⟩⟩
        rwa [← hagree' x hbound] at hprop'
      obtain ⟨sol, hsol, heq⟩ := hmem
      rw [bind_eq_self hbound] at hvalue
      refine ⟨sol, hsol, ?_, ?_⟩
      · rw [heq, bind_of_ne hhelp.new_node.symm, hbound]
      · rw [heq, Mapping.bind_same, row_helper hhelp.new_free hrow, Option.none_or, hvalue]

end

end Rows

/-! ## The values meant -/

section Values

variable (Linked : PathReading) (scalars : Scalars) (stmt : CypherStatement) (ctx : LowerCtx)

/-- What the properties in an expression stand for in a match. -/
structure ReadsStore (S : Finset Quad) (μ : Mapping) (e : Expr) (prop : String → String → Option Term) : Prop where
  -- a property that WHERE reads has the value of the match
  matched : ∀ access ∈ e.accesses, access ∈ stmt.whereAccesses → prop access.1 access.2 = μ (column access)
  -- any other has a value of the store, if there is one
  stored : ∀ access ∈ e.accesses, access ∉ stmt.whereAccesses → ∀ u, prop access.1 access.2 = some u →
    ∃ y, ctx.read μ access.1 = some y ∧ HasProperty S y (propIri access.2) u
  absent : ∀ access ∈ e.accesses, access ∉ stmt.whereAccesses → prop access.1 access.2 = none →
    ∀ y u, ctx.read μ access.1 = some y → ¬HasProperty S y (propIri access.2) u

/-- The expression takes the value on a match in which the variable stands for the
node. -/
def TakesValue (S : Finset Quad) (v : Variable) (e : Expr) (x t : Term) : Prop :=
  ∃ μ prop, ctx.MatchedAs Linked scalars stmt.whereExpr S v x μ ∧ ReadsStore stmt ctx S μ e prop ∧
    e.value scalars (ctx.read μ) prop = some t

/-- The property of a matched node has the values that the expression takes, and has
one if the expression has. -/
structure SetsProperty (S S' : Finset Quad) (v : Variable) (key : NamedNode) (e : Expr) : Prop where
  values : ∀ x μ, ctx.MatchedAs Linked scalars stmt.whereExpr S v x μ →
    ∀ t, HasProperty S' x key t ↔ TakesValue Linked scalars stmt ctx S v e x t
  kept : ∀ x t, TakesValue Linked scalars stmt ctx S v e x t → ∃ t', HasProperty S' x key t'

/-- Every value that the expression takes arrives. -/
structure ValuesArrive (S : Finset Quad) (v : Variable) (key : NamedNode) (e : Expr) (rows : List Update.Row) :
    Prop where
  -- without a row nothing is written
  unmatched : (∀ μ, ¬ctx.Row Linked scalars stmt.whereExpr S μ) → ∀ x μ,
    ctx.MatchedAs Linked scalars stmt.whereExpr S v x μ →
      ∀ t, HasProperty S x key t ↔ TakesValue Linked scalars stmt ctx S v e x t
  subject : ∀ μ, ctx.Row Linked scalars stmt.whereExpr S μ → ∀ x t, TakesValue Linked scalars stmt ctx S v e x t →
    (toSubject x).isSome = true
  bound : ∀ μ, ctx.Row Linked scalars stmt.whereExpr S μ → ∀ x t, TakesValue Linked scalars stmt ctx S v e x t →
    v ∈ ctx.vars ∨ ∃ o, HasProperty S x key o
  -- the value is that of a row, where a property that only the expression reads has none
  plain : ∀ μ, ctx.Row Linked scalars stmt.whereExpr S μ → ∀ x t, TakesValue Linked scalars stmt ctx S v e x t →
    ∃ ν, ctx.Row Linked scalars stmt.whereExpr S ν ∧ (ν v = some x ∨ v ∉ ctx.vars) ∧
      ctx.valueOn scalars e (Mapping.bind v (some x) ν) = some t
  -- an old value is set again by a row after which none deletes it
  last : ∀ μ, ctx.Row Linked scalars stmt.whereExpr S μ → ∀ q ∈ selected S .default, q.predicate = key →
    TakesValue Linked scalars stmt ctx S v e q.subject.toTerm q.object → InsertedLast q rows

end Values

section Set

variable {St : Type} {E : Engine St} {Holds : St → Finset Quad → Prop} {Linked : PathReading} {s s' : St}
  {S S' : Finset Quad} {stmt : CypherStatement} {base : GraphPattern} {ctx : LowerCtx} {v old new : Variable}
  {property : String} {e : Expr} {lowered : Expression} {sols : List Solution}

variable {name : String}

section

variable (hyg : Hygienic stmt) (h : Matched stmt base ctx) (hname : name ∈ stmt.nodeNames)
    (haccesses : ∀ access ∈ e.accesses, access ∈ stmt.accesses)
include hyg h hname haccesses

/-- A value of a row is one that the expression takes: what the store has besides
changes nothing. -/
theorem takesValue_of_row
    (hrow : ctx.Row Linked E.scalars stmt.whereExpr S μ)
    (hnode : μ ⟨name⟩ = some x ∨ (⟨name⟩ : Variable) ∉ ctx.vars ∧ NodeOf S x)
    (hvalue : ctx.valueOn E.scalars e (Mapping.bind ⟨name⟩ (some x) μ) = some t) :
    TakesValue Linked E.scalars stmt ctx S ⟨name⟩ e x t := by
  classical
  have hmatch : ctx.MatchedAs Linked E.scalars stmt.whereExpr S ⟨name⟩ x (Mapping.bind ⟨name⟩ (some x) μ) := by
    rcases hnode with hbound | ⟨hv, hx⟩
    · rw [bind_eq_self hbound]
      exact (matchedAs_of_bound ((hrow.domain _).mp (by rw [hbound]; rfl))).mpr ⟨hrow, hbound⟩
    · exact hrow.matchedAs hv hx
  generalize Mapping.bind ⟨name⟩ (some x) μ = β at hmatch hvalue
  let prop : String → String → Option Term := fun name key =>
    if (name, key) ∈ stmt.whereAccesses then β (column (name, key))
    else if hu : ∃ u y, ctx.read β name = some y ∧ HasProperty S y (propIri key) u then some hu.choose
    else none
  have hmatched : ∀ {access}, access ∈ stmt.whereAccesses → prop access.1 access.2 = β (column access) :=
    fun hmem => if_pos hmem
  refine ⟨β, prop, hmatch, ⟨fun access _ => hmatched, ?_, ?_⟩, ?_⟩
  · intro access _ hout u hu
    simp only [prop, if_neg hout] at hu
    split at hu
    · next hex =>
      cases hu
      exact hex.choose_spec
    · cases hu
  · intro access _ hout hnone y u hy hprop
    simp only [prop, if_neg hout] at hnone
    split at hnone
    · cases hnone
    · next hex => exact hex ⟨u, y, hy, hprop⟩
  · refine e.value_mono (fun _ _ ht => ht) (fun access ha => ?_) t hvalue
    by_cases hmem : access ∈ stmt.whereAccesses
    · rw [hmatched hmem]
      exact fun _ hu => hu
    · -- the column of an access that WHERE does not make is bound nowhere
      intro u hu
      have hcol : β (column access) = some u := hu
      have hmemv := (hmatch.domain _).mp (by rw [hcol]; rfl)
      have haccess := haccesses access ha
      rcases mem_cons.mp hmemv with heq | hin
      · have hn : columnName access.1 access.2 = name := congrArg Variable.name heq
        exact absurd (hn ▸ hname) (hyg.columnNodes access haccess)
      · rcases h.mem_vars hin with (hnodes | ⟨other, hother, heq⟩ | ⟨n, hn⟩) | hrels | ⟨n, hn⟩
        · exact absurd hnodes (hyg.columnNodes access haccess)
        · have heq' := hyg.columnsApart access haccess other (mem_append_left _ hother) heq
          exact absurd (heq' ▸ hother) hmem
        · exact absurd ⟨"node", n, hn, by decide⟩ (hyg.columnGenerated access haccess)
        · exact absurd hrels (hyg.columnRels access haccess)
        · exact absurd ⟨"rel", n, hn, by decide⟩ (hyg.columnGenerated access haccess)

/-- The helper variables of a `SET` are apart from everything that is read. -/
theorem helpersApart_set
    (m n : Nat) :
    HelpersApart E ctx ⟨name⟩ ⟨LowerCtx.generatedName "set_old" m⟩ ⟨LowerCtx.generatedName "set_val" n⟩ e where
  old_free := h.helper_not_mem hyg.toRelsApart m (generated_of_stem (by decide))
    (generatedName_ne (i := 0) rfl rfl (by decide)) (generatedName_ne (i := 0) rfl rfl (by decide))
  new_free := h.helper_not_mem hyg.toRelsApart n (generated_of_stem (by decide))
    (generatedName_ne (i := 0) rfl rfl (by decide)) (generatedName_ne (i := 0) rfl rfl (by decide))
  old_node := helper_ne_node hyg.toRelsApart hname (generated_of_stem (by decide) m)
  new_node := helper_ne_node hyg.toRelsApart hname (generated_of_stem (by decide) n)
  apart := fun heq => generatedName_ne (i := 4) rfl rfl (by decide) n m (congrArg Variable.name heq)
  unread := by
    intro μ t
    have hgen : Generated (LowerCtx.generatedName "set_old" m) := generated_of_stem (by decide) m
    have hread : ctx.read (Mapping.bind ⟨LowerCtx.generatedName "set_old" m⟩ t μ) = ctx.read μ := by
      funext key
      unfold LowerCtx.read
      split
      · next w hw =>
        obtain ⟨hvar, hmem⟩ := h.named.nodeVars _ (mem_of_lookup hw)
        refine bind_of_ne (fun heq => hyg.generatedNodes key hmem ?_) _ _
        have hkey : key = LowerCtx.generatedName "set_old" m := congrArg Variable.name (hvar.symm.trans heq)
        exact hkey ▸ hgen
      · split
        · next w hw =>
          obtain ⟨hmem, hvar⟩ := h.named.relVars _ (mem_of_lookup hw)
          refine bind_of_ne (fun heq => hyg.generatedRels key hmem ?_) _ _
          have hkey : key = LowerCtx.generatedName "set_old" m :=
            congrArg Variable.name ((hvar w rfl).symm.trans heq)
          exact hkey ▸ hgen
        · rfl
        · rfl
    rw [LowerCtx.valueOn, hread, LowerCtx.valueOn]
    refine e.value_congr fun access ha => bind_of_ne (fun heq => ?_) _ _
    have hn : columnName access.1 access.2 = LowerCtx.generatedName "set_old" m := congrArg Variable.name heq
    exact hyg.columnGenerated access (haccesses access ha) (hn ▸ hgen)

end

/-- The operation of `SET n.p = e`. -/
theorem Matched.set_ops (h : Matched stmt base ctx) (hw : stmt.writes = [.setProperty name property e])
    {ops : List DeleteInsert} (hr : lowerWrites base ctx stmt.writes = .ok ops) :
    name ∈ stmt.nodeNames ∧ ∃ m n lowered, ops = [setOp base ⟨name⟩ property ⟨LowerCtx.generatedName "set_old" m⟩
      ⟨LowerCtx.generatedName "set_val" n⟩ lowered] ∧
      ∀ options fuel ds ag sol, Eval.evalExpr E.scalars options fuel ds lowered sol ag =
        .ok (ctx.valueOn E.scalars e sol.get) := by
  rw [hw] at hr
  obtain ⟨⟨first, ctx₁⟩, hfirst, hr⟩ := bind_ok hr
  obtain ⟨rest, hrest, hr⟩ := bind_ok hr
  cases hrest
  cases hr
  obtain ⟨⟨op, ctx₂⟩, hop, hfirst⟩ := bind_ok hfirst
  cases hfirst
  obtain ⟨w, hvar, hop⟩ := bind_ok hop
  obtain ⟨⟨lowered, ctx₃⟩, hlower, hop⟩ := bind_ok hop
  cases hop
  obtain ⟨rfl, hname⟩ := h.written_var hvar
  refine ⟨hname, _, _, lowered, rfl, fun options fuel ds ag sol => ?_⟩
  have hcolumns : (ctx.freshVar "set_old").2.Columns := h.columns
  rw [lowerExpr_valueOn hcolumns hlower sol]
  -- the expression adds accesses to the context and no variables
  have hreads := lowerExpr_reads e hlower
  have hread : ctx₃.read sol.get = ctx.read sol.get := by
    funext key
    rw [LowerCtx.read, LowerCtx.read, hreads.nodeVars, hreads.relVars]
  rw [LowerCtx.valueOn, hread, LowerCtx.valueOn]

end Set

/-! ## Setting a property of persons -/

def setPersons (property : String) (value : Expression) : DeleteInsert :=
  setOp personContext.joined ⟨"n"⟩ property ⟨"_set_old0"⟩ ⟨"_set_val1"⟩ value

def three : Expr := .literal (.int 3)

def threeLiteral : Nova.Literal := .newTypedLiteral "3" xsdInteger

/-- Ann has a name and a nickname. -/
def namedStore : MemoryStore where
  quads := [annLabel, ⟨.namedNode ⟨"http://ex/ann"⟩, propIri "name", .literal (.string "Ann"), .defaultGraph⟩,
    ⟨.namedNode ⟨"http://ex/ann"⟩, propIri "nick", .literal (.string "A"), .defaultGraph⟩]
  namedGraphIris := []
  nodup := by decide +kernel

end Cypher

end Nova
