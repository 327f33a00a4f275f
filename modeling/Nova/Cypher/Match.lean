import Nova.Cypher.Values

/-!
# The rows of MATCH and WHERE

A row binds the variables of the lowered pattern; its triples are in the default
graph, its paths lead from end to end and `WHERE` is true of it (`LowerCtx.Row`). These
are the rows that the evaluator returns (`Matched.rows`).

A bare pattern such as `(n)` binds nothing: its row leaves `n` open, and every node of
the graph is matched (`LowerCtx.MatchedAs`).
-/

namespace Nova

open Nova.Lib List

/-- The term is the subject or the object of a triple of the default graph. -/
def NodeOf (S : Finset Quad) (x : Term) : Prop := ∃ q ∈ selected S .default, q.subject.toTerm = x ∨ q.object = x

theorem NodeOf.mono {S S' : Finset Quad} {x : Term} (hsub : S ⊆ S') (h : NodeOf S x) : NodeOf S' x := by
  obtain ⟨q, hq, hx⟩ := h
  obtain ⟨hmem, hgraph⟩ := Finset.mem_filter.mp hq
  exact ⟨q, Finset.mem_filter.mpr ⟨hsub hmem, hgraph⟩, hx⟩

namespace Cypher

variable (Linked : PathReading) (scalars : Scalars) (whereExpr : Option Expr)

namespace LowerCtx

/-- The variables that the triples and the paths bind. -/
def vars (ctx : LowerCtx) : List Variable :=
  bgpVars ctx.triples ++ ctx.paths.flatMap fun p => [p.subject, p.object]

/-- The pattern under the mapping is part of the default graph. -/
structure Fitted (ctx : LowerCtx) (S : Finset Quad) (μ : Mapping) : Prop where
  triples : ∀ tp ∈ ctx.triples, ∃ q ∈ selected S .default, tp.Matches μ q
  paths : ∀ p ∈ ctx.paths, p.Joins Linked S μ

/-- `WHERE` is true; an error is not. -/
def Passes (ctx : LowerCtx) (μ : Mapping) : Prop :=
  ∀ w, whereExpr = some w → (ctx.valueOn scalars w μ).bind scalars.toEbv = some true

structure Row (ctx : LowerCtx) (S : Finset Quad) (μ : Mapping) : Prop where
  domain : HasDomain μ ctx.vars
  fitted : ctx.Fitted Linked S μ
  passes : ctx.Passes scalars whereExpr μ

/-- A match in which the variable stands for the term. -/
structure MatchedAs (ctx : LowerCtx) (S : Finset Quad) (v : Variable) (x : Term) (μ : Mapping) : Prop where
  domain : HasDomain μ (v :: ctx.vars)
  value : μ v = some x
  -- a variable that the pattern leaves open stands for any node
  node : v ∈ ctx.vars ∨ NodeOf S x
  fitted : ctx.Fitted Linked S μ
  passes : ctx.Passes scalars whereExpr μ

end LowerCtx

/-! ## What the evaluator returns -/

variable {Linked scalars whereExpr}

theorem joins_local (S : Finset Quad) (p : PathBetween) :
    Local [p.subject, p.object] fun μ => p.Joins Linked S μ := by
  rintro μ ν h ⟨a, b, ha, hb, hlink⟩
  refine ⟨a, b, ?_, ?_, hlink⟩
  · rw [← h p.subject mem_cons_self, ha]
  · rw [← h p.object (mem_cons_of_mem _ mem_cons_self), hb]

theorem triples_local (S : Finset Quad) (tps : List TriplePattern) :
    Local (bgpVars tps) fun μ => ∀ tp ∈ tps, ∃ q ∈ selected S .default, tp.Matches μ q := by
  intro μ ν h hfit tp htp
  obtain ⟨q, hq, hm⟩ := hfit tp htp
  have hvars : ∀ v ∈ tp.vars, μ v = ν v := fun v hv => h v (mem_flatMap.mpr ⟨tp, htp, hv⟩)
  exact ⟨q, hq, (TriplePattern.matches_congr hvars).mp hm⟩

theorem fitted_local (ctx : LowerCtx) (S : Finset Quad) : Local ctx.vars fun μ => ctx.Fitted Linked S μ := by
  intro μ ν h hfit
  constructor
  · exact triples_local S ctx.triples μ ν (fun v hv => h v (mem_append_left _ hv)) hfit.triples
  · intro p hp
    refine joins_local S p μ ν (fun v hv => h v ?_) (hfit.paths p hp)
    exact mem_append_right _ (mem_flatMap.mpr ⟨p, hp, hv⟩)

section Rows

variable {St : Type} {E : Update.Engine St} {Holds : St → Finset Quad → Prop} {s : St} {S : Finset Quad}
  {stmt : CypherStatement} {base : GraphPattern} {ctx : LowerCtx}

/-- Paths are joined one after another. -/
theorem paths_yield {all : List PathBetween} (hE : Answers E Holds Linked all) (hS : Holds s S) :
    ∀ {paths : List PathBetween} {vs : List Variable} {P : Mapping → Prop} {left : GraphPattern},
      (∀ p ∈ paths, p ∈ all) → Local vs P → Yields (E.evalPattern s left) {μ | HasDomain μ vs ∧ P μ} →
      Yields (E.evalPattern s (paths.foldl (fun base path => .join base path.pattern) left))
        {μ | HasDomain μ (vs ++ paths.flatMap fun p => [p.subject, p.object]) ∧
          P μ ∧ ∀ p ∈ paths, p.Joins Linked S μ} := by
  intro paths
  induction paths with
  | nil =>
    intro vs P left _ _ h
    refine h.congr fun μ => ?_
    simp
  | cons p paths ih =>
    intro vs P left hall hlocal h
    obtain ⟨hp, hrest⟩ := forall_mem_cons.mp hall
    have hone := h.joinLocal hlocal (joins_local S p) (hE.path hS p hp)
    have hboth : Local (vs ++ [p.subject, p.object]) fun μ => P μ ∧ p.Joins Linked S μ := by
      rintro μ ν hag ⟨hP, hj⟩
      refine ⟨hlocal μ ν (fun v hv => hag v (mem_append_left _ hv)) hP, ?_⟩
      exact joins_local S p μ ν (fun v hv => hag v (mem_append_right _ hv)) hj
    refine (ih hrest hboth hone).congr fun μ => ?_
    simp only [Set.mem_ofPred_eq, flatMap_cons, append_assoc, forall_mem_cons, and_assoc]

theorem joined_rows (hE : Answers E Holds Linked ctx.paths) (hapart : RelsApart stmt)
    (hnamed : ctx.Named stmt.nodeNames stmt.relNames stmt.whereAccesses) (hS : Holds s S) :
    Yields (E.evalPattern s ctx.joined) {μ | HasDomain μ ctx.vars ∧ ctx.Fitted Linked S μ} := by
  have hread := noMisread_of_roles hapart.disjoint hnamed.triples S .default
  have hbgp := hE.bgp hS ctx.triples hread
  refine (paths_yield hE hS (fun p hp => hp) (triples_local S ctx.triples) hbgp).congr fun μ => ?_
  constructor
  · rintro ⟨hdom, htriples, hpaths⟩
    exact ⟨hdom, htriples, hpaths⟩
  · rintro ⟨hdom, htriples, hpaths⟩
    exact ⟨hdom, htriples, hpaths⟩

/-- The pattern of `MATCH` and `WHERE` is answered by its rows. -/
theorem Matched.rows (h : Matched stmt base ctx) (hE : Answers E Holds Linked ctx.paths) (hapart : RelsApart stmt)
    (hS : Holds s S) :
    Yields (E.evalPattern s base) {μ | ctx.Row Linked E.scalars stmt.whereExpr S μ} := by
  have hjoined := joined_rows hE hapart h.named hS
  obtain ⟨lowered, hwhere, rfl⟩ := h.base
  generalize stmt.whereExpr = whereExpr at hwhere ⊢
  cases hwhere with
  | none =>
    refine hjoined.congr fun μ => ?_
    constructor
    · rintro ⟨hdom, hfit⟩
      exact ⟨hdom, hfit, fun w hw => by cases hw⟩
    · intro hrow
      exact ⟨hrow.domain, hrow.fitted⟩
  | some hr hcolumns =>
    refine (hjoined.filter (lowerExpr_valueOn hcolumns hr)).congr fun μ => ?_
    constructor
    · rintro ⟨⟨hdom, hfit⟩, hpass⟩
      refine ⟨hdom, hfit, fun w hw => ?_⟩
      cases hw
      exact hpass
    · intro hrow
      exact ⟨⟨hrow.domain, hrow.fitted⟩, hrow.passes _ rfl⟩

end Rows

/-! ## Matched nodes -/

section Nodes

variable {ctx : LowerCtx} {S : Finset Quad} {v : Variable} {x : Term} {μ : Mapping}

theorem matchedAs_of_bound (hv : v ∈ ctx.vars) :
    ctx.MatchedAs Linked scalars whereExpr S v x μ ↔ ctx.Row Linked scalars whereExpr S μ ∧ μ v = some x := by
  have hdom : HasDomain μ (v :: ctx.vars) ↔ HasDomain μ ctx.vars := by
    refine forall_congr' fun w => ?_
    rw [mem_cons, or_iff_right_of_imp]
    rintro rfl
    exact hv
  constructor
  · intro h
    exact ⟨⟨hdom.mp h.domain, h.fitted, h.passes⟩, h.value⟩
  · rintro ⟨hrow, hval⟩
    exact ⟨hdom.mpr hrow.domain, hval, .inl hv, hrow.fitted, hrow.passes⟩

theorem keeps_read {ν : Mapping} (h : ∀ w t, μ w = some t → ν w = some t) (name : String) :
    Keeps (ctx.read μ name) (ctx.read ν name) := by
  unfold LowerCtx.read
  split
  · exact h _
  · split
    · exact h _
    · exact fun t ht => ht
    · exact fun t ht => ht

theorem keeps_bind (v : Variable) (t : Option Term) (μ : Mapping) (w : Variable) :
    Keeps (μ w) (Mapping.bind v t μ w) := by
  intro u hu
  by_cases hw : w = v
  · rw [hw] at hu ⊢
    rw [Mapping.bind_same, hu, Option.some_or]
  · rwa [Mapping.bind_of_ne hw]

theorem keeps_valueOn {ν : Mapping} (h : ∀ w t, μ w = some t → ν w = some t) (e : Expr) :
    Keeps (ctx.valueOn scalars e μ) (ctx.valueOn scalars e ν) :=
  e.value_mono (keeps_read h) fun access _ => h (column access)

theorem LowerCtx.Row.matchedAs (h : ctx.Row Linked scalars whereExpr S μ) (hv : v ∉ ctx.vars) (hx : NodeOf S x) :
    ctx.MatchedAs Linked scalars whereExpr S v x (Mapping.bind v (some x) μ) := by
  have hopen : μ v = none := by
    cases hμ : μ v with
    | none => rfl
    | some t => exact absurd ((h.domain v).mp (by rw [hμ]; rfl)) hv
  refine ⟨?_, ?_, .inr hx, ?_, ?_⟩
  · intro w
    by_cases hw : w = v
    · rw [hw, Mapping.bind_same, hopen]
      simp
    · rw [Mapping.bind_of_ne hw, h.domain w]
      simp [hw]
  · rw [Mapping.bind_same, hopen, Option.none_or]
  · refine fitted_local ctx S μ _ (fun w hw => ?_) h.fitted
    have hne : w ≠ v := by
      rintro rfl
      exact hv hw
    rw [Mapping.bind_of_ne hne]
  · intro w hw
    obtain ⟨t, ht, hebv⟩ := Option.bind_eq_some_iff.mp (h.passes w hw)
    exact Option.bind_eq_some_iff.mpr ⟨t, keeps_valueOn (keeps_bind v (some x) μ) w t ht, hebv⟩

/-- A row reaches a term that it binds the variable to; one that leaves the variable
open reaches every node. -/
def LowerCtx.Reaches (Linked : PathReading) (scalars : Scalars) (whereExpr : Option Expr) (ctx : LowerCtx)
    (S : Finset Quad) (v : Variable) (x : Term) : Prop :=
  ∃ μ, ctx.Row Linked scalars whereExpr S μ ∧ (μ v = some x ∨ v ∉ ctx.vars ∧ NodeOf S x)

theorem reaches_of_matchedAs {ν : Mapping} (hrow : ctx.Row Linked scalars whereExpr S ν)
    (h : ctx.MatchedAs Linked scalars whereExpr S v x μ) : ctx.Reaches Linked scalars whereExpr S v x := by
  by_cases hv : v ∈ ctx.vars
  · obtain ⟨hμ, hval⟩ := (matchedAs_of_bound hv).mp h
    exact ⟨μ, hμ, .inl hval⟩
  · exact ⟨ν, hrow, .inr ⟨hv, h.node.resolve_left hv⟩⟩

theorem LowerCtx.Reaches.matched (h : ctx.Reaches Linked scalars whereExpr S v x) :
    ∃ μ, ctx.MatchedAs Linked scalars whereExpr S v x μ := by
  obtain ⟨μ, hrow, hval | ⟨hv, hx⟩⟩ := h
  · have hv : v ∈ ctx.vars := (hrow.domain v).mp (by rw [hval]; rfl)
    exact ⟨μ, (matchedAs_of_bound hv).mpr ⟨hrow, hval⟩⟩
  · exact ⟨_, hrow.matchedAs hv hx⟩

theorem LowerCtx.Row.mono {S' : Finset Quad}
    (hgrows : ∀ {S S' : Finset Quad} {e : PropertyPathExpression} {a b : Term},
    S ⊆ S' → Linked S e a b → Linked S' e a b) (hsub : S ⊆ S') (h : ctx.Row Linked scalars whereExpr S μ) :
    ctx.Row Linked scalars whereExpr S' μ := by
  refine ⟨h.domain, ⟨fun tp htp => ?_, fun p hp => ?_⟩, h.passes⟩
  · obtain ⟨q, hq, hm⟩ := h.fitted.triples tp htp
    obtain ⟨hmem, hgraph⟩ := Finset.mem_filter.mp hq
    exact ⟨q, Finset.mem_filter.mpr ⟨hsub hmem, hgraph⟩, hm⟩
  · obtain ⟨a, b, ha, hb, hlink⟩ := h.fitted.paths p hp
    exact ⟨a, b, ha, hb, hgrows hsub hlink⟩

theorem row_restrict_local : Local ctx.vars fun μ => ctx.Row Linked scalars whereExpr S (restrict ctx.vars μ) := by
  intro μ ν h hrow
  have heq : restrict ctx.vars μ = restrict ctx.vars ν := by
    funext w
    by_cases hw : w ∈ ctx.vars
    · rw [restrict_apply_of_mem hw, restrict_apply_of_mem hw, h w hw]
    · rw [restrict_eq_none hw, restrict_eq_none hw]
  rwa [← heq]

end Nodes

/-! ## Helper variables -/

section Helpers

variable {stmt : CypherStatement} {base : GraphPattern} {ctx : LowerCtx}

/-- A variable of the pattern is named, a column or generated for an anonymous node or
relationship. -/
theorem Matched.mem_vars (h : Matched stmt base ctx) {v : Variable} (hv : v ∈ ctx.vars) :
    EndVar stmt.nodeNames stmt.whereAccesses v ∨ PredVar stmt.relNames v := by
  rcases mem_append.mp hv with hv | hv
  · obtain ⟨tp, htp, hv⟩ := mem_flatMap.mp hv
    exact (h.named.triples tp htp).1 v hv
  · obtain ⟨p, hp, hv⟩ := mem_flatMap.mp hv
    obtain ⟨hs, ho⟩ := h.named.paths p hp
    rcases mem_cons.mp hv with rfl | hv
    · exact .inl hs
    · rw [mem_singleton.mp hv]
      exact .inl ho

/-- A helper variable is none of the pattern. -/
theorem Matched.helper_not_mem (h : Matched stmt base ctx) (hapart : RelsApart stmt) {stem : String} (n : Nat)
    (hgen : ∀ n, Generated (LowerCtx.generatedName stem n))
    (hnode : ∀ m n, LowerCtx.generatedName "node" m ≠ LowerCtx.generatedName stem n)
    (hrel : ∀ m n, LowerCtx.generatedName "rel" m ≠ LowerCtx.generatedName stem n) :
    (⟨LowerCtx.generatedName stem n⟩ : Variable) ∉ ctx.vars := by
  intro hmem
  rcases h.mem_vars hmem with (hname | ⟨access, ha, heq⟩ | ⟨m, hm⟩) | hname | ⟨m, hm⟩
  · exact hapart.generatedNodes _ hname (hgen n)
  · have hcolumn : LowerCtx.generatedName stem n = columnName access.1 access.2 := congrArg Variable.name heq
    exact hapart.generatedColumns access ha (hcolumn ▸ hgen n)
  · exact hnode m n hm.symm
  · exact hapart.generatedRels _ hname (hgen n)
  · exact hrel m n hm.symm

theorem Matched.written_var (h : Matched stmt base ctx) {name kw : String} {v : Variable}
    (hv : lookupWrittenNodeVar ctx name kw = .ok v) : v = ⟨name⟩ ∧ name ∈ stmt.nodeNames := by
  unfold lookupWrittenNodeVar at hv
  split at hv
  · next w hw =>
    cases hv
    exact h.named.nodeVars _ (mem_of_lookup hw)
  · cases hv

theorem helper_ne_node (hapart : RelsApart stmt) {name stem : String} {n : Nat} (hname : name ∈ stmt.nodeNames)
    (hgen : Generated (LowerCtx.generatedName stem n)) : (⟨LowerCtx.generatedName stem n⟩ : Variable) ≠ ⟨name⟩ := by
  intro heq
  have hn : LowerCtx.generatedName stem n = name := congrArg Variable.name heq
  exact hapart.generatedNodes name hname (hn ▸ hgen)

end Helpers

end Cypher

end Nova
