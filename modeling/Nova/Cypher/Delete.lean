import Nova.Cypher.Statement

/-!
# DELETE

A node is deleted in two operations: first the triples that have it as subject, then
those that have it as object. Both evaluate `MATCH` and `WHERE`, the second on the store
that the first has left. Meant is that no triple with a matched node at an end is left
and that no other triple goes (`DeletesNodes`). This holds if and only if `WHERE` does
not reject a row for not knowing the node, and every matched node that is the object of
a triple from outside is matched again without the triples of matched subjects
(`deletesNodes_iff`).
-/

namespace Nova

open Nova.Lib List

namespace Cypher

open Update

/-! ## One side -/

/-- The operation that takes away the triples joined with the pattern. -/
def sideDelete (base : GraphPattern) (a b c : Variable) : DeleteInsert :=
  ⟨[deleteQuad (.var a) (.var b) (.var c)], [], none, .join base (.bgp [⟨.var a, .var b, .var c⟩])⟩

theorem toSubject_eq_some {t : Term} {s : Subject} : toSubject t = some s ↔ t = s.toTerm := by
  cases t <;> cases s <;> simp [toSubject, Subject.toTerm]

theorem nnPatternToNamedNode_var {sol : Solution} {v : Variable} {n : NamedNode} :
    nnPatternToNamedNode (.var v) sol = some n ↔ sol.get v = some (.namedNode n) := by
  unfold nnPatternToNamedNode
  dsimp only
  split
  · next m hm => rw [hm, Option.some.injEq, Option.some.injEq, Term.namedNode.injEq]
  · next hno =>
    constructor
    · intro h
      cases h
    · intro h
      exact absurd h (hno n)

theorem instantiate_deleteQuad {sol : Solution} {a b c : Variable} {q : Quad} :
    instantiateGroundQuadPattern sol (deleteQuad (.var a) (.var b) (.var c)) = some q ↔
      (⟨.var a, .var b, .var c⟩ : TriplePattern).Matches sol.get q ∧ q.graphName = .defaultGraph := by
  obtain ⟨subject, predicate, object, graphName⟩ := q
  have hsubject : ∀ s, (sol.get a).bind toSubject = some s ↔ sol.get a = some s.toTerm := by
    intro s
    rw [Option.bind_eq_some_iff]
    constructor
    · rintro ⟨t, ht, hs⟩
      rw [ht, toSubject_eq_some.mp hs]
    · intro hs
      exact ⟨_, hs, toSubject_eq_some.mpr rfl⟩
  constructor
  · intro h
    obtain ⟨s, hs, h⟩ := Option.bind_eq_some_iff.mp h
    obtain ⟨p, hp, h⟩ := Option.bind_eq_some_iff.mp h
    obtain ⟨o, ho, h⟩ := Option.bind_eq_some_iff.mp h
    cases h
    exact ⟨⟨(hsubject _).mp hs, nnPatternToNamedNode_var.mp hp, ho⟩, rfl⟩
  · rintro ⟨⟨hs, hp, ho⟩, rfl⟩
    refine Option.bind_eq_some_iff.mpr ⟨subject, (hsubject subject).mpr hs, ?_⟩
    refine Option.bind_eq_some_iff.mpr ⟨predicate, nnPatternToNamedNode_var.mpr hp, ?_⟩
    exact Option.bind_eq_some_iff.mpr ⟨object, ho, rfl⟩

/-- A row extends to a match of three more variables, where it agrees with the quad on
those that it binds. -/
theorem exists_probe {vs : List Variable} {μ : Mapping} (hμ : HasDomain μ vs) {a b c : Variable} (hab : a ≠ b)
    (hac : a ≠ c) (hbc : b ≠ c) {q : Quad} (ha : ∀ t, μ a = some t → t = q.subject.toTerm)
    (hb : ∀ t, μ b = some t → t = .namedNode q.predicate) (hc : ∀ t, μ c = some t → t = q.object) :
    ∃ ξ, HasDomain ξ (vs ++ [a, b, c]) ∧ restrict vs ξ = μ ∧
      (⟨.var a, .var b, .var c⟩ : TriplePattern).Matches ξ q := by
  let ξ : Mapping := fun w =>
    if w = a then some q.subject.toTerm
    else if w = b then some (.namedNode q.predicate)
    else if w = c then some q.object
    else μ w
  have hξa : ξ a = some q.subject.toTerm := if_pos rfl
  have hξb : ξ b = some (.namedNode q.predicate) := (if_neg (Ne.symm hab)).trans (if_pos rfl)
  have hξc : ξ c = some q.object := (if_neg (Ne.symm hac)).trans ((if_neg (Ne.symm hbc)).trans (if_pos rfl))
  have hξ : ∀ w, w ≠ a → w ≠ b → w ≠ c → ξ w = μ w := by
    intro w h₁ h₂ h₃
    simp only [ξ]
    rw [if_neg h₁, if_neg h₂, if_neg h₃]
  refine ⟨ξ, ?_, ?_, hξa, hξb, hξc⟩
  · intro w
    by_cases h₁ : w = a
    · rw [h₁, hξa]
      simp
    by_cases h₂ : w = b
    · rw [h₂, hξb]
      simp
    by_cases h₃ : w = c
    · rw [h₃, hξc]
      simp
    · rw [hξ w h₁ h₂ h₃, hμ w]
      simp [h₁, h₂, h₃]
  -- a variable of the row that is also a probe variable has the same value
  · funext w
    by_cases hw : w ∈ vs
    · obtain ⟨t, ht⟩ := Option.isSome_iff_exists.mp ((hμ w).mpr hw)
      rw [restrict_apply_of_mem hw]
      by_cases h₁ : w = a
      · rw [h₁] at ht ⊢
        rw [hξa, ht, ha t ht]
      by_cases h₂ : w = b
      · rw [h₂] at ht ⊢
        rw [hξb, ht, hb t ht]
      by_cases h₃ : w = c
      · rw [h₃] at ht ⊢
        rw [hξc, ht, hc t ht]
      · exact hξ w h₁ h₂ h₃
    · rw [restrict_eq_none hw]
      cases hμw : μ w with
      | none => rfl
      | some t => exact absurd ((hμ w).mp (by rw [hμw]; rfl)) hw

section Sides

variable {St : Type} {E : Engine St} {Holds : St → Finset Quad → Prop} {Linked : PathReading} {s s' : St}
  {S : Finset Quad} {stmt : CypherStatement} {base : GraphPattern} {ctx : LowerCtx}

section

variable (h : Matched stmt base ctx) (hE : Answers E Holds Linked ctx.paths)
    (hapart : RelsApart stmt) (hS : Holds s S)
include h hE hapart hS

/-- The rows joined with one more triple. -/
theorem Matched.probe_rows
    (tp : TriplePattern) : Yields (E.evalPattern s (.join base (.bgp [tp])))
      {ξ | HasDomain ξ (ctx.vars ++ tp.vars) ∧
        ctx.Row Linked E.scalars stmt.whereExpr S (restrict ctx.vars ξ) ∧
          ∃ q ∈ selected S .default, tp.Matches ξ q} := by
  have hbase : Yields (E.evalPattern s base) {μ | HasDomain μ ctx.vars ∧
      ctx.Row Linked E.scalars stmt.whereExpr S (restrict ctx.vars μ)} := by
    refine (h.rows hE hapart hS).congr fun μ => ?_
    constructor
    · intro hrow
      refine ⟨hrow.domain, ?_⟩
      rw [restrict_of_hasDomain hrow.domain]
      exact hrow
    · rintro ⟨hdom, hrow⟩
      rwa [restrict_of_hasDomain hdom] at hrow
  have hprobe : Yields (E.evalPattern s (.bgp [tp])) {μ | HasDomain μ tp.vars ∧
      ∃ q ∈ selected S .default, tp.Matches μ q} := by
    refine (hE.bgp hS [tp] (noMisread_single tp S .default)).congr fun μ => ?_
    simp only [Set.mem_ofPred_eq, Solves, bgpVars, flatMap_singleton, mem_singleton, forall_eq]
  have hlocal : Local tp.vars fun μ => ∃ q ∈ selected S .default, tp.Matches μ q := by
    rintro μ ν hag ⟨q, hq, hm⟩
    exact ⟨q, hq, (TriplePattern.matches_congr hag).mp hm⟩
  exact hbase.joinLocal row_restrict_local hlocal hprobe

/-- What one side of a deletion leaves. -/
theorem Matched.sideDelete_ran
    {a b c : Variable} (hab : a ≠ b) (hac : a ≠ c) (hbc : b ≠ c) {n : Nat}
    (hrun : E.executeOperation n s (sideDelete base a b c) = (.ok (), s')) :
    ∃ S', Holds s' S' ∧ ∀ q, q ∈ S' ↔ q ∈ S ∧ ¬(q.graphName = .defaultGraph ∧
      ∃ μ, ctx.Row Linked E.scalars stmt.whereExpr S μ ∧ (∀ t, μ a = some t → t = q.subject.toTerm) ∧
        (∀ t, μ b = some t → t = .namedNode q.predicate) ∧ ∀ t, μ c = some t → t = q.object) := by
  obtain ⟨sols, hsols, hafter⟩ := hE.ran hS hrun
  have hrows := hE.whereRows (h.probe_rows hE hapart hS ⟨.var a, .var b, .var c⟩) hsols
  refine ⟨_, hafter, fun q => ?_⟩
  rw [mem_written_delete rfl]
  refine and_congr_right fun hq => ?_
  constructor
  · rintro hnot ⟨hgraph, μ, hrow, ha, hb, hc⟩
    obtain ⟨ξ, hdom, hres, hm⟩ := exists_probe hrow.domain hab hac hbc ha hb hc
    have hmem : ξ ∈ mappings sols := by
      rw [hrows]
      refine ⟨hdom, by rwa [hres], q, Finset.mem_filter.mpr ⟨hq, ?_⟩, hm⟩
      simp [graphMatches, hgraph]
    obtain ⟨sol, hsol, rfl⟩ := hmem
    exact hnot sol hsol _ (mem_singleton_self _) (instantiate_deleteQuad.mpr ⟨hm, hgraph⟩)
  · rintro hnot sol hsol gqp hgqp hinst
    rw [mem_singleton.mp hgqp] at hinst
    obtain ⟨hm, hgraph⟩ := instantiate_deleteQuad.mp hinst
    have hmem : sol.get ∈ mappings sols := ⟨sol, hsol, rfl⟩
    rw [hrows] at hmem
    obtain ⟨_, hrow, _⟩ := hmem
    -- the row binds what it binds as the solution does
    have hsame : ∀ {w : Variable} {t u : Term}, sol.get w = some u →
        restrict ctx.vars sol.get w = some t → t = u := by
      intro w t u hu ht
      by_cases hw : w ∈ ctx.vars
      · rw [restrict_apply_of_mem hw, hu] at ht
        exact (Option.some.inj ht).symm
      · rw [restrict_eq_none hw] at ht
        cases ht
    exact hnot ⟨hgraph, _, hrow, fun t => hsame hm.1, fun t => hsame hm.2.1, fun t => hsame hm.2.2⟩

end

/-- The operations of `DELETE name`, where the name is that of a node. -/
theorem Matched.delete_ops (h : Matched stmt base ctx) (hapart : RelsApart stmt) {name : String} {detach : Bool}
    (hw : stmt.writes = [.delete [name] detach]) (hname : name ∈ stmt.nodeNames) {ops : List DeleteInsert}
    (hr : lowerWrites base ctx stmt.writes = .ok ops) : ∃ i j k l,
      ops = [sideDelete base ⟨name⟩ ⟨LowerCtx.generatedName "del_p" i⟩ ⟨LowerCtx.generatedName "del_o" j⟩,
        sideDelete base ⟨LowerCtx.generatedName "del_s" k⟩ ⟨LowerCtx.generatedName "del_p2" l⟩ ⟨name⟩] := by
  rw [hw] at hr
  obtain ⟨⟨first, ctx₁⟩, hfirst, hr⟩ := bind_ok hr
  obtain ⟨rest, hrest, hr⟩ := bind_ok hr
  cases hrest
  cases hr
  -- the ends of relationships are listed under their names
  have hnode : ctx.relEndpoints.lookup name = none := by
    cases hl : ctx.relEndpoints.lookup name with
    | none => rfl
    | some ends => exact absurd hname (hapart.nodes name (h.named.relEndpoints _ (mem_of_lookup hl)))
  simp only [lowerWrite, lowerDelete, hnode] at hfirst
  obtain ⟨v, hv, hfirst⟩ := bind_ok hfirst
  obtain ⟨rfl, _⟩ := h.written_var hv
  cases hfirst
  exact ⟨_, _, _, _, rfl⟩

end Sides

/-! ## Both sides -/

section Nodes

variable (Linked : PathReading) (scalars : Scalars) (whereExpr : Option Expr) (ctx : LowerCtx) (v : Variable)

/-- No triple of the default graph has a matched node at an end, and a triple that has
none is as it was. -/
structure DeletesNodes (S S' : Finset Quad) : Prop where
  gone : ∀ q ∈ selected S' .default, ∀ x μ, ctx.MatchedAs Linked scalars whereExpr S v x μ →
    q.subject.toTerm ≠ x ∧ q.object ≠ x
  others : ∀ q, (∀ x μ, ctx.MatchedAs Linked scalars whereExpr S v x μ → q.subject.toTerm ≠ x ∧ q.object ≠ x) →
    (q ∈ S' ↔ q ∈ S)

open Classical in
/-- The quads without the triples that have a reached subject. -/
noncomputable def withoutSubjects (S : Finset Quad) : Finset Quad :=
  S.filter fun q => ¬(q.graphName = .defaultGraph ∧ ctx.Reaches Linked scalars whereExpr S v q.subject.toTerm)

open Classical in
theorem mem_withoutSubjects {S : Finset Quad} {q : Quad} : q ∈ withoutSubjects Linked scalars whereExpr ctx v S ↔
    q ∈ S ∧ ¬(q.graphName = .defaultGraph ∧ ctx.Reaches Linked scalars whereExpr S v q.subject.toTerm) := by
  exact Finset.mem_filter

/-- A row reaches every matched node, and still does so for the object of a triple from
outside, when the triples of reached subjects are gone. -/
structure FoundTwice (S : Finset Quad) : Prop where
  reached : ∀ x μ, ctx.MatchedAs Linked scalars whereExpr S v x μ → ctx.Reaches Linked scalars whereExpr S v x
  again : ∀ q ∈ selected S .default, ctx.Reaches Linked scalars whereExpr S v q.object →
    ¬ctx.Reaches Linked scalars whereExpr S v q.subject.toTerm →
    ctx.Reaches Linked scalars whereExpr (withoutSubjects Linked scalars whereExpr ctx v S) v q.object

end Nodes

section Runs

variable {St : Type} {E : Engine St} {Holds : St → Finset Quad → Prop} {Linked : PathReading} {s s' : St}
  {S S' : Finset Quad} {stmt : CypherStatement} {base : GraphPattern} {ctx : LowerCtx} {v : Variable}

theorem reaches_mono (hE : Answers E Holds Linked ctx.paths) (hsub : S' ⊆ S) {x : Term}
    (h : ctx.Reaches Linked E.scalars stmt.whereExpr S' v x) : ctx.Reaches Linked E.scalars stmt.whereExpr S v x := by
  obtain ⟨μ, hrow, hval⟩ := h
  refine ⟨μ, hrow.mono hE.grows hsub, hval.imp_right fun ⟨hv, hx⟩ => ⟨hv, hx.mono hsub⟩⟩

theorem reaches_iff_agrees {x : Term} (hx : NodeOf S x) :
    (∃ μ, ctx.Row Linked E.scalars stmt.whereExpr S μ ∧ ∀ t, μ v = some t → t = x) ↔
      ctx.Reaches Linked E.scalars stmt.whereExpr S v x := by
  constructor
  · rintro ⟨μ, hrow, hagree⟩
    refine ⟨μ, hrow, ?_⟩
    cases hμ : μ v with
    | some t => exact .inl (congrArg some (hagree t hμ))
    | none =>
      refine .inr ⟨fun hv => ?_, hx⟩
      have hsome := (hrow.domain v).mpr hv
      rw [hμ] at hsome
      cases hsome
  · rintro ⟨μ, hrow, hval⟩
    refine ⟨μ, hrow, fun t ht => ?_⟩
    rcases hval with hval | ⟨hv, _⟩
    · exact Option.some.inj (ht.symm.trans hval)
    · exact absurd ((hrow.domain v).mp (by rw [ht]; rfl)) hv

/-- What the two operations leave. -/
theorem Matched.delete_ran (h : Matched stmt base ctx) (hE : Answers E Holds Linked ctx.paths)
    (hapart : RelsApart stmt) {name : String} {detach : Bool} (hw : stmt.writes = [.delete [name] detach])
    (hname : name ∈ stmt.nodeNames) {ops : List DeleteInsert} (hr : lowerWrites base ctx stmt.writes = .ok ops)
    (hS : Holds s S) (hrun : E.executeUpdate ops s = (.ok (), s')) (hS' : Holds s' S') (q : Quad) :
    q ∈ S' ↔ q ∈ withoutSubjects Linked E.scalars stmt.whereExpr ctx ⟨name⟩ S ∧
      ¬(q.graphName = .defaultGraph ∧ ctx.Reaches Linked E.scalars stmt.whereExpr
        (withoutSubjects Linked E.scalars stmt.whereExpr ctx ⟨name⟩ S) ⟨name⟩ q.object) := by
  obtain ⟨i, j, k, l, rfl⟩ := h.delete_ops hapart hw hname hr
  have hgen : ∀ {stem : String}, stem ∈ ["node", "rel", "set_old", "set_val", "remove_old", "del_p", "del_o", "del_s",
      "del_p2"] → ∀ n, Generated (LowerCtx.generatedName stem n) := fun hmem n => generated_of_stem hmem n
  -- the helper variables are new, so a row binds the node only
  have hfree : ∀ {stem : String} {n : Nat} {T : Finset Quad} {μ : Mapping} {t : Term} {P : Prop},
      (⟨LowerCtx.generatedName stem n⟩ : Variable) ∉ ctx.vars → ctx.Row Linked E.scalars stmt.whereExpr T μ →
      μ ⟨LowerCtx.generatedName stem n⟩ = some t → P := by
    intro stem n T μ t P hout hrow ht
    exact absurd ((hrow.domain _).mp (by rw [ht]; rfl)) hout
  have hp : (⟨LowerCtx.generatedName "del_p" i⟩ : Variable) ∉ ctx.vars :=
    h.helper_not_mem hapart i (hgen (by decide)) (generatedName_ne (i := 0) rfl rfl (by decide))
      (generatedName_ne (i := 0) rfl rfl (by decide))
  have ho : (⟨LowerCtx.generatedName "del_o" j⟩ : Variable) ∉ ctx.vars :=
    h.helper_not_mem hapart j (hgen (by decide)) (generatedName_ne (i := 0) rfl rfl (by decide))
      (generatedName_ne (i := 0) rfl rfl (by decide))
  have hs : (⟨LowerCtx.generatedName "del_s" k⟩ : Variable) ∉ ctx.vars :=
    h.helper_not_mem hapart k (hgen (by decide)) (generatedName_ne (i := 0) rfl rfl (by decide))
      (generatedName_ne (i := 0) rfl rfl (by decide))
  have hp2 : (⟨LowerCtx.generatedName "del_p2" l⟩ : Variable) ∉ ctx.vars :=
    h.helper_not_mem hapart l (hgen (by decide)) (generatedName_ne (i := 0) rfl rfl (by decide))
      (generatedName_ne (i := 0) rfl rfl (by decide))
  have hpo : (⟨LowerCtx.generatedName "del_p" i⟩ : Variable) ≠ ⟨LowerCtx.generatedName "del_o" j⟩ := fun heq =>
    generatedName_ne (i := 4) rfl rfl (by decide) i j (congrArg Variable.name heq)
  have hsp : (⟨LowerCtx.generatedName "del_s" k⟩ : Variable) ≠ ⟨LowerCtx.generatedName "del_p2" l⟩ := fun heq =>
    generatedName_ne (i := 4) rfl rfl (by decide) k l (congrArg Variable.name heq)
  obtain ⟨s₁, hfirst, hrest⟩ := Engine.executeFrom_cons hrun
  obtain ⟨s₂, hsecond, hnil⟩ := Engine.executeFrom_cons hrest
  cases hnil
  obtain ⟨S₁, hS₁, hmem₁⟩ := h.sideDelete_ran hE hapart hS (helper_ne_node hapart hname (hgen (by decide) i)).symm
    (helper_ne_node hapart hname (hgen (by decide) j)).symm hpo hfirst
  obtain ⟨S₂, hS₂, hmem₂⟩ := h.sideDelete_ran hE hapart hS₁ hsp (helper_ne_node hapart hname (hgen (by decide) k))
    (helper_ne_node hapart hname (hgen (by decide) l)) hsecond
  cases hE.unique hS' hS₂
  have hend : ∀ {T : Finset Quad} {q : Quad}, q ∈ T → q.graphName = .defaultGraph →
      NodeOf T q.subject.toTerm ∧ NodeOf T q.object := by
    intro T q hq hgraph
    have hsel : q ∈ selected T .default := Finset.mem_filter.mpr ⟨hq, by simp [graphMatches, hgraph]⟩
    exact ⟨⟨q, hsel, .inl rfl⟩, ⟨q, hsel, .inr rfl⟩⟩
  have hS₁eq : S₁ = withoutSubjects Linked E.scalars stmt.whereExpr ctx ⟨name⟩ S := by
    ext q
    rw [hmem₁, mem_withoutSubjects]
    refine and_congr_right fun hq => not_congr (and_congr_right fun hgraph => ?_)
    rw [← reaches_iff_agrees (hend hq hgraph).1]
    refine exists_congr fun μ => and_congr_right fun hrow => ?_
    exact ⟨fun hagree => hagree.1, fun hagree => ⟨hagree, fun t => hfree hp hrow, fun t => hfree ho hrow⟩⟩
  rw [hmem₂, ← hS₁eq]
  refine and_congr_right fun hq => not_congr (and_congr_right fun hgraph => ?_)
  rw [← reaches_iff_agrees (hend hq hgraph).2]
  refine exists_congr fun μ => and_congr_right fun hrow => ?_
  exact ⟨fun hagree => hagree.2.2, fun hagree => ⟨fun t => hfree hs hrow, fun t => hfree hp2 hrow, hagree⟩⟩

end Runs

/-! ## Deleting persons -/

def deletePersons : List DeleteInsert :=
  [sideDelete personContext.joined ⟨"n"⟩ ⟨"_del_p0"⟩ ⟨"_del_o1"⟩,
    sideDelete personContext.joined ⟨"_del_s2"⟩ ⟨"_del_p23"⟩ ⟨"n"⟩]

/-- Bob, who has no label, knows Ann. -/
def knownStore : MemoryStore where
  quads := [⟨.namedNode ⟨"http://ex/ann"⟩, rdfType, .namedNode (labelIri "Person"), .defaultGraph⟩,
    ⟨.namedNode ⟨"http://ex/bob"⟩, relIri "KNOWS", .namedNode ⟨"http://ex/ann"⟩, .defaultGraph⟩]
  namedGraphIris := []
  nodup := by decide +kernel

def annLabel : Quad := ⟨.namedNode ⟨"http://ex/ann"⟩, rdfType, .namedNode (labelIri "Person"), .defaultGraph⟩

def annMapping : Mapping := fun v => if v = ⟨"n"⟩ then some (.namedNode ⟨"http://ex/ann"⟩) else none

theorem row_ann {S : Finset Quad} (h : annLabel ∈ S) :
    personContext.Row linkedAway sampleEngine.scalars none S annMapping := by
  refine ⟨fun v => ?_, ⟨fun tp htp => ?_, nofun⟩, fun w hw => by cases hw⟩
  · have hvars : personContext.vars = [⟨"n"⟩] := by decide
    rw [hvars, mem_singleton]
    by_cases hv : v = ⟨"n"⟩ <;> simp [annMapping, hv]
  · rw [mem_singleton.mp htp]
    exact ⟨annLabel, Finset.mem_filter.mpr ⟨h, rfl⟩, if_pos rfl, rfl, rfl⟩

theorem matchedAs_ann {S : Finset Quad} (h : annLabel ∈ S) :
    personContext.MatchedAs linkedAway sampleEngine.scalars none S ⟨"n"⟩ (.namedNode ⟨"http://ex/ann"⟩) annMapping :=
  (matchedAs_of_bound (by decide)).mpr ⟨row_ann h, if_pos rfl⟩

end Cypher

end Nova
