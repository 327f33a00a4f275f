import Nova.Lib.Returns
import Nova.Query.Shapes

/-!
# A recognised plan is its BGP

A plan that `recognizeShape` returns stands for the patterns it was made from: the
patterns of the plan are those of the BGP, each as often, its corners are different
variables, and every variable of the BGP is a corner.

* `recognizeShape_covers`: so it is for every list of patterns.

One lemma for each recogniser says so of its plans. Those that look for their edges
(`tryRecognizeWedge`, `tryRecognizeDirectedTriangle`, `tryRecognizeKChain`,
`tryRecognizeTwoHop`) have in common that every pattern of the plan is one of the
BGP, and that a plan has as many different patterns as the BGP has patterns.
-/

namespace Nova.Shapes

open Nova.Lib List

/-! ## What a recogniser owes -/

/-- The plan is the list of patterns over the variables below `nVars`. -/
structure ShapePlan.Covers (plan : ShapePlan) (specs : List PatternSpec) (nVars : Nat) : Prop where
  /-- Its patterns are those of the list, each as often. -/
  patterns : plan.patterns.Perm specs
  /-- No two of its corners are the same variable. -/
  distinct : plan.corners.Nodup
  /-- Its corners are the variables. -/
  corners : ∀ i, i ∈ plan.corners ↔ i < nVars

theorem perm_of_subset {α : Type} {l specs : List α} (hdistinct : l.Nodup) (hsub : ∀ sp ∈ l, sp ∈ specs)
    (hlen : specs.length ≤ l.length) : l.Perm specs :=
  (subperm_of_subset hdistinct fun _ h => hsub _ h).perm_of_length_le hlen

/-- Different numbers below `n`, as many as there are, are all of them. -/
theorem mem_iff_of_nodup {l : List Nat} {n : Nat} (hdistinct : l.Nodup) (hlt : ∀ i ∈ l, i < n)
    (hlen : l.length = n) (i : Nat) : i ∈ l ↔ i < n := by
  have hperm : l.Perm (List.range n) := by
    apply perm_of_subset hdistinct
    · intro i hi
      exact mem_range.mpr (hlt i hi)
    · rw [length_range, hlen]
  rw [hperm.mem_iff, mem_range]

/-! ## Edges -/

/-- The pattern of an edge. -/
def Edge.spec (e : Edge) : PatternSpec := edgeSpec e.s e.p e.o

theorem edgeOf_eq_some {n : Nat} {sp : PatternSpec} {e : Edge} (h : edgeOf n sp = some e) :
    sp = e.spec ∧ e.s ≠ e.o ∧ e.s < n ∧ e.o < n := by
  rcases sp with ⟨fs, fp, fo⟩
  simp only [edgeOf, Option.bind_eq_bind, Option.bind_eq_some_iff] at h
  obtain ⟨s, hs, p, hp, o, ho, h⟩ := h
  cases fs with
  | const _ => exact nomatch hs
  | joinVar i =>
    cases fp with
    | joinVar _ => exact nomatch hp
    | const c =>
      cases fo with
      | const _ => exact nomatch ho
      | joinVar j =>
        simp only [FieldSpec.asJoin, FieldSpec.asConst, Option.some.injEq] at hs hp ho
        subst hs hp ho
        split at h
        · exact nomatch h
        · rename_i hguard
          simp only [Option.some.injEq] at h
          subst h
          simp only [not_or, ge_iff_le, not_le] at hguard
          exact ⟨rfl, hguard.1, hguard.2.1, hguard.2.2⟩

variable {specs : List PatternSpec}

variable {edges : List Edge}

theorem mapM_edgeOf {n : Nat} (h : specs.mapM (edgeOf n) = some edges) :
    specs = edges.map Edge.spec ∧ ∀ e ∈ edges, e.s ≠ e.o ∧ e.s < n ∧ e.o < n := by
  have heach := forall₂_of_mapM h
  clear h
  induction heach with
  | nil => simp
  | cons he _ ih =>
    obtain ⟨rfl, hrange⟩ := edgeOf_eq_some he
    obtain ⟨rfl, hranges⟩ := ih
    exact ⟨rfl, forall_mem_cons.mpr ⟨hrange, hranges⟩⟩

/-- A list of edges has one from `s` to `o` with the predicate `p`. -/
theorem mem_specs {e : Edge} {s p o : Nat} (he : e ∈ edges) (hs : e.s = s) (hp : e.p = p)
    (ho : e.o = o) : edgeSpec s p o ∈ edges.map Edge.spec := by
  subst hs hp ho
  exact mem_map_of_mem he

theorem perms_spec {a b c : Nat} (h : (a, b, c) ∈ perms) : [a, b, c].Nodup ∧ ∀ i, i ∈ [a, b, c] ↔ i < 3 := by
  simp only [perms, mem_cons, Prod.mk.injEq, not_mem_nil, or_false] at h
  have hdistinct : [a, b, c].Nodup := by
    rcases h with h | h | h | h | h | h <;> obtain ⟨rfl, rfl, rfl⟩ := h <;> decide
  refine ⟨hdistinct, mem_iff_of_nodup hdistinct ?_ rfl⟩
  intro i hi
  simp only [mem_cons, not_mem_nil, or_false] at hi
  omega

/-- Different corners are joined by different edges. -/
theorem patterns_nodup {plan : ShapePlan} (hdistinct : plan.corners.Nodup) : plan.patterns.Nodup := by
  cases plan <;> simp [ShapePlan.patterns, ShapePlan.corners, edgeSpec] at hdistinct ⊢ <;> omega

theorem perm_edges {plan : ShapePlan} (hlen : edges.length = plan.patterns.length)
    (hdistinct : plan.corners.Nodup) (hmem : ∀ sp ∈ plan.patterns, sp ∈ edges.map Edge.spec) :
    plan.patterns.Perm (edges.map Edge.spec) :=
  perm_of_subset (patterns_nodup hdistinct) hmem (by rw [length_map, hlen])

/-! ## The recognisers -/

variable {nVars : Nat}

theorem tryRecognizeWedge_covers {plan : WedgePlan}
    (h : tryRecognizeWedge specs nVars = some plan) : (ShapePlan.wedge plan).Covers specs nVars := by
  simp only [tryRecognizeWedge, Option.bind_eq_bind, Option.bind_eq_some_iff, Option.guard_eq_some'] at h
  obtain ⟨-, ⟨-, rfl⟩, edges, hedges, h⟩ := h
  obtain ⟨rfl, -⟩ := mapM_edgeOf hedges
  split at h
  · rename_i e e' e''
    simp only [Option.bind_eq_some_iff, Option.guard_eq_some'] at h
    obtain ⟨-, ⟨hp, hp'⟩, -, -, h⟩ := h
    obtain ⟨⟨a, b, c⟩, hperm, h⟩ := exists_of_findSome?_eq_some h
    obtain ⟨hdistinct, hcorners⟩ := perms_spec hperm
    simp only [Option.ite_none_right_eq_some, Bool.and_eq_true, any_eq_true, decide_eq_true_eq,
      Option.some.injEq] at h
    obtain ⟨⟨⟨⟨e₁, he₁, hs₁, ho₁⟩, e₂, he₂, hs₂, ho₂⟩, e₃, he₃, hs₃, ho₃⟩, rfl⟩ := h
    -- the three edges have one predicate
    have hpred : ∀ edge ∈ [e, e', e''], edge.p = e.p := by
      intro edge hedge
      simp only [mem_cons, not_mem_nil, or_false] at hedge
      rcases hedge with rfl | rfl | rfl
      · rfl
      · exact hp.symm
      · exact hp'.symm
    refine ⟨?_, hdistinct, hcorners⟩
    refine perm_edges rfl hdistinct ?_
    simp only [ShapePlan.patterns, forall_mem_cons]
    exact ⟨mem_specs he₁ hs₁ (hpred e₁ he₁) ho₁, mem_specs he₂ hs₂ (hpred e₂ he₂) ho₂,
      mem_specs he₃ hs₃ (hpred e₃ he₃) ho₃, forall_mem_nil _⟩
  · exact nomatch h

theorem find_edge {x y p : Nat} (h : (edges.find? fun edge => edge.s = x && edge.o = y).map Edge.p = some p) :
    edgeSpec x p y ∈ edges.map Edge.spec := by
  simp only [Option.map_eq_some_iff] at h
  obtain ⟨e, he, hp⟩ := h
  have hends := find?_some he
  simp only [Bool.and_eq_true, decide_eq_true_eq] at hends
  exact mem_specs (mem_of_find?_eq_some he) hends.1 hp hends.2

theorem tryRecognizeDirectedTriangle_covers {plan : DirectedTrianglePlan}
    (h : tryRecognizeDirectedTriangle specs nVars = some plan) :
    (ShapePlan.directedTriangle plan).Covers specs nVars := by
  simp only [tryRecognizeDirectedTriangle, Option.bind_eq_bind, Option.bind_eq_some_iff,
    Option.guard_eq_some'] at h
  obtain ⟨-, ⟨-, rfl⟩, edges, hedges, h⟩ := h
  obtain ⟨rfl, -⟩ := mapM_edgeOf hedges
  split at h
  · simp only [Option.bind_eq_some_iff, Option.guard_eq_some'] at h
    obtain ⟨-, -, h⟩ := h
    obtain ⟨⟨a, b, c⟩, hperm, h⟩ := exists_of_findSome?_eq_some h
    obtain ⟨hdistinct, hcorners⟩ := perms_spec hperm
    simp only [Option.bind_eq_some_iff, Option.pure_def, Option.some.injEq] at h
    obtain ⟨p1, h1, p2, h2, p3, h3, rfl⟩ := h
    refine ⟨?_, hdistinct, hcorners⟩
    refine perm_edges rfl hdistinct ?_
    simp only [ShapePlan.patterns, forall_mem_cons]
    exact ⟨find_edge h1, find_edge h2, find_edge h3, forall_mem_nil _⟩
  · exact nomatch h

theorem tryRecognizeKChain_covers {plan : KChainPlan}
    (h : tryRecognizeKChain specs nVars = some plan) : (ShapePlan.kChain plan).Covers specs nVars := by
  simp only [tryRecognizeKChain, Option.bind_eq_bind, Option.bind_eq_some_iff, Option.guard_eq_some'] at h
  obtain ⟨-, ⟨-, rfl⟩, edges, hedges, h⟩ := h
  obtain ⟨rfl, hrange⟩ := mapM_edgeOf hedges
  split at h
  · simp only [Option.bind_eq_some_iff, Option.guard_eq_some'] at h
    obtain ⟨-, -, h⟩ := h
    obtain ⟨⟨i, j, k⟩, -, h⟩ := exists_of_findSome?_eq_some h
    simp only [Option.bind_eq_some_iff, Option.guard_eq_some', Option.pure_def, Option.some.injEq] at h
    obtain ⟨e₁, he₁, e₂, he₂, e₃, he₃, -, ⟨hab, hbc⟩, -, hdistinct, -, -, rfl⟩ := h
    have hm₁ := mem_of_getElem? he₁
    have hm₂ := mem_of_getElem? he₂
    have hm₃ := mem_of_getElem? he₃
    refine ⟨?_, hdistinct, mem_iff_of_nodup hdistinct ?_ rfl⟩
    · refine perm_edges rfl hdistinct ?_
      simp only [ShapePlan.patterns, forall_mem_cons]
      exact ⟨mem_specs hm₁ rfl rfl hab, mem_specs hm₂ rfl rfl hbc, mem_specs hm₃ rfl rfl rfl, forall_mem_nil _⟩
    · intro i hi
      simp only [ShapePlan.corners, mem_cons, not_mem_nil, or_false] at hi
      have h₁ := hrange e₁ hm₁
      have h₃ := hrange e₃ hm₃
      omega
  · exact nomatch h

theorem tryRecognizeStar_covers {plan : StarPlan}
    (h : tryRecognizeStar specs nVars = some plan) : (ShapePlan.star plan).Covers specs nVars := by
  simp only [tryRecognizeStar, Option.bind_eq_bind, Option.bind_eq_some_iff, Option.guard_eq_some'] at h
  obtain ⟨-, ⟨-, rfl⟩, edges, hedges, h⟩ := h
  obtain ⟨rfl, hrange⟩ := mapM_edgeOf hedges
  split at h
  · rename_i e e' e''
    simp only [Option.bind_eq_some_iff, Option.guard_eq_some', Option.pure_def, Option.some.injEq] at h
    obtain ⟨-, ⟨hs, hs'⟩, -, hobjects, -, -, -, -, rfl⟩ := h
    have he := hrange e (by simp)
    have he' := hrange e' (by simp)
    have he'' := hrange e'' (by simp)
    -- no arm leads back to the centre
    have hdistinct : [e.s, e.o, e'.o, e''.o].Nodup := by
      apply nodup_cons.mpr
      refine ⟨?_, hobjects⟩
      simp only [mem_cons, not_mem_nil, or_false]
      omega
    refine ⟨?_, hdistinct, mem_iff_of_nodup hdistinct ?_ rfl⟩
    · simp only [ShapePlan.patterns, map_cons, map_nil, Edge.spec, hs, hs', List.Perm.refl]
    · intro i hi
      simp only [ShapePlan.corners, mem_cons, not_mem_nil, or_false] at hi
      omega
  · exact nomatch h

/-- The pattern of an arm. -/
def Arm.spec : Arm → PatternSpec
  | .filter s p o => ⟨.joinVar s, .const p, .const o⟩
  | .expand s p o => edgeSpec s p o

theorem armOf_eq_some {sp : PatternSpec} {arm : Arm} (h : armOf sp = some arm) : sp = arm.spec := by
  rcases sp with ⟨fs, fp, fo⟩
  simp only [armOf, Option.bind_eq_bind, Option.bind_eq_some_iff] at h
  obtain ⟨s, hs, p, hp, h⟩ := h
  cases fs with
  | const _ => exact nomatch hs
  | joinVar i =>
    cases fp with
    | joinVar _ => exact nomatch hp
    | const c =>
      simp only [FieldSpec.asJoin, FieldSpec.asConst, Option.some.injEq] at hs hp
      subst hs hp
      cases fo with
      | const o =>
        simp only [Option.some.injEq] at h
        subst h
        rfl
      | joinVar o =>
        simp only [Option.ite_none_right_eq_some, Option.some.injEq] at h
        rw [← h.2]
        rfl

theorem mapM_armOf {arms : List Arm} (h : specs.mapM armOf = some arms) : specs = arms.map Arm.spec := by
  have heach := forall₂_of_mapM h
  clear h
  induction heach with
  | nil => rfl
  | cons harm _ ih => rw [map_cons, armOf_eq_some harm, ih]

theorem tryRecognizeSpExpansion_covers {plan : SpExpansionPlan}
    (h : tryRecognizeSpExpansion specs nVars = some plan) : (ShapePlan.spExpansion plan).Covers specs nVars := by
  simp only [tryRecognizeSpExpansion, Option.bind_eq_bind, Option.bind_eq_some_iff, Option.guard_eq_some'] at h
  obtain ⟨-, ⟨-, rfl⟩, arms, harms, h⟩ := h
  have hspecs := mapM_armOf harms
  subst hspecs
  -- in either order of the two patterns the same plan is built
  have hcorners : ∀ {s o : Nat}, ¬ (s ≥ 2 ∨ o ≥ 2 ∨ s = o) → [s, o].Nodup ∧ ∀ i, i ∈ [s, o] ↔ i < 2 := by
    intro s o hne
    have hdistinct : [s, o].Nodup := by
      simp only [nodup_cons, mem_cons, not_mem_nil, or_false, not_false_eq_true, nodup_nil,
        and_true]
      omega
    refine ⟨hdistinct, mem_iff_of_nodup hdistinct ?_ rfl⟩
    intro i hi
    simp only [mem_cons, not_mem_nil, or_false] at hi
    omega
  split at h
  · simp only [Option.ite_none_left_eq_some, not_or, Option.some.injEq, ne_eq, not_not] at h
    obtain ⟨⟨rfl, hne⟩, rfl⟩ := h
    obtain ⟨hdistinct, hcorners⟩ := hcorners (by simpa only [not_or] using hne)
    exact ⟨List.Perm.refl _, hdistinct, hcorners⟩
  · simp only [Option.ite_none_left_eq_some, not_or, Option.some.injEq, ne_eq, not_not] at h
    obtain ⟨⟨rfl, hne⟩, rfl⟩ := h
    obtain ⟨hdistinct, hcorners⟩ := hcorners (by simpa only [not_or] using hne)
    exact ⟨List.Perm.swap _ _ _, hdistinct, hcorners⟩
  · exact nomatch h

theorem tryRecognizeTwoHop_covers {plan : TwoHopPlan}
    (h : tryRecognizeTwoHop specs nVars = some plan) : (ShapePlan.twoHop plan).Covers specs nVars := by
  simp only [tryRecognizeTwoHop, Option.bind_eq_bind, Option.bind_eq_some_iff, Option.guard_eq_some'] at h
  obtain ⟨-, ⟨-, rfl⟩, edges, hedges, h⟩ := h
  obtain ⟨rfl, hrange⟩ := mapM_edgeOf hedges
  split at h
  · rename_i e e'
    simp only [Option.bind_eq_some_iff, Option.guard_eq_some'] at h
    obtain ⟨-, -, h⟩ := h
    obtain ⟨⟨e₁, e₂⟩, hpair, h⟩ := exists_of_findSome?_eq_some h
    simp only [Option.bind_eq_some_iff, Option.guard_eq_some', Option.pure_def, Option.some.injEq] at h
    obtain ⟨-, hab, -, hdistinct, -, -, rfl⟩ := h
    have hmem : e₁ ∈ [e, e'] ∧ e₂ ∈ [e, e'] := by
      simp only [mem_cons, Prod.mk.injEq, not_mem_nil, or_false] at hpair ⊢
      rcases hpair with ⟨rfl, rfl⟩ | ⟨rfl, rfl⟩ <;> simp
    refine ⟨?_, hdistinct, mem_iff_of_nodup hdistinct ?_ rfl⟩
    · refine perm_edges rfl hdistinct ?_
      simp only [ShapePlan.patterns, forall_mem_cons]
      exact ⟨mem_specs hmem.1 rfl rfl hab, mem_specs hmem.2 rfl rfl rfl, forall_mem_nil _⟩
    · intro i hi
      simp only [ShapePlan.corners, mem_cons, not_mem_nil, or_false] at hi
      have h₁ := hrange e₁ hmem.1
      have h₂ := hrange e₂ hmem.2
      omega
  · exact nomatch h

/-! ## The catalog -/

/-- A plan of the catalog stands for its BGP: the patterns of the plan are the given
ones, each as often, its corners are different variables, and all of them. -/
theorem recognizeShape_covers {specs : List PatternSpec} {nVars : Nat} {plan : ShapePlan}
    (h : recognizeShape specs nVars = some plan) : plan.Covers specs nVars := by
  simp only [recognizeShape, Option.or_eq_some_iff, Option.map_eq_some_iff] at h
  rcases h with ⟨wedge, h, rfl⟩ | ⟨-, ⟨triangle, h, rfl⟩ | ⟨-, ⟨chain, h, rfl⟩ | ⟨-, ⟨star, h, rfl⟩ |
    ⟨-, ⟨expansion, h, rfl⟩ | ⟨-, hop, h, rfl⟩⟩⟩⟩⟩
  · exact tryRecognizeWedge_covers h
  · exact tryRecognizeDirectedTriangle_covers h
  · exact tryRecognizeKChain_covers h
  · exact tryRecognizeStar_covers h
  · exact tryRecognizeSpExpansion_covers h
  · exact tryRecognizeTwoHop_covers h

/-- A chain whose hops come in another order. -/
theorem recognizeShape_covers_chain :
    (ShapePlan.kChain ⟨10, 11, 12, 2, 0, 3, 1⟩).Covers [edgeSpec 0 11 3, edgeSpec 3 12 1, edgeSpec 2 10 0] 4 :=
  recognizeShape_covers (by decide)

end Nova.Shapes
