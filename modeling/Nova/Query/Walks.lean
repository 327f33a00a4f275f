import Nova.Louds.PreparedShape
import Nova.Query.LftjStep
import Nova.Query.Recognize

/-!
# The rows of the walks

A recognised shape is walked by nested loops, or by the body that the engine prepares
for it; without a shape the generic join would run. All of them find assignments of ids
under which the patterns are triples, and decode them.

* `openShape_agrees`: for an expansion, a path of two or three hops and a star, the walk
  and the prepared body return the solutions of the generic join, each as often.
* `closingShape_homomorphic_iff`: for a wedge and a directed triangle they return the
  matches of the patterns exactly when the graph has no match that puts two corners on
  the same node where the walk does not allow it.

The graph is that of a compacted store: the join reads the rings alone.
-/

namespace Nova

open Nova.Lib Nova.Lib.Leapfrog List

namespace Lftj

/-! ## Corners -/

theorem foldl_update_of_not_mem {cells : List (Nat × Nat)} : ∀ {bindings : Bindings} {i : Nat},
    i ∉ cells.map Prod.fst →
      cells.foldl (fun (γ : Bindings) cell => Function.update γ cell.1 (some cell.2)) bindings i = bindings i := by
  induction cells with
  | nil => exact fun _ => rfl
  | cons cell cells ih =>
    intro bindings i hi
    rw [map_cons, mem_cons, not_or] at hi
    rw [foldl_cons, ih hi.2, Function.update_of_ne hi.1]

theorem foldl_update_of_mem {cells : List (Nat × Nat)} : ∀ {bindings : Bindings} {i x : Nat},
    (cells.map Prod.fst).Nodup → (i, x) ∈ cells →
      cells.foldl (fun (γ : Bindings) cell => Function.update γ cell.1 (some cell.2)) bindings i = some x := by
  induction cells with
  | nil => exact nofun
  | cons cell cells ih =>
    intro bindings i x hnodup hmem
    rcases nodup_cons.mp hnodup with ⟨hnot, hnodup'⟩
    rw [foldl_cons]
    rcases mem_cons.mp hmem with rfl | hmem
    · rw [foldl_update_of_not_mem hnot, Function.update_self]
    · exact ih hnodup' hmem

section Corners

variable {corners ids ids' : List Nat} {γ : Bindings}

theorem cornerBindings_none {i : Nat} (hi : i ∉ corners) : cornerBindings corners ids i = none := by
  apply foldl_update_of_not_mem
  intro hmem
  obtain ⟨cell, hcell, rfl⟩ := mem_map.mp hmem
  exact hi (of_mem_zip hcell).1

theorem cornerBindings_forall₂ (hdistinct : corners.Nodup) (hlen : corners.length = ids.length) :
    List.Forall₂ (fun i x => cornerBindings corners ids i = some x) corners ids := by
  apply forall₂_iff_zip.mpr
  refine ⟨hlen, ?_⟩
  intro i x hmem
  apply foldl_update_of_mem _ hmem
  rw [map_fst_zip hlen.le]
  exact hdistinct

theorem eq_cornerBindings (hdistinct : corners.Nodup)
    (hcorners : List.Forall₂ (fun i x => γ i = some x) corners ids)
    (hothers : ∀ i, i ∉ corners → γ i = none) : γ = cornerBindings corners ids := by
  have hcorners' := cornerBindings_forall₂ hdistinct hcorners.length_eq
  funext i
  by_cases hi : i ∈ corners
  · obtain ⟨k, hk, rfl⟩ := mem_iff_getElem.mp hi
    have hk' : k < ids.length := hcorners.length_eq ▸ hk
    exact (hcorners.get hk hk').trans (hcorners'.get hk hk').symm
  · rw [hothers i hi, cornerBindings_none hi]

theorem cornerBindings_injective (hdistinct : corners.Nodup) (hlen : corners.length = ids.length)
    (hlen' : corners.length = ids'.length)
      (h : cornerBindings corners ids = cornerBindings corners ids') : ids = ids' := by
  have hone := cornerBindings_forall₂ hdistinct hlen
  have hother := cornerBindings_forall₂ hdistinct hlen'
  rw [← h] at hother
  have hunique : Relator.RightUnique fun i x => cornerBindings corners ids i = some x :=
    fun i x y hx hy => Option.some.inj (hx.symm.trans hy)
  exact hunique.forall₂ hone hother

end Corners

/-! ## Matches of a plan -/

/-- The corners are bound to the ids, and every pattern of the plan is a triple. -/
structure IsMatch (triples : List Row) (plan : Shapes.ShapePlan) (ids : List Nat) : Prop where
  length : plan.corners.length = ids.length
  triple : ∀ sp ∈ plan.patterns, ∃ t ∈ triples, IsTriple (cornerBindings plan.corners ids) sp t

variable {ids : List Nat} {p : Nat}

section Match

variable {triples : List Row} {plan : Shapes.ShapePlan} {specs : List PatternSpec} {n : Nat} {γ : Bindings}

theorem active_iff_corner (plan : Shapes.ShapePlan) (i : Nat) :
    (∃ sp ∈ plan.patterns, isActiveForVar i sp = true) ↔ i ∈ plan.corners := by
  cases plan <;> simp [Shapes.ShapePlan.patterns, Shapes.ShapePlan.corners, Shapes.edgeSpec,
    isActiveForVar_iff] <;> tauto

theorem isSolution_perm {specs' : List PatternSpec} (hperm : specs.Perm specs') :
    IsSolution triples specs γ ↔ IsSolution triples specs' γ := by
  have hone : ∀ {xs ys : List PatternSpec}, xs.Perm ys → IsSolution triples xs γ → IsSolution triples ys γ := by
    intro xs ys hperm h
    refine ⟨fun sp hsp => h.triple sp (hperm.mem_iff.mpr hsp), ?_⟩
    intro i hi
    obtain ⟨sp, hsp, hact⟩ := h.bound i hi
    exact ⟨sp, hperm.mem_iff.mp hsp, hact⟩
  exact ⟨hone hperm, hone hperm.symm⟩

theorem isSolution_iff_match (hcovers : plan.Covers specs n) :
    IsSolution triples specs γ ↔ ∃ ids, IsMatch triples plan ids ∧ γ = cornerBindings plan.corners ids := by
  rw [← isSolution_perm hcovers.patterns]
  constructor
  · intro h
    -- the values of the corners
    have hbound : List.Forall₂ (fun i x => γ i = some x) plan.corners
        (plan.corners.map fun i => (γ i).getD 0) := by
      rw [forall₂_map_right_iff]
      apply forall₂_same.mpr
      intro i hi
      obtain ⟨sp, hsp, hact⟩ := (active_iff_corner plan i).mpr hi
      obtain ⟨t, -, htriple⟩ := h.triple sp hsp
      obtain ⟨x, hx⟩ := Option.ne_none_iff_exists'.mp (htriple.bound hact)
      rw [hx, Option.getD_some]
    have hothers : ∀ i, i ∉ plan.corners → γ i = none := by
      intro i hi
      by_contra hsome
      exact hi ((active_iff_corner plan i).mp (h.bound i hsome))
    have heq := eq_cornerBindings hcovers.distinct hbound hothers
    refine ⟨_, ⟨hbound.length_eq, ?_⟩, heq⟩
    intro sp hsp
    rw [← heq]
    exact h.triple sp hsp
  · intro h
    obtain ⟨ids, hmatch, rfl⟩ := h
    refine ⟨hmatch.triple, ?_⟩
    intro i hi
    apply (active_iff_corner plan i).mpr
    by_contra hnot
    exact hi (cornerBindings_none hnot)

theorem edge_iff {i j x y : Nat} (hi : γ i = some x) (hj : γ j = some y) :
    (∃ t ∈ triples, IsTriple γ (Shapes.edgeSpec i p j) t) ↔ (x, p, y) ∈ triples := by
  constructor
  · intro h
    obtain ⟨⟨s, q, o⟩, ht, hs, hp, ho⟩ := h
    simp only [Shapes.edgeSpec, resolveField, hi, hj, Option.some.injEq] at hs hp ho
    subst hs hp ho
    exact ht
  · intro h
    exact ⟨_, h, by simp only [Shapes.edgeSpec, resolveField, hi], rfl,
      by simp only [Shapes.edgeSpec, resolveField, hj]⟩

theorem filter_iff {i o x : Nat} (hi : γ i = some x) :
    (∃ t ∈ triples, IsTriple γ ⟨.joinVar i, .const p, .const o⟩ t) ↔ (x, p, o) ∈ triples := by
  constructor
  · intro h
    obtain ⟨⟨s, q, o'⟩, ht, hs, hp, ho⟩ := h
    simp only [resolveField, hi, Option.some.injEq] at hs hp ho
    subst hs hp ho
    exact ht
  · intro h
    exact ⟨_, h, hi, rfl, rfl⟩

/-- The triples that the patterns of a plan become under a row of ids. -/
def rowTriples : Shapes.ShapePlan → List Nat → Option (List Row)
  | .spExpansion plan, [s, o] => some [(s, plan.pFilter, plan.oFilter), (s, plan.pExpand, o)]
  | .twoHop plan, [a, b, c] => some [(a, plan.p1, b), (b, plan.p2, c)]
  | .wedge plan, [a, b, c] => some [(a, plan.predicate, b), (b, plan.predicate, c), (a, plan.predicate, c)]
  | .directedTriangle plan, [a, b, c] => some [(a, plan.p1, b), (b, plan.p2, c), (c, plan.p3, a)]
  | .kChain plan, [a, b, c, d] => some [(a, plan.p1, b), (b, plan.p2, c), (c, plan.p3, d)]
  | .star plan, [s, o1, o2, o3] => some [(s, plan.p1, o1), (s, plan.p2, o2), (s, plan.p3, o3)]
  | _, _ => none

theorem length_of_rowTriples {ts : List Row} (h : rowTriples plan ids = some ts) :
    plan.corners.length = ids.length := by
  unfold rowTriples at h
  split at h
  all_goals first | rfl | exact nomatch h

theorem triples_iff {ts : List Row}
    (h : List.Forall₂ (fun sp t => (∃ t' ∈ triples, IsTriple γ sp t') ↔ t ∈ triples) specs ts) :
    (∀ sp ∈ specs, ∃ t' ∈ triples, IsTriple γ sp t') ↔ ∀ t ∈ ts, t ∈ triples := by
  induction h with
  | nil => simp
  | cons hone _ ih => simp only [forall_mem_cons, hone, ih]

/-- A row matches if the triples it spells out are there. -/
theorem isMatch_iff (hdistinct : plan.corners.Nodup) :
    IsMatch triples plan ids ↔ ∃ ts, rowTriples plan ids = some ts ∧ ∀ t ∈ ts, t ∈ triples := by
  -- for a row of the right length
  have hiff : plan.corners.length = ids.length → ∃ ts, rowTriples plan ids = some ts ∧
      ((∀ sp ∈ plan.patterns, ∃ t ∈ triples, IsTriple (cornerBindings plan.corners ids) sp t) ↔
        ∀ t ∈ ts, t ∈ triples) := by
    intro hlen
    have hbound := cornerBindings_forall₂ hdistinct hlen
    cases plan with
    | spExpansion plan =>
      match ids, hlen with
      | [s, o], _ =>
        obtain - | ⟨hs, - | ⟨ho, -⟩⟩ := hbound
        exact ⟨_, rfl, triples_iff (.cons (filter_iff hs) (.cons (edge_iff hs ho) .nil))⟩
    | twoHop plan =>
      match ids, hlen with
      | [a, b, c], _ =>
        obtain - | ⟨ha, - | ⟨hb, - | ⟨hc, -⟩⟩⟩ := hbound
        exact ⟨_, rfl, triples_iff (.cons (edge_iff ha hb) (.cons (edge_iff hb hc) .nil))⟩
    | wedge plan =>
      match ids, hlen with
      | [a, b, c], _ =>
        obtain - | ⟨ha, - | ⟨hb, - | ⟨hc, -⟩⟩⟩ := hbound
        exact ⟨_, rfl, triples_iff (.cons (edge_iff ha hb) (.cons (edge_iff hb hc) (.cons (edge_iff ha hc) .nil)))⟩
    | directedTriangle plan =>
      match ids, hlen with
      | [a, b, c], _ =>
        obtain - | ⟨ha, - | ⟨hb, - | ⟨hc, -⟩⟩⟩ := hbound
        exact ⟨_, rfl, triples_iff (.cons (edge_iff ha hb) (.cons (edge_iff hb hc) (.cons (edge_iff hc ha) .nil)))⟩
    | kChain plan =>
      match ids, hlen with
      | [a, b, c, d], _ =>
        obtain - | ⟨ha, - | ⟨hb, - | ⟨hc, - | ⟨hd, -⟩⟩⟩⟩ := hbound
        exact ⟨_, rfl, triples_iff (.cons (edge_iff ha hb) (.cons (edge_iff hb hc) (.cons (edge_iff hc hd) .nil)))⟩
    | star plan =>
      match ids, hlen with
      | [s, o1, o2, o3], _ =>
        obtain - | ⟨hs, - | ⟨h1, - | ⟨h2, - | ⟨h3, -⟩⟩⟩⟩ := hbound
        exact ⟨_, rfl, triples_iff (.cons (edge_iff hs h1) (.cons (edge_iff hs h2) (.cons (edge_iff hs h3) .nil)))⟩
  constructor
  · intro h
    obtain ⟨ts, hts, hall⟩ := hiff h.length
    exact ⟨ts, hts, hall.mp h.triple⟩
  · intro h
    obtain ⟨ts, hts, hall⟩ := h
    have hlen := length_of_rowTriples hts
    obtain ⟨ts', hts', hall'⟩ := hiff hlen
    obtain rfl : ts = ts' := Option.some.inj (hts.symm.trans hts')
    exact ⟨hlen, hall'.mpr hall⟩

end Match

/-! ## Rows of a walk -/

section Rows

variable {ds : Dataset} {graph : GraphSelector} {r : GraphRing} {plan : Shapes.ShapePlan}

theorem mem_keys (h : ReadsRing ds graph r) {s p o : Option Nat} {target x : Nat} (htarget : target < 3)
    (hfree : GraphRing.fieldVal s p o target = none) :
    x ∈ keys ds graph s p o target ↔
      ∃ t ∈ r.spoTriples, GraphRing.column t target = x ∧ GraphRing.Matches s p o t := by
  rw [keys_eq h, GraphRing.mem_joinScan htarget hfree]
  simp only [GraphRing.mem_triples]

theorem mem_subjectsOf (h : ReadsRing ds graph r) {a : Nat} :
    a ∈ subjectsOf ds graph p ↔ ∃ b, (a, p, b) ∈ r.spoTriples := by
  rw [subjectsOf, mem_keys h (by omega) rfl]
  simp only [GraphRing.column, GraphRing.Matches, Option.some.injEq, forall_eq', reduceCtorEq, false_imp_iff,
    implies_true, true_and, and_true]
  constructor
  · intro ht
    obtain ⟨⟨s, q, o⟩, ht, rfl, rfl⟩ := ht
    exact ⟨o, ht⟩
  · intro hb
    obtain ⟨b, hb⟩ := hb
    exact ⟨_, hb, rfl, rfl⟩

theorem mem_objectsOf (h : ReadsRing ds graph r) {s b : Nat} :
    b ∈ objectsOf ds graph s p ↔ (s, p, b) ∈ r.spoTriples := by
  rw [objectsOf, mem_keys h (by omega) rfl]
  simp only [GraphRing.column, GraphRing.Matches, Option.some.injEq, forall_eq', reduceCtorEq, false_imp_iff,
    implies_true, and_true]
  constructor
  · intro ht
    obtain ⟨⟨s', q, o⟩, ht, rfl, rfl, rfl⟩ := ht
    exact ht
  · intro hb
    exact ⟨_, hb, rfl, rfl, rfl⟩

theorem mem_filtered (h : ReadsRing ds graph r) {o s : Nat} :
    s ∈ keys ds graph none (some p) (some o) 0 ↔ (s, p, o) ∈ r.spoTriples := by
  rw [mem_keys h (by omega) rfl]
  simp only [GraphRing.column, GraphRing.Matches, Option.some.injEq, forall_eq', reduceCtorEq, false_imp_iff,
    implies_true, true_and]
  constructor
  · intro ht
    obtain ⟨⟨s', q, o'⟩, ht, rfl, rfl, rfl⟩ := ht
    exact ht
  · intro hb
    exact ⟨_, hb, rfl, rfl, rfl⟩

/-- The rows that a walk leaves out. -/
def keeps : Shapes.ShapePlan → List Nat → Bool
  | .wedge _, [a, b, c] => c ≠ a && c ≠ b
  | .directedTriangle _, [a, b, c] => b ≠ a && (c ≠ a && c ≠ b)
  | _, _ => true

/-- The key `a` closes the triangle. -/
theorem head_seek_iff {scan : List Nat} (hasc : scan.Pairwise (· < ·)) {a : Nat} :
    (seek scan a).head? = some a ↔ a ∈ scan := by
  constructor
  · intro h
    exact (seek_sublist scan a).subset (mem_of_head? h)
  · intro h
    exact head_seek_eq hasc h le_rfl fun x _ hx => hx

theorem objectsOf_ascending (h : ReadsRing ds graph r) {s : Nat} : (objectsOf ds graph s p).Pairwise (· < ·) := by
  rw [objectsOf, keys_eq h]
  exact GraphRing.joinScan_ascending

/-- A walk lists the matches that its tests keep; one case for each shape. -/
theorem mem_shapeWalk (h : ReadsRing ds graph r) (hdistinct : plan.corners.Nodup) :
    ids ∈ shapeWalk ds graph plan ↔ IsMatch r.spoTriples plan ids ∧ keeps plan ids = true := by
  rw [isMatch_iff hdistinct]
  constructor
  · intro hids
    cases plan with
    | spExpansion plan =>
      simp only [shapeWalk, spExpansionWalk, h.expand, mem_flatMap, mem_map, mem_filtered h,
        mem_objectsOf h] at hids
      obtain ⟨s, hs, o, ho, rfl⟩ := hids
      exact ⟨⟨_, rfl, by simp [hs, ho]⟩, rfl⟩
    | twoHop plan =>
      simp only [shapeWalk, twoHopWalk, mem_flatMap, mem_map, mem_objectsOf h] at hids
      obtain ⟨a, -, b, hab, c, hbc, rfl⟩ := hids
      exact ⟨⟨_, rfl, by simp [hab, hbc]⟩, rfl⟩
    | wedge plan =>
      simp only [shapeWalk, wedgeWalk, h.collapse, mem_flatMap, mem_map, mem_filter, mem_objectsOf h,
        decide_eq_true_eq] at hids
      obtain ⟨a, -, b, hab, c, ⟨⟨hac, hbc⟩, hkeep⟩, rfl⟩ := hids
      exact ⟨⟨_, rfl, by simp [hab, hac, hbc]⟩, hkeep⟩
    | directedTriangle plan =>
      simp only [shapeWalk, directedTriangleWalk, mem_flatMap, mem_map, mem_filter, mem_objectsOf h,
        decide_eq_true_eq, Bool.and_eq_true, head_seek_iff (objectsOf_ascending h)] at hids
      obtain ⟨a, -, b, ⟨hab, hba⟩, c, ⟨hbc, ⟨hca, hcb⟩, hclose⟩, rfl⟩ := hids
      exact ⟨⟨_, rfl, by simp [hab, hbc, hclose]⟩, by simp [keeps, hba, hca, hcb]⟩
    | kChain plan =>
      simp only [shapeWalk, kChainWalk, mem_flatMap, mem_map, mem_objectsOf h] at hids
      obtain ⟨a, -, b, hab, c, hbc, d, hcd, rfl⟩ := hids
      exact ⟨⟨_, rfl, by simp [hab, hbc, hcd]⟩, rfl⟩
    | star plan =>
      simp only [shapeWalk, starWalk, mem_flatMap, mem_map, mem_objectsOf h] at hids
      obtain ⟨s, -, o1, h1, o2, h2, o3, h3, rfl⟩ := hids
      exact ⟨⟨_, rfl, by simp [h1, h2, h3]⟩, rfl⟩
  · intro hids
    obtain ⟨⟨ts, hts, hall⟩, hkeep⟩ := hids
    -- the row has as many ids as there are corners, and its first edge makes it start
    cases plan with
    | spExpansion plan =>
      obtain ⟨s, o, rfl⟩ := length_eq_two.mp (length_of_rowTriples hts).symm
      obtain rfl := Option.some.inj hts
      simp only [forall_mem_cons, not_mem_nil, false_imp_iff, implies_true, and_true] at hall
      simp only [shapeWalk, spExpansionWalk, h.expand, mem_flatMap, mem_map, mem_filtered h, mem_objectsOf h]
      exact ⟨s, hall.1, o, hall.2, rfl⟩
    | twoHop plan =>
      obtain ⟨a, b, c, rfl⟩ := length_eq_three.mp (length_of_rowTriples hts).symm
      obtain rfl := Option.some.inj hts
      simp only [forall_mem_cons, not_mem_nil, false_imp_iff, implies_true, and_true] at hall
      simp only [shapeWalk, twoHopWalk, mem_flatMap, mem_map, mem_subjectsOf h, mem_objectsOf h]
      exact ⟨a, ⟨b, hall.1⟩, b, hall.1, c, hall.2, rfl⟩
    | wedge plan =>
      obtain ⟨a, b, c, rfl⟩ := length_eq_three.mp (length_of_rowTriples hts).symm
      obtain rfl := Option.some.inj hts
      simp only [forall_mem_cons, not_mem_nil, false_imp_iff, implies_true, and_true] at hall
      obtain ⟨hab, hbc, hac⟩ := hall
      simp only [shapeWalk, wedgeWalk, h.collapse, mem_flatMap, mem_map, mem_filter, mem_subjectsOf h,
        mem_objectsOf h, decide_eq_true_eq]
      exact ⟨a, ⟨b, hab⟩, b, hab, c, ⟨⟨hac, hbc⟩, hkeep⟩, rfl⟩
    | directedTriangle plan =>
      obtain ⟨a, b, c, rfl⟩ := length_eq_three.mp (length_of_rowTriples hts).symm
      obtain rfl := Option.some.inj hts
      simp only [forall_mem_cons, not_mem_nil, false_imp_iff, implies_true, and_true] at hall
      obtain ⟨hab, hbc, hca⟩ := hall
      simp only [keeps, Bool.and_eq_true, decide_eq_true_eq] at hkeep
      simp only [shapeWalk, directedTriangleWalk, mem_flatMap, mem_map, mem_filter, mem_subjectsOf h,
        mem_objectsOf h, decide_eq_true_eq, Bool.and_eq_true, head_seek_iff (objectsOf_ascending h)]
      exact ⟨a, ⟨b, hab⟩, b, ⟨hab, hkeep.1⟩, c, ⟨hbc, hkeep.2, hca⟩, rfl⟩
    | kChain plan =>
      obtain ⟨a, b, c, d, rfl⟩ := length_eq_four.mp (length_of_rowTriples hts).symm
      obtain rfl := Option.some.inj hts
      simp only [forall_mem_cons, not_mem_nil, false_imp_iff, implies_true, and_true] at hall
      simp only [shapeWalk, kChainWalk, mem_flatMap, mem_map, mem_subjectsOf h, mem_objectsOf h]
      exact ⟨a, ⟨b, hall.1⟩, b, hall.1, c, hall.2.1, d, hall.2.2, rfl⟩
    | star plan =>
      obtain ⟨s, o1, o2, o3, rfl⟩ := length_eq_four.mp (length_of_rowTriples hts).symm
      obtain rfl := Option.some.inj hts
      simp only [forall_mem_cons, not_mem_nil, false_imp_iff, implies_true, and_true] at hall
      simp only [shapeWalk, starWalk, mem_flatMap, mem_map, mem_subjectsOf h, mem_objectsOf h]
      exact ⟨s, ⟨o1, hall.1⟩, o1, hall.1, o2, hall.2.1, o3, hall.2.2, rfl⟩

/-- The rows begin with the ids that the walk has chosen, and none comes twice. -/
def Under (chosen : List Nat) (rows : List (List Nat)) : Prop := rows.Nodup ∧ ∀ row ∈ rows, chosen <+: row

theorem under_last {chosen l : List Nat} (hl : l.Nodup) : Under chosen (l.map fun x => chosen ++ [x]) := by
  refine ⟨hl.map fun x y h => by simpa using h, fun row hrow => ?_⟩
  obtain ⟨x, -, rfl⟩ := mem_map.mp hrow
  exact prefix_append chosen [x]

theorem under_flatMap {chosen l : List Nat} (hl : l.Nodup) {f : Nat → List (List Nat)}
    (hrows : ∀ x ∈ l, Under (chosen ++ [x]) (f x)) : Under chosen (l.flatMap f) := by
  constructor
  · refine nodup_flatMap.mpr ⟨fun x hx => (hrows x hx).1, hl.imp_of_mem ?_⟩
    intro x y hx hy hne row hrow hrow'
    have hsame := prefix_of_prefix_length_le ((hrows x hx).2 row hrow) ((hrows y hy).2 row hrow') (by simp)
    exact hne (by simpa using hsame)
  · intro row hrow
    obtain ⟨x, hx, hrow⟩ := mem_flatMap.mp hrow
    exact (prefix_append chosen [x]).trans ((hrows x hx).2 row hrow)

theorem keys_nodup (h : ReadsRing ds graph r) (s p o : Option Nat) (target : Nat) :
    (keys ds graph s p o target).Nodup := by
  rw [keys_eq h]
  exact GraphRing.joinScan_ascending.imp fun hlt => hlt.ne

theorem nodup_shapeWalk (h : ReadsRing ds graph r) (plan : Shapes.ShapePlan) :
    (shapeWalk ds graph plan).Nodup := by
  have hkeys := keys_nodup h
  have hwalk : Under [] (shapeWalk ds graph plan) := by
    cases plan with
    | spExpansion plan =>
      simp only [shapeWalk, spExpansionWalk, h.expand]
      exact under_flatMap (hkeys _ _ _ _) fun s _ => under_last (hkeys _ _ _ _)
    | twoHop plan =>
      exact under_flatMap (hkeys _ _ _ _) fun a _ => under_flatMap (hkeys _ _ _ _) fun b _ =>
        under_last (hkeys _ _ _ _)
    | wedge plan =>
      simp only [shapeWalk, wedgeWalk, h.collapse]
      exact under_flatMap (hkeys _ _ _ _) fun a _ => under_flatMap (hkeys _ _ _ _) fun b _ =>
        under_last (((hkeys _ _ _ _).filter _).filter _)
    | directedTriangle plan =>
      exact under_flatMap (hkeys _ _ _ _) fun a _ => under_flatMap ((hkeys _ _ _ _).filter _) fun b _ =>
        under_last ((hkeys _ _ _ _).filter _)
    | kChain plan =>
      exact under_flatMap (hkeys _ _ _ _) fun a _ => under_flatMap (hkeys _ _ _ _) fun b _ =>
        under_flatMap (hkeys _ _ _ _) fun c _ => under_last (hkeys _ _ _ _)
    | star plan =>
      exact under_flatMap (hkeys _ _ _ _) fun s _ => under_flatMap (hkeys _ _ _ _) fun o1 _ =>
        under_flatMap (hkeys _ _ _ _) fun o2 _ => under_last (hkeys _ _ _ _)
  exact hwalk.1

end Rows

/-! ## Decoding -/

/-- The rows of ids, as the solutions that `emit_…_solution` makes of them. -/
def evalRows (ds : Dataset) (joinVars : List Variable) (plan : Shapes.ShapePlan) (rows : List (List Nat)) :
    Except Panic (List Solution) := do
  let sols ← rows.mapM (emitCorners ds joinVars plan)
  return sols.filterMap id

/-- Every id of the triples has a term. -/
def Decodes (ds : Dataset) (triples : List Row) : Prop :=
  ∀ t ∈ triples, ∀ f, ∃ term, ds.lftjDecodeTerm (GraphRing.column t f) = .ok (some term)

/-- The row of complete bindings whose ids have terms. -/
def decodedRow (ds : Dataset) (joinVars : List Variable) (γ : Bindings) : Solution :=
  let values := (List.range joinVars.length).map fun i => (decodeBinding ds (γ i)).toOption.join
  .row joinVars fun i => (values[i]?).join

section Decode

variable {ds : Dataset} {joinVars : List Variable} {triples : List Row} {plan : Shapes.ShapePlan}

theorem emitRow_ok {γ : Bindings} (h : ∀ i, ∃ term, decodeBinding ds (γ i) = .ok term) :
    emitRow ds joinVars γ = .ok (decodedRow ds joinVars γ) := by
  have heach : ∀ i ∈ List.range joinVars.length,
      decodeBinding ds (γ i) = .ok (decodeBinding ds (γ i)).toOption.join := by
    intro i _
    obtain ⟨term, hterm⟩ := h i
    rw [hterm]
    rfl
  rw [emitRow, mapM_congr_left heach, mapM_ok]
  rfl

theorem IsMatch.decodes (h : IsMatch triples plan ids) (hdecodes : Decodes ds triples) {i : Nat}
    (hi : i ∈ plan.corners) : ∃ term, decodeBinding ds (cornerBindings plan.corners ids i) = .ok (some term) := by
  obtain ⟨sp, hsp, hact⟩ := (active_iff_corner plan i).mpr hi
  obtain ⟨t, ht, hs, hp, ho⟩ := h.triple sp hsp
  rcases isActiveForVar_iff.mp hact with hfield | hfield | hfield
  · rw [hfield, resolveField] at hs
    rw [hs]
    exact hdecodes t ht 0
  · rw [hfield, resolveField] at hp
    rw [hp]
    exact hdecodes t ht 1
  · rw [hfield, resolveField] at ho
    rw [ho]
    exact hdecodes t ht 2

theorem IsMatch.emitRow (h : IsMatch triples plan ids) (hdecodes : Decodes ds triples) :
    emitRow ds joinVars (cornerBindings plan.corners ids) =
      .ok (decodedRow ds joinVars (cornerBindings plan.corners ids)) := by
  apply emitRow_ok
  intro i
  by_cases hi : i ∈ plan.corners
  · obtain ⟨term, hterm⟩ := h.decodes hdecodes hi
    exact ⟨some term, hterm⟩
  · rw [cornerBindings_none hi]
    exact ⟨none, rfl⟩

theorem IsMatch.emitCorners (h : IsMatch triples plan ids) (hdecodes : Decodes ds triples) :
    emitCorners ds joinVars plan ids = .ok (some (decodedRow ds joinVars (cornerBindings plan.corners ids))) := by
  have heach : ∀ i ∈ plan.corners, decodeBinding ds (cornerBindings plan.corners ids i) =
      .ok (decodeBinding ds (cornerBindings plan.corners ids i)).toOption.join := by
    intro i hi
    obtain ⟨term, hterm⟩ := h.decodes hdecodes hi
    rw [hterm]
    rfl
  have hall : ((plan.corners.map fun i => (decodeBinding ds (cornerBindings plan.corners ids i)).toOption.join).all
      Option.isSome) = true := by
    rw [all_map, all_eq_true]
    intro i hi
    obtain ⟨term, hterm⟩ := h.decodes hdecodes hi
    rw [Function.comp_apply, hterm]
    rfl
  have hlen : ¬ ids.length < plan.corners.length := by
    rw [h.length]
    omega
  rw [Lftj.emitCorners, if_neg hlen, h.emitRow hdecodes, mapM_congr_left heach, mapM_ok]
  show Except.ok (if (keepsUndecoded plan || _) = true then some _ else none) = _
  rw [hall, Bool.or_true, if_pos rfl]

theorem evalRows_ok (hdecodes : Decodes ds triples) {rows : List (List Nat)}
    (h : ∀ ids ∈ rows, IsMatch triples plan ids) : evalRows ds joinVars plan rows =
      .ok ((rows.map (cornerBindings plan.corners)).map (decodedRow ds joinVars)) := by
  have heach : ∀ ids ∈ rows, emitCorners ds joinVars plan ids =
      .ok (some (decodedRow ds joinVars (cornerBindings plan.corners ids))) :=
    fun ids hids => (h ids hids).emitCorners hdecodes
  rw [evalRows, mapM_congr_left heach, mapM_ok]
  show Except.ok (List.filterMap id _) = _
  rw [filterMap_map, map_map]
  exact congrArg Except.ok (congrFun filterMap_eq_map rows)

theorem mapM_emitRow (hdecodes : Decodes ds triples) {out : List Bindings}
    (h : ∀ γ ∈ out, ∃ ids, IsMatch triples plan ids ∧ γ = cornerBindings plan.corners ids) :
    out.mapM (emitRow ds joinVars) = .ok (out.map (decodedRow ds joinVars)) := by
  have heach : ∀ γ ∈ out, emitRow ds joinVars γ = .ok (decodedRow ds joinVars γ) := by
    intro γ hγ
    obtain ⟨ids, hmatch, rfl⟩ := h γ hγ
    exact hmatch.emitRow hdecodes
  rw [mapM_congr_left heach, mapM_ok]

end Decode

/-! ## The join on the patterns of a shape -/

section Generic

variable {ds : Dataset} {graph : GraphSelector} {r : GraphRing} {plan : Shapes.ShapePlan}
    {specs : List PatternSpec}
  {n : Nat}

theorem trueScans (h : ReadsRing ds graph r)
    (hjoin : ∀ s p o target, ds.lftjJoinScan s p o target graph = some (r.joinScan s p o target)) :
    TrueScans ds graph r.spoTriples where
  ascending := by
    constructor
    · intro s p o target scan hscan
      rw [hjoin, Option.some.injEq] at hscan
      rw [← hscan]
      exact GraphRing.joinScan_ascending
    · intro subjects predicate scan hscan
      rw [h.collapse] at hscan
      exact nomatch hscan
  each := by
    intro probe hfree
    refine ⟨_, hjoin _ _ _ _, ?_⟩
    intro x
    rw [GraphRing.mem_joinScan hfree.1 hfree.2, Probe.Yields]
    simp only [GraphRing.mem_triples, and_comm]
  apart := h.collapse

theorem noRepeat_patterns (hdistinct : plan.corners.Nodup) : ∀ sp ∈ plan.patterns, NoRepeat sp := by
  intro sp hsp i
  cases plan <;>
    simp only [Shapes.ShapePlan.patterns, Shapes.ShapePlan.corners, mem_cons, not_mem_nil, or_false,
      nodup_cons, not_or, nodup_nil, and_true] at hsp hdistinct <;>
    rcases hsp with rfl | rfl | rfl <;>
    simp [Shapes.edgeSpec] <;> omega

theorem not_ground_patterns : ∀ sp ∈ plan.patterns, isFullyGround sp = false := by
  intro sp hsp
  cases plan <;>
    simp only [Shapes.ShapePlan.patterns, mem_cons, not_mem_nil, or_false] at hsp <;>
    rcases hsp with rfl | rfl | rfl <;> rfl

theorem lftjStep_eq_nil (hcollapse : ∀ subjects predicate,
    ds.lftjMultiSubjectObjectIntersect subjects predicate graph = none)
    (hjoin : ∀ s p o target, ds.lftjJoinScan s p o target graph = none) (hpos : 0 < n)
    (hactive : ∀ i < n, ∃ sp ∈ specs, isActiveForVar i sp = true) {bindings : Bindings} :
    lftjStep ds specs graph n (List.range n) bindings = [] := by
  obtain ⟨m, rfl⟩ := Nat.exists_eq_add_of_lt hpos
  rw [Nat.zero_add] at hactive ⊢
  have hperm := (orderOf ds specs graph).perm bindings (List.range (m + 1))
  have hpick : (orderOf ds specs graph).pick bindings (List.range (m + 1)) =
      order ds specs graph bindings (List.range (m + 1)) := rfl
  rw [hpick] at hperm
  rw [lftjStep]
  rcases horder : order ds specs graph bindings (List.range (m + 1)) with _ | ⟨v, rest⟩
  · rw [horder] at hperm
    exact absurd hperm.length_eq (by simp)
  · rw [horder] at hperm
    obtain ⟨sp, hsp, hact⟩ := hactive v (mem_range.mp (hperm.mem_iff.mp mem_cons_self))
    obtain ⟨first, others, hcons⟩ := exists_cons_of_ne_nil
      (ne_nil_of_mem (mem_filter.mpr ⟨hsp, hact⟩))
    have htry : ∀ resolved, tryCollapse ds graph resolved = none := by
      intro resolved
      rw [tryCollapse_eq]
      cases collapseSubjects resolved with
      | none => rfl
      | some found => exact hcollapse found.1 found.2
    simp only [hcons, isEmpty_cons, Bool.false_eq_true, if_false, openScans, htry, map_cons, mapM_cons,
      hjoin, Option.bind_eq_bind, Option.bind_none]

theorem lftjStep_matches (h : ReadsRing ds graph r) (hne : specs ≠ [])
    (hvars : ∀ sp ∈ specs, ∀ i, isActiveForVar i sp = true → i < n)
    (hactive : ∀ i < n, ∃ sp ∈ specs, isActiveForVar i sp = true) (hnorepeat : ∀ sp ∈ specs, NoRepeat sp)
    (hground : ∀ sp ∈ specs, isFullyGround sp = true → ∃ t ∈ r.spoTriples, IsTriple (fun _ => none) sp t) :
    ListsMatches r.spoTriples specs (lftjStep ds specs graph n (List.range n) fun _ => none) := by
  rcases h.join with hjoin | ⟨hdata, hjoin⟩
  · exact (trueScans h hjoin).lftjStep hvars hnorepeat hground
  · -- without a graph there is no scan, and no triple either
    obtain ⟨sp, hsp⟩ := exists_mem_of_ne_nil specs hne
    have hnone : ∀ t, t ∉ r.spoTriples := by
      intro t ht
      rw [GraphRing.spoTriples, hdata] at ht
      exact absurd ht not_mem_nil
    have hpos : 0 < n := by
      by_contra hzero
      obtain ⟨t, ht, -⟩ := hground sp hsp (isFullyGround_of_inactive fun i => Bool.eq_false_iff.mpr fun hi => by
        have hlt := hvars sp hsp i hi
        omega)
      exact hnone t ht
    rw [lftjStep_eq_nil h.collapse hjoin hpos hactive]
    refine ⟨nodup_nil, fun γ => iff_of_false not_mem_nil fun hsol => ?_⟩
    obtain ⟨t, ht, -⟩ := hsol.triple sp hsp
    exact hnone t ht

theorem lftjStep_listsMatches (h : ReadsRing ds graph r) (hcovers : plan.Covers specs n) :
    ListsMatches r.spoTriples specs (lftjStep ds specs graph n (List.range n) fun _ => none) := by
  have hmem : ∀ {sp}, sp ∈ plan.patterns ↔ sp ∈ specs := hcovers.patterns.mem_iff
  apply lftjStep_matches h
  · rintro rfl
    have hnil := hcovers.patterns.eq_nil
    cases plan <;> cases hnil
  · intro sp hsp i hi
    exact (hcovers.corners i).mp ((active_iff_corner plan i).mp ⟨sp, hmem.mpr hsp, hi⟩)
  · intro i hi
    obtain ⟨sp, hsp, hact⟩ := (active_iff_corner plan i).mpr ((hcovers.corners i).mpr hi)
    exact ⟨sp, hmem.mp hsp, hact⟩
  · exact fun sp hsp => noRepeat_patterns hcovers.distinct sp (hmem.mpr hsp)
  · intro sp hsp hground
    rw [not_ground_patterns sp (hmem.mpr hsp)] at hground
    exact absurd hground Bool.false_ne_true

end Generic

section Walk

variable {ds : Dataset} {graph : GraphSelector} {r : GraphRing} {plan : Shapes.ShapePlan}
    {specs : List PatternSpec}
  {n : Nat}

section

variable (h : ReadsRing ds graph r) (hcovers : plan.Covers specs n)
include h hcovers

theorem walk_bindings : ((shapeWalk ds graph plan).map (cornerBindings plan.corners)).Nodup ∧
      ∀ γ, γ ∈ (shapeWalk ds graph plan).map (cornerBindings plan.corners) ↔
        ∃ ids, IsMatch r.spoTriples plan ids ∧ keeps plan ids = true ∧ γ = cornerBindings plan.corners ids := by
  constructor
  · apply List.Nodup.map_on _ (nodup_shapeWalk h plan)
    intro ids hids ids' hids' heq
    have hlen := ((mem_shapeWalk h hcovers.distinct).mp hids).1.length
    have hlen' := ((mem_shapeWalk h hcovers.distinct).mp hids').1.length
    exact cornerBindings_injective hcovers.distinct hlen hlen' heq
  · intro γ
    simp only [mem_map, mem_shapeWalk h hcovers.distinct, and_assoc, eq_comm (a := γ)]

theorem walk_listsMatches
    (hall : ∀ ids, IsMatch r.spoTriples plan ids → keeps plan ids = true) :
    ListsMatches r.spoTriples specs ((shapeWalk ds graph plan).map (cornerBindings plan.corners)) where
  nodup := (walk_bindings h hcovers).1
  mem := by
    intro γ
    rw [(walk_bindings h hcovers).2, isSolution_iff_match hcovers]
    constructor
    · intro hγ
      obtain ⟨ids, hmatch, -, rfl⟩ := hγ
      exact ⟨ids, hmatch, rfl⟩
    · intro hγ
      obtain ⟨ids, hmatch, rfl⟩ := hγ
      exact ⟨ids, hmatch, hall ids hmatch, rfl⟩

theorem walk_length_lt
    (hmatch : IsMatch r.spoTriples plan ids) (hskipped : keeps plan ids = false) {out : List Bindings}
    (hout : ListsMatches r.spoTriples specs out) : (shapeWalk ds graph plan).length < out.length := by
  obtain ⟨hnodup, hmem⟩ := walk_bindings h hcovers
  -- the walk and the skipped match are all among the matches
  have hnot : cornerBindings plan.corners ids ∉ (shapeWalk ds graph plan).map (cornerBindings plan.corners) := by
    rw [hmem]
    intro hkept
    obtain ⟨ids', hmatch', hkeep, heq⟩ := hkept
    obtain rfl := cornerBindings_injective hcovers.distinct hmatch.length hmatch'.length heq
    rw [hskipped] at hkeep
    exact Bool.false_ne_true hkeep
  have hsub : cornerBindings plan.corners ids :: (shapeWalk ds graph plan).map (cornerBindings plan.corners) ⊆ out := by
    intro γ hγ
    rw [hout.mem, isSolution_iff_match hcovers]
    rcases mem_cons.mp hγ with rfl | hγ
    · exact ⟨ids, hmatch, rfl⟩
    · obtain ⟨ids', hmatch', -, rfl⟩ := (hmem γ).mp hγ
      exact ⟨ids', hmatch', rfl⟩
  have hlen := (subperm_of_subset (nodup_cons.mpr ⟨hnot, hnodup⟩) hsub).length_le
  rw [length_cons, length_map] at hlen
  omega

end

end Walk

/-! ## A state of the store -/

section Store

variable {D : Type} {A : DictApi D} {Knows : D → Names → Prop} {CompactOk : Names → Prop} {names : Names}
  {s : LoudsStore D} {graph : GraphSelector} {plan : Shapes.ShapePlan}

theorem decodes_ringOf (I : Implements A Knows CompactOk) (h : s.Inv Knows names) (graph : GraphSelector) :
    Decodes (s.dataset A) (s.ringOf A graph).spoTriples := by
  intro t ht f
  have hring : ∃ (g : GraphId) (ring : GraphRing), s.graphs[g]? = some ring ∧ t ∈ ring.triples := by
    rw [LoudsStore.ringOf] at ht
    rcases hring : (StoreDataset.graphId (LoudsStore.quadStore A GraphRing.prepareShape s) graph).bind
      fun g => s.graphs[g]? with _ | ring
    · rw [hring] at ht
      exact absurd ht not_mem_nil
    · obtain ⟨g, -, hg⟩ := Option.bind_eq_some_iff.mp hring
      rw [hring] at ht
      exact ⟨g, ring, hg, GraphRing.mem_triples.mpr ht⟩
  obtain ⟨g, ring, hg, hmem⟩ := hring
  obtain ⟨q, sId, pId, oId, hids, rfl⟩ := h.rows g ring hg t hmem
  obtain ⟨-, hs, hp, ho⟩ := Names.quadIds_eq_some.mp hids
  have hterm : ∀ {id : TermId} {term : Term}, names.term id = some term →
      ∃ term, (s.dataset A).lftjDecodeTerm id.asU64 = .ok (some term) := by
    intro id term hid
    obtain ⟨d, harc, -⟩ := I.getTermArc s.dict names id h.knows
    refine ⟨term, ?_⟩
    show (LoudsStore.quadStore A GraphRing.prepareShape s).lftjDecodeTerm id.asU64 = _
    simp only [LoudsStore.quadStore, TermId.new_asU64, harc, ← hid]
    rfl
  rcases f with _ | _ | f
  · exact hterm hs
  · exact hterm hp
  · exact hterm ho

/-- A wedge or a directed triangle: its last edge goes between corners that are bound. -/
def closes : Shapes.ShapePlan → Bool
  | .wedge _ | .directedTriangle _ => true
  | _ => false

theorem keeps_of_open (hopen : closes plan = false) (ids : List Nat) : keeps plan ids = true := by
  cases plan <;> first | rfl | exact nomatch hopen

theorem prepared_eq_walk {body : List (List Nat)}
    (h : (s.dataset A).lftjPrepareShape plan.toPhysical graph = some body) :
    body = shapeWalk (s.dataset A) graph plan := by
  have hbody := LoudsStore.prepareShape_ringOf A s h
  rw [shapeWalk_eq (LoudsStore.readsRing A s graph)] at hbody
  exact (Option.some.inj hbody).symm

/-- Every ring of a compacted graph has a body for every shape. -/
theorem isSome_prepared :
    ((s.dataset A).lftjPrepareShape plan.toPhysical graph).isSome = (s.compactedRing A graph).isSome := by
  have hprepare : (s.dataset A).lftjPrepareShape plan.toPhysical graph =
      (s.compactedRing A graph).bind fun ring => ring.prepareShape plan.toPhysical :=
    (Option.bind_assoc _ _ _).symm
  rw [hprepare]
  have hreads := LoudsStore.readsRing A s graph
  rw [LoudsStore.ringOf_eq] at hreads
  rcases hring : s.compactedRing A graph with _ | ring
  · rfl
  · rw [hring, Option.getD_some] at hreads
    rw [Option.bind_some, shapeWalk_eq hreads]
    rfl

/-- For an expansion, a path of two or three hops and a star, the walk of the shape returns
the solutions that the generic join returns on the patterns, each as often. The engine
prepares a body for the shape just when the graph has been compacted, and the body returns
them as well. -/
theorem openShape_agrees (I : Implements A Knows CompactOk) (h : s.Inv Knows names) (graph : GraphSelector)
    (joinVars : List Variable) (specs : List PatternSpec) (plan : Shapes.ShapePlan)
    (hshape : Shapes.recognizeShape specs joinVars.length = some plan) (hopen : closes plan = false) :
    ∃ generic walk,
      (lftjStep (s.dataset A) specs graph joinVars.length (List.range joinVars.length) fun _ => none).mapM
        (emitRow (s.dataset A) joinVars) = .ok generic ∧
      evalRows (s.dataset A) joinVars plan (shapeWalk (s.dataset A) graph plan) = .ok walk ∧
      walk.Perm generic ∧
      ((s.dataset A).lftjPrepareShape plan.toPhysical graph).isSome = (s.compactedRing A graph).isSome ∧
      ∀ body, (s.dataset A).lftjPrepareShape plan.toPhysical graph = some body →
        ∃ prepared, evalRows (s.dataset A) joinVars plan body = .ok prepared ∧ prepared.Perm generic := by
  have hcovers := Shapes.recognizeShape_covers hshape
  have hdecodes := decodes_ringOf I h graph
  have hreads := LoudsStore.readsRing A s graph
  have hgeneric := lftjStep_listsMatches hreads hcovers
  have hwalk := walk_listsMatches hreads hcovers fun ids _ => keeps_of_open hopen ids
  have hmatches : ∀ ids ∈ shapeWalk (s.dataset A) graph plan, IsMatch (s.ringOf A graph).spoTriples plan ids :=
    fun ids hids => ((mem_shapeWalk hreads hcovers.distinct).mp hids).1
  have heval : evalRows (s.dataset A) joinVars plan (shapeWalk (s.dataset A) graph plan) = _ :=
    evalRows_ok hdecodes hmatches
  have hperm := (hwalk.perm hgeneric).map (decodedRow (s.dataset A) joinVars)
  refine ⟨_, _, mapM_emitRow hdecodes fun γ hγ =>
    (isSolution_iff_match hcovers).mp ((hgeneric.mem γ).mp hγ), heval,
    hperm, isSome_prepared, ?_⟩
  intro body hbody
  rw [prepared_eq_walk hbody]
  exact ⟨_, heval, hperm⟩

/-- The solutions are the rows of the matches of the patterns, each match once. Different
variables may be bound to the same node. -/
def ReturnsMatches (ds : Dataset) (joinVars : List Variable) (triples : List Row) (specs : List PatternSpec)
    (result : Except Panic (List Solution)) : Prop :=
  ∃ out meant sols, ListsMatches triples specs out ∧ out.mapM (emitRow ds joinVars) = .ok meant ∧
    result = .ok sols ∧ sols.Perm meant

/-- No match puts corners on the same node where the walk leaves it out: the predicate of
a wedge links no node to itself, and no two corners of a directed triangle can be one
node. -/
def Proper (triples : List Row) : Shapes.ShapePlan → Prop
  | .wedge plan => ∀ a, (a, plan.predicate, a) ∉ triples
  | .directedTriangle plan => ∀ a b,
    ¬ ((a, plan.p1, a) ∈ triples ∧ (a, plan.p2, b) ∈ triples ∧ (b, plan.p3, a) ∈ triples) ∧
      ¬ ((a, plan.p1, b) ∈ triples ∧ (b, plan.p2, b) ∈ triples ∧ (b, plan.p3, a) ∈ triples) ∧
        ¬ ((a, plan.p1, b) ∈ triples ∧ (b, plan.p2, a) ∈ triples ∧ (a, plan.p3, a) ∈ triples)
  | _ => True

/-- Just where the walk is proper do its tests keep every match. -/
theorem proper_iff {triples : List Row} (hdistinct : plan.corners.Nodup) :
    Proper triples plan ↔ ∀ ids, IsMatch triples plan ids → keeps plan ids = true := by
  simp only [isMatch_iff hdistinct]
  cases plan with
  | wedge plan =>
    constructor
    · intro hproper ids hids
      obtain ⟨ts, hts, hall⟩ := hids
      obtain ⟨a, b, c, rfl⟩ := length_eq_three.mp (length_of_rowTriples hts).symm
      obtain rfl := Option.some.inj hts
      simp only [forall_mem_cons, not_mem_nil, false_imp_iff, implies_true, and_true] at hall
      simp only [keeps, Bool.and_eq_true, decide_eq_true_eq]
      constructor
      · rintro rfl
        exact hproper c hall.2.2
      · rintro rfl
        exact hproper c hall.2.1
    · intro hkeeps a ha
      have hkeep := hkeeps [a, a, a] ⟨_, rfl, by simp [ha]⟩
      simp [keeps] at hkeep
  | directedTriangle plan =>
    constructor
    · intro hproper ids hids
      obtain ⟨ts, hts, hall⟩ := hids
      obtain ⟨a, b, c, rfl⟩ := length_eq_three.mp (length_of_rowTriples hts).symm
      obtain rfl := Option.some.inj hts
      simp only [forall_mem_cons, not_mem_nil, false_imp_iff, implies_true, and_true] at hall
      obtain ⟨hab, hbc, hca⟩ := hall
      simp only [keeps, Bool.and_eq_true, decide_eq_true_eq]
      refine ⟨?_, ?_, ?_⟩
      · rintro rfl
        exact (hproper b c).1 ⟨hab, hbc, hca⟩
      · rintro rfl
        exact (hproper c b).2.2 ⟨hab, hbc, hca⟩
      · rintro rfl
        exact (hproper a c).2.1 ⟨hab, hbc, hca⟩
    · intro hkeeps a b
      refine ⟨?_, ?_, ?_⟩
      · intro hall
        have hkeep := hkeeps [a, a, b] ⟨_, rfl, by simpa using hall⟩
        simp [keeps] at hkeep
      · intro hall
        have hkeep := hkeeps [a, b, b] ⟨_, rfl, by simpa using hall⟩
        simp [keeps] at hkeep
      · intro hall
        have hkeep := hkeeps [a, b, a] ⟨_, rfl, by simpa using hall⟩
        simp [keeps] at hkeep
  | _ => exact ⟨fun _ _ _ => rfl, fun _ => trivial⟩

/-- A walk returns the matches exactly when there is none that it leaves out. -/
theorem walk_returnsMatches_iff (I : Implements A Knows CompactOk) (h : s.Inv Knows names)
    {joinVars : List Variable}
    {specs : List PatternSpec} (hcovers : plan.Covers specs joinVars.length) :
    ReturnsMatches (s.dataset A) joinVars (s.ringOf A graph).spoTriples specs
        (evalRows (s.dataset A) joinVars plan (shapeWalk (s.dataset A) graph plan)) ↔
      Proper (s.ringOf A graph).spoTriples plan := by
  have hdecodes := decodes_ringOf I h graph
  have hreads := LoudsStore.readsRing A s graph
  have hmatches : ∀ ids ∈ shapeWalk (s.dataset A) graph plan, IsMatch (s.ringOf A graph).spoTriples plan ids :=
    fun ids hids => ((mem_shapeWalk hreads hcovers.distinct).mp hids).1
  have heval : evalRows (s.dataset A) joinVars plan (shapeWalk (s.dataset A) graph plan) = _ :=
    evalRows_ok hdecodes hmatches
  have hmeant : ∀ {out : List Bindings}, ListsMatches (s.ringOf A graph).spoTriples specs out →
      out.mapM (emitRow (s.dataset A) joinVars) = .ok (out.map (decodedRow (s.dataset A) joinVars)) :=
    fun hout => mapM_emitRow hdecodes fun γ hγ => (isSolution_iff_match hcovers).mp ((hout.mem γ).mp hγ)
  rw [proper_iff hcovers.distinct]
  constructor
  · intro hreturns ids hmatch
    obtain ⟨out, meant, sols, hout, hrows, hsols, hperm⟩ := hreturns
    by_contra hskipped
    have hlt := walk_length_lt hreads hcovers hmatch (Bool.eq_false_iff.mpr hskipped) hout
    -- as many solutions as rows, and fewer rows than matches
    obtain rfl := Except.ok.inj ((hmeant hout).symm.trans hrows)
    obtain rfl := Except.ok.inj (heval.symm.trans hsols)
    have hlen := hperm.length_eq
    simp only [length_map] at hlen
    omega
  · intro hkeeps
    have hwalk := walk_listsMatches hreads hcovers hkeeps
    exact ⟨_, _, _, hwalk, hmeant hwalk, heval, List.Perm.refl _⟩

/-- The walk of a recognised shape, and the body that the engine prepares for it, return the
matches of the patterns, each once, exactly when no match puts corners on the same node
where the walk leaves it out. -/
theorem shapeWalk_homomorphic_iff (I : Implements A Knows CompactOk) (h : s.Inv Knows names)
    (graph : GraphSelector)
    (joinVars : List Variable) (specs : List PatternSpec) (plan : Shapes.ShapePlan)
    (hshape : Shapes.recognizeShape specs joinVars.length = some plan) :
    (ReturnsMatches (s.dataset A) joinVars (s.ringOf A graph).spoTriples specs
        (evalRows (s.dataset A) joinVars plan (shapeWalk (s.dataset A) graph plan)) ↔
      Proper (s.ringOf A graph).spoTriples plan) ∧
    ∀ body, (s.dataset A).lftjPrepareShape plan.toPhysical graph = some body →
      (ReturnsMatches (s.dataset A) joinVars (s.ringOf A graph).spoTriples specs
          (evalRows (s.dataset A) joinVars plan body) ↔
        Proper (s.ringOf A graph).spoTriples plan) := by
  have hcovers := Shapes.recognizeShape_covers hshape
  refine ⟨walk_returnsMatches_iff I h hcovers, ?_⟩
  intro body hbody
  rw [prepared_eq_walk hbody]
  exact walk_returnsMatches_iff I h hcovers

end Store

/-! ## A node linked to itself -/

/-- Two names, the second one a predicate. -/
def loopNames : Names where
  terms := ⟨[.namedNode ⟨"http://ex/a"⟩, .namedNode ⟨"http://ex/p"⟩], by decide, by decide⟩
  graphs := Names.empty.graphs
  isSealed := false

/-- The default graph has one triple, from a node to itself. -/
def loopStore : LoudsStore Names :=
    { LoudsStore.new loopNames with graphs := (∅ : GraphMap GraphRing).insert 0 (ringBuild [(0, 1, 0)]) }

theorem loopStore_inv : loopStore.Inv (fun d n => d = n ∧ n.isSealed = false) loopNames where
  knows := ⟨rfl, rfl⟩
  rows := by
    intro g ring hring t ht
    have hgraphs : loopStore.graphs = (∅ : GraphMap GraphRing).insert 0 (ringBuild [(0, 1, 0)]) := rfl
    rw [hgraphs, Std.TreeMap.getElem?_insert] at hring
    split at hring
    · next hg =>
      rw [← Option.some.inj hring, GraphRing.mem_triples_ringBuild, mem_singleton] at ht
      rw [← Std.LawfulEqCmp.eq_of_compare hg, ht]
      let q : Quad := ⟨.namedNode ⟨"http://ex/a"⟩, ⟨"http://ex/p"⟩, .namedNode ⟨"http://ex/a"⟩, .defaultGraph⟩
      exact ⟨q, ⟨0, by decide⟩, ⟨1, by decide⟩, ⟨0, by decide⟩, by decide, rfl⟩
    · exact nomatch hring
  keys := by
    intro k b hk
    exact nomatch hk

theorem compactedRing_loopStore : loopStore.compactedRing tableApi .default = some (ringBuild [(0, 1, 0)]) := by
  have hgraphs : loopStore.graphs = (∅ : GraphMap GraphRing).insert 0 (ringBuild [(0, 1, 0)]) := rfl
  have hid : StoreDataset.graphId (LoudsStore.quadStore tableApi GraphRing.prepareShape loopStore) .default =
      some graphDefault := rfl
  rw [LoudsStore.compactedRing, hid, Option.bind_some, hgraphs, graphDefault, Std.TreeMap.getElem?_insert_self]

theorem mem_loopStore : (0, 1, 0) ∈ (loopStore.ringOf tableApi .default).spoTriples := by
  rw [LoudsStore.ringOf_eq, compactedRing_loopStore, Option.getD_some]
  exact mem_singleton_self _

/-- Two hops over the node's link to itself. -/
theorem openShape_agrees_loop :
    ∃ generic walk,
      (lftjStep (loopStore.dataset tableApi) [Shapes.edgeSpec 0 1 1,
        Shapes.edgeSpec 1 1 2] .default 3 (List.range 3)
        fun _ => none).mapM (emitRow (loopStore.dataset tableApi) [⟨"a"⟩, ⟨"b"⟩, ⟨"c"⟩]) = .ok generic ∧
      evalRows (loopStore.dataset tableApi) [⟨"a"⟩, ⟨"b"⟩, ⟨"c"⟩] (.twoHop ⟨1, 1, 0, 1, 2⟩)
        (shapeWalk (loopStore.dataset tableApi) .default (.twoHop ⟨1, 1, 0, 1, 2⟩)) = .ok walk ∧
      walk.Perm generic ∧
      ∃ body prepared, (loopStore.dataset tableApi).lftjPrepareShape (.twoHop 1 1) .default = some body ∧
        evalRows (loopStore.dataset tableApi) [⟨"a"⟩, ⟨"b"⟩, ⟨"c"⟩] (.twoHop ⟨1, 1, 0, 1, 2⟩) body = .ok prepared ∧
          prepared.Perm generic := by
  obtain ⟨generic, walk, hgeneric, hwalk, hperm, hsome, hprepared⟩ :=
    openShape_agrees tableApi_implements loopStore_inv .default [⟨"a"⟩, ⟨"b"⟩, ⟨"c"⟩]
      [Shapes.edgeSpec 0 1 1, Shapes.edgeSpec 1 1 2] (.twoHop ⟨1, 1, 0, 1, 2⟩) (by decide) rfl
  rw [compactedRing_loopStore] at hsome
  obtain ⟨body, hbody⟩ := Option.isSome_iff_exists.mp hsome
  obtain ⟨prepared, heval, hsame⟩ := hprepared body hbody
  exact ⟨generic, walk, hgeneric, hwalk, hperm, body, prepared, hbody, heval, hsame⟩

/-- A wedge over the same link. -/
theorem shapeWalk_homomorphic_iff_loop :
    (ReturnsMatches (loopStore.dataset tableApi) [⟨"a"⟩, ⟨"b"⟩, ⟨"c"⟩] (loopStore.ringOf tableApi .default).spoTriples
        [Shapes.edgeSpec 0 1 1, Shapes.edgeSpec 1 1 2, Shapes.edgeSpec 0 1 2]
        (evalRows (loopStore.dataset tableApi) [⟨"a"⟩, ⟨"b"⟩, ⟨"c"⟩] (.wedge ⟨1, 0, 1, 2⟩)
          (shapeWalk (loopStore.dataset tableApi) .default (.wedge ⟨1, 0, 1, 2⟩))) ↔
      Proper (loopStore.ringOf tableApi .default).spoTriples (.wedge ⟨1, 0, 1, 2⟩)) ∧
    ∀ body, (loopStore.dataset tableApi).lftjPrepareShape (.wedge 1) .default = some body →
      (ReturnsMatches (loopStore.dataset tableApi) [⟨"a"⟩, ⟨"b"⟩, ⟨"c"⟩]
          (loopStore.ringOf tableApi .default).spoTriples
          [Shapes.edgeSpec 0 1 1, Shapes.edgeSpec 1 1 2, Shapes.edgeSpec 0 1 2]
          (evalRows (loopStore.dataset tableApi) [⟨"a"⟩, ⟨"b"⟩, ⟨"c"⟩] (.wedge ⟨1, 0, 1, 2⟩) body) ↔
        Proper (loopStore.ringOf tableApi .default).spoTriples (.wedge ⟨1, 0, 1, 2⟩)) :=
  shapeWalk_homomorphic_iff tableApi_implements loopStore_inv .default [⟨"a"⟩, ⟨"b"⟩, ⟨"c"⟩]
    [Shapes.edgeSpec 0 1 1, Shapes.edgeSpec 1 1 2, Shapes.edgeSpec 0 1 2] (.wedge ⟨1, 0, 1, 2⟩) (by decide)

/-- The three corners of a wedge may all be the node that is linked to itself, and the walk
leaves this match out. -/
theorem wedgeWalk_misses_loop :
    Shapes.recognizeShape [Shapes.edgeSpec 0 1 1, Shapes.edgeSpec 1 1 2, Shapes.edgeSpec 0 1 2] 3 =
        some (.wedge ⟨1, 0, 1, 2⟩) ∧
      ¬ ReturnsMatches (loopStore.dataset tableApi) [⟨"a"⟩, ⟨"b"⟩, ⟨"c"⟩]
        (loopStore.ringOf tableApi .default).spoTriples
        [Shapes.edgeSpec 0 1 1, Shapes.edgeSpec 1 1 2, Shapes.edgeSpec 0 1 2]
        (evalRows (loopStore.dataset tableApi) [⟨"a"⟩, ⟨"b"⟩, ⟨"c"⟩] (.wedge ⟨1, 0, 1, 2⟩)
          (shapeWalk (loopStore.dataset tableApi) .default (.wedge ⟨1, 0, 1, 2⟩))) := by
  have hshape : Shapes.recognizeShape [Shapes.edgeSpec 0 1 1, Shapes.edgeSpec 1 1 2, Shapes.edgeSpec 0 1 2] 3 =
      some (.wedge ⟨1, 0, 1, 2⟩) := by decide
  refine ⟨hshape, ?_⟩
  have hcovers : (Shapes.ShapePlan.wedge ⟨1, 0, 1, 2⟩).Covers
      [Shapes.edgeSpec 0 1 1, Shapes.edgeSpec 1 1 2, Shapes.edgeSpec 0 1 2]
      [(⟨"a"⟩ : Variable), ⟨"b"⟩, ⟨"c"⟩].length := Shapes.tryRecognizeWedge_covers (by decide)
  rw [walk_returnsMatches_iff tableApi_implements loopStore_inv hcovers]
  intro hproper
  exact hproper 0 mem_loopStore

end Lftj

end Nova
