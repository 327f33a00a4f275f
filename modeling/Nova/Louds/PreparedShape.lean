import Nova.Louds.Source
import Nova.Query.Lftj

/-!
# Prepared shapes

A recognised shape is handed to the engine as its constants. The LOUDS engine answers
with an operator over the ring of the graph, whose body emits the rows of ids: nested
loops over join scans, with the closing tests of a wedge and of a directed triangle.

* `shapeWalk_eq`: over the scans of the same ring, the walk of the shape emits the rows
  of the body, in the same order.

A scan is the list of keys it has in front of it, as in `joinScan`. The operator holds a
snapshot of the ring, which is the ring itself here.
-/

namespace Nova

open Nova.Lib Nova.Lib.Leapfrog List

/-! ## The bodies -/

/-- `merge_intersect_sorted`. -/
def mergeIntersectSorted : List Nat → List Nat → List Nat
  | [], _ => []
  | _ :: _, [] => []
  | a :: left, b :: right =>
    if a < b then mergeIntersectSorted left (b :: right)
    else if b < a then mergeIntersectSorted (a :: left) right
    else a :: mergeIntersectSorted left right
termination_by left right => left.length + right.length

namespace GraphRing

variable (r : GraphRing)

/-- `two_hop_body`. -/
def twoHopBody (p1 p2 : Nat) : List (List Nat) :=
  (r.joinScan none (some p1) none 0).flatMap fun a =>
    (r.joinScan (some a) (some p1) none 2).flatMap fun b =>
      (r.joinScan (some b) (some p2) none 2).map fun c => [a, b, c]

/-- `sp_expansion_body`. -/
def spExpansionBody (pFilter oFilter pExpand : Nat) : List (List Nat) :=
  (r.joinScan none (some pFilter) (some oFilter) 0).flatMap fun s =>
    (r.joinScan (some s) (some pExpand) none 2).map fun o => [s, o]

/-- `wedge_body`: the objects of `a` are collected once for all `b` below it. -/
def wedgeBody (predicate : Nat) : List (List Nat) :=
  (r.joinScan none (some predicate) none 0).flatMap fun a =>
    let aObjs := r.joinScan (some a) (some predicate) none 2
    if aObjs.isEmpty then []
    else
      (r.joinScan (some a) (some predicate) none 2).flatMap fun b =>
        let bObjs := r.joinScan (some b) (some predicate) none 2
        ((mergeIntersectSorted aObjs bObjs).filter fun c => c ≠ a && c ≠ b).map fun c => [a, b, c]

/-- `k_chain_body`. -/
def kChainBody (p1 p2 p3 : Nat) : List (List Nat) :=
  (r.joinScan none (some p1) none 0).flatMap fun a =>
    (r.joinScan (some a) (some p1) none 2).flatMap fun b =>
      (r.joinScan (some b) (some p2) none 2).flatMap fun c =>
        (r.joinScan (some c) (some p3) none 2).map fun d => [a, b, c, d]

/-- `star_body`: a subject without objects in some arm is skipped, before the other arms
are looked at. -/
def starBody (p1 p2 p3 : Nat) : List (List Nat) :=
  (r.joinScan none (some p1) none 0).flatMap fun s =>
    let o1s := r.joinScan (some s) (some p1) none 2
    if o1s.isEmpty then []
    else
      let o2s := r.joinScan (some s) (some p2) none 2
      if o2s.isEmpty then []
      else
        let o3s := r.joinScan (some s) (some p3) none 2
        if o3s.isEmpty then []
        else o1s.flatMap fun o1 => o2s.flatMap fun o2 => o3s.map fun o3 => [s, o1, o2, o3]

/-- `directed_triangle_body`: the last edge is looked for by a seek. -/
def directedTriangleBody (p1 p2 p3 : Nat) : List (List Nat) :=
  (r.joinScan none (some p1) none 0).flatMap fun a =>
    (r.joinScan (some a) (some p1) none 2).flatMap fun b =>
      if b ≠ a then
        (r.joinScan (some b) (some p2) none 2).flatMap fun c =>
          if c ≠ a && c ≠ b then
            let close := seek (r.joinScan (some c) (some p3) none 2) a
            if close.head? = some a then [[a, b, c]] else []
          else []
      else []

/-- `prepare_shape`: the rows that the operator of a shape emits. -/
def prepareShape : PhysicalShape → Option (List (List Nat))
  | .twoHop p1 p2 => some (r.twoHopBody p1 p2)
  | .wedge predicate => some (r.wedgeBody predicate)
  | .directedTriangle p1 p2 p3 => some (r.directedTriangleBody p1 p2 p3)
  | .spExpansion pFilter oFilter pExpand => some (r.spExpansionBody pFilter oFilter pExpand)
  | .kChain p1 p2 p3 => some (r.kChainBody p1 p2 p3)
  | .star p1 p2 p3 => some (r.starBody p1 p2 p3)

end GraphRing

/-! ## Merging two scans -/

theorem mergeIntersectSorted_eq {left right : List Nat} (hleft : left.Pairwise (· < ·))
    (hright : right.Pairwise (· < ·)) : mergeIntersectSorted left right = left.filter fun k => k ∈ right := by
  fun_induction mergeIntersectSorted left right with
  | case1 right => rfl
  | case2 a left => simp
  | case3 a left b right hlt ih =>
    -- no key of the second scan is as small as `a`
    rcases pairwise_cons.mp hleft with ⟨-, hleft'⟩
    rcases pairwise_cons.mp hright with ⟨hb, -⟩
    have hnot : a ∉ b :: right := by
      intro hmem
      rcases mem_cons.mp hmem with rfl | hmem
      · omega
      · have hlt' := hb a hmem
        omega
    rw [ih hleft' hright, filter_cons_of_neg (by simpa using hnot)]
  | case4 a left b right hlt hgt ih =>
    -- no key of the first scan is as small as `b`
    rcases pairwise_cons.mp hleft with ⟨ha, -⟩
    rcases pairwise_cons.mp hright with ⟨-, hright'⟩
    rw [ih hleft hright']
    apply filter_congr
    intro k hk
    have hne : k ≠ b := by
      rcases mem_cons.mp hk with rfl | hk
      · omega
      · have hlt' := ha k hk
        omega
    simp only [mem_cons, hne, false_or]
  | case5 a left b right hlt hgt ih =>
    obtain rfl : a = b := by omega
    rcases pairwise_cons.mp hleft with ⟨ha, hleft'⟩
    rcases pairwise_cons.mp hright with ⟨-, hright'⟩
    rw [ih hleft' hright', filter_cons_of_pos (by simp)]
    congr 1
    apply filter_congr
    intro k hk
    have hne : k ≠ a := by
      have hlt' := ha k hk
      omega
    simp only [mem_cons, hne, false_or]

/-! ## The walks over the same ring -/

/-- The scans of one graph of a dataset are those of a ring. A graph that the store does
not have has no scans, and no ring either. -/
structure ReadsRing (ds : Dataset) (graph : GraphSelector) (r : GraphRing) : Prop where
  join : (∀ s p o target, ds.lftjJoinScan s p o target graph = some (r.joinScan s p o target)) ∨
    r.data = none ∧ ∀ s p o target, ds.lftjJoinScan s p o target graph = none
  collapse : ∀ subjects predicate, ds.lftjMultiSubjectObjectIntersect subjects predicate graph = none
  expand : ∀ p, ds.lftjPrepareSpObjectScan p graph = none

namespace Lftj

variable {ds : Dataset} {graph : GraphSelector} {r : GraphRing}

theorem keys_eq (h : ReadsRing ds graph r) (s p o : Option Nat) (target : Nat) :
    keys ds graph s p o target = r.joinScan s p o target := by
  rcases h.join with hjoin | ⟨hdata, hjoin⟩
  · rw [keys, hjoin, Option.getD_some]
  · rw [keys, hjoin, GraphRing.joinScan, hdata, Option.getD_none]

theorem flatMap_ite {α β : Type} (l : List α) (P : α → Prop) [DecidablePred P] (f : α → List β) :
    (l.flatMap fun x => if P x then f x else []) = (l.filter fun x => P x).flatMap f := by
  induction l with
  | nil => rfl
  | cons x l ih =>
    rw [flatMap_cons, ih]
    rw [filter_cons]
    by_cases hx : P x
    · rw [if_pos hx, if_pos (decide_eq_true hx), flatMap_cons]
    · rw [if_neg hx, if_neg (by simpa using hx), nil_append]

theorem product_eq_nil {α β : Type} {l₁ l₂ l₃ : List α} (f : α → α → α → β) (h : l₁ = [] ∨ l₂ = [] ∨ l₃ = []) :
    (l₁.flatMap fun x => l₂.flatMap fun y => l₃.map fun z => f x y z) = [] := by
  rcases h with rfl | rfl | rfl
  · rfl
  · simp only [flatMap_nil, flatMap_eq_nil_iff, implies_true]
  · simp only [map_nil, flatMap_eq_nil_iff, implies_true]

/-- The walk of a shape emits the rows of the body that the engine prepares for it. -/
theorem shapeWalk_eq (h : ReadsRing ds graph r) (plan : Shapes.ShapePlan) :
    r.prepareShape plan.toPhysical = some (shapeWalk ds graph plan) := by
  cases plan with
  | spExpansion plan =>
    simp only [Shapes.ShapePlan.toPhysical, GraphRing.prepareShape, GraphRing.spExpansionBody, shapeWalk,
      spExpansionWalk, h.expand, objectsOf, keys_eq h]
  | twoHop plan =>
    simp only [Shapes.ShapePlan.toPhysical, GraphRing.prepareShape, GraphRing.twoHopBody, shapeWalk, twoHopWalk,
      subjectsOf, objectsOf, keys_eq h]
  | wedge plan =>
    simp only [Shapes.ShapePlan.toPhysical, GraphRing.prepareShape, GraphRing.wedgeBody, shapeWalk, wedgeWalk,
      h.collapse, subjectsOf, objectsOf, keys_eq h, Option.some.injEq]
    congr 1
    funext a
    split
    · next hempty => rw [List.isEmpty_iff.mp hempty, flatMap_nil]
    · congr 1
      funext b
      rw [mergeIntersectSorted_eq GraphRing.joinScan_ascending GraphRing.joinScan_ascending]
  | directedTriangle plan =>
    simp only [Shapes.ShapePlan.toPhysical, GraphRing.prepareShape, GraphRing.directedTriangleBody, shapeWalk,
      directedTriangleWalk, subjectsOf, objectsOf, keys_eq h, Option.some.injEq]
    congr 1
    funext a
    rw [flatMap_ite]
    congr 1
    funext b
    rw [flatMap_ite _ (fun c => (decide (c ≠ a) && decide (c ≠ b)) = true), flatMap_ite, filter_filter,
      ← map_eq_flatMap]
    congr 2
    funext c
    simp only [Bool.decide_eq_true, Bool.and_comm]
  | kChain plan =>
    simp only [Shapes.ShapePlan.toPhysical, GraphRing.prepareShape, GraphRing.kChainBody, shapeWalk, kChainWalk,
      subjectsOf, objectsOf, keys_eq h]
  | star plan =>
    simp only [Shapes.ShapePlan.toPhysical, GraphRing.prepareShape, GraphRing.starBody, shapeWalk, starWalk,
      subjectsOf, objectsOf, keys_eq h, Option.some.injEq]
    congr 1
    funext s
    -- an empty arm leaves nothing of the product
    split
    · next hempty => exact (product_eq_nil _ (.inl (List.isEmpty_iff.mp hempty))).symm
    split
    · next hempty => exact (product_eq_nil _ (.inr (.inl (List.isEmpty_iff.mp hempty)))).symm
    split
    · next hempty => exact (product_eq_nil _ (.inr (.inr (List.isEmpty_iff.mp hempty)))).symm
    · rfl

end Lftj

/-! ## A state of the store -/

namespace LoudsStore

variable {D : Type} (A : DictApi D) (s : LoudsStore D)

/-- The store under the query layer, with the operators that it prepares. -/
abbrev dataset : Dataset := storeDataset (quadStore A GraphRing.prepareShape s)

/-- The ring of the graph that a selector names; without it, a ring without data. -/
def ringOf (graph : GraphSelector) : GraphRing :=
  ((StoreDataset.graphId (quadStore A GraphRing.prepareShape s) graph).bind fun g => s.graphs[g]?).getD .empty

/-- The ring that a compaction has built for the graph, if there is one. -/
def compactedRing (graph : GraphSelector) : Option GraphRing :=
  (StoreDataset.graphId (quadStore A GraphRing.prepareShape s) graph).bind fun g => s.graphs[g]?

theorem ringOf_eq (graph : GraphSelector) : ringOf A s graph = (compactedRing A s graph).getD .empty := rfl

theorem readsRing (graph : GraphSelector) : ReadsRing (dataset A s) graph (ringOf A s graph) where
  join := by
    have hscan : ∀ sv pv ov target, (dataset A s).lftjJoinScan sv pv ov target graph =
        (StoreDataset.graphId (quadStore A GraphRing.prepareShape s) graph).bind fun g =>
          (s.graphs[g]?).elim (some []) fun ring => some (ring.joinScan sv pv ov target) := by
      intro sv pv ov target
      show (StoreDataset.graphId _ graph).bind _ = _
      congr 1
      funext g
      simp only [quadStore]
      cases s.graphs[g]? <;> rfl
    simp only [hscan, ringOf]
    rcases StoreDataset.graphId (quadStore A GraphRing.prepareShape s) graph with _ | g
    · exact .inr ⟨rfl, fun _ _ _ _ => rfl⟩
    · left
      intro sv pv ov target
      simp only [Option.bind_some]
      cases s.graphs[g]? with
      | none => rfl
      | some ring => rfl
  collapse := by
    intro subjects predicate
    show (StoreDataset.graphId _ graph).bind (fun _ => none) = none
    cases StoreDataset.graphId (quadStore A GraphRing.prepareShape s) graph <;> rfl
  expand := by
    intro p
    show (StoreDataset.graphId _ graph).bind (fun _ => none) = none
    cases StoreDataset.graphId (quadStore A GraphRing.prepareShape s) graph <;> rfl

theorem prepareShape_ringOf {graph : GraphSelector} {shape : PhysicalShape} {body : List (List Nat)}
    (h : (dataset A s).lftjPrepareShape shape graph = some body) : (ringOf A s graph).prepareShape shape = some body := by
  have hprepare : (dataset A s).lftjPrepareShape shape graph =
      (StoreDataset.graphId (quadStore A GraphRing.prepareShape s) graph).bind fun g =>
        s.graphs[g]?.bind fun ring => ring.prepareShape shape := rfl
  obtain ⟨g, hg, h⟩ := Option.bind_eq_some_iff.mp h
  obtain ⟨ring, hring, h⟩ := Option.bind_eq_some_iff.mp h
  rw [ringOf, hg, Option.bind_some, hring, Option.getD_some]
  exact h

end LoudsStore

end Nova
