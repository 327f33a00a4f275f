import Nova.Louds.CltjScan
import Nova.Query.LftjStep
import Nova.Ring.Collapse

/-!
# The join over the two engines

Both engines answer the join's calls from what they hold of a graph: the LOUDS engine
from six succinct tries, the ring engine from an image with wavelet columns, which
also offers one scan in the place of several.

* `rightScans_of_stepFits`: when the scans of a step have in common what they should.
* `lftjStep_order_free`: where every step that is reached is such a step, the order of
  elimination makes no difference, and the solutions are emitted once each.
* `collapse_emits_no_solution`: a step over an image that is not.
-/

namespace Nova.Lftj

open Nova.Lib Nova.Lib.Leapfrog List

/-- What an engine holds of a compacted graph. -/
inductive Engine where
  | louds (ring : Cltj.GraphRing)
  | braided (img : Ring.BraidedGraphImage) (d2Enabled : Bool)

namespace Engine

/-- The published image, where every graph is the one that is looked at. -/
def snapshot (img : Ring.BraidedGraphImage) : Option
    (Nat → Option Ring.BraidedGraphImage) := some fun _ => some img

/-- The calls of the join, answered by an engine. -/
def source : Engine → JoinSource
  | .louds ring =>
    { State := Cltj.JoinIter
      cursor := Cltj.scanCursor
      joinScan := fun s p o target => (ring.joinScanConcrete s p o target).toOption.map some
      multiSubjectObjectIntersect := fun _ _ => none }
  | .braided img d2Enabled =>
    { State := Ring.ScanIter
      cursor := img.cursor
      joinScan := fun s p o target => (img.joinScanStreaming s p o target).map some
      multiSubjectObjectIntersect := fun subjects predicate =>
        Ring.lftjMultiSubjectObjectIntersect d2Enabled (snapshot img) subjects predicate 0 }

/-- The engine holds the triples. -/
def Built (triples : List Row) : Engine → Prop
  | .louds ring => Cltj.ringBuild triples = .ok ring
  | .braided img _ => Ring.BuiltFrom triples img

/-- The rows of a probe that are read into a list, if they are, come in the order of the
target. -/
def ReadsSortedAt (triples : List Row) (probe : Probe) : Prop :=
  Ring.ReadsSorted (Ring.distinctRows triples) (Ring.targetCol probe.target)
    (Ring.leadOf probe.s probe.p probe.o probe.target) (Ring.midOf probe.s probe.p probe.o probe.target)

/-- When the scans of a step have in common what they should: the numbers of the ids
fit. In an image, moreover, the objects that the first three subjects share, under any
predicates, must be linked from all of them by the predicate, where one scan is taken for
all subjects; otherwise the rows that are read into a list must be sorted. -/
def StepFits (triples : List Row) (resolved : List Probe) : Engine → Prop
  | .louds _ => Cltj.FitsU32 triples
  | .braided img d2Enabled =>
    Ring.FitsU32 triples ∧
      match collapseSubjects resolved with
      | some (subjects, predicate) =>
        if (Ring.lftjMultiSubjectObjectIntersect d2Enabled (snapshot img) subjects predicate 0).isSome then
          ∀ o, (∀ s ∈ subjects.take 3, Ring.Linked triples none s o) →
            ∀ s ∈ subjects, Ring.Linked triples predicate s o
        else ∀ probe ∈ resolved, ReadsSortedAt triples probe
      | none => ∀ probe ∈ resolved, ReadsSortedAt triples probe

end Engine

/-! ## One step -/

section Step

variable {triples : List Row} {resolved : List Probe}

theorem rightScans_louds {ring : Cltj.GraphRing} (hbuilt : (Engine.louds ring).Built triples)
    (hfits : Cltj.FitsU32 triples) (hne : resolved ≠ []) (hfree : ∀ probe ∈ resolved, probe.Free) :
    RightScans (Engine.louds ring).source triples resolved := by
  obtain ⟨ring', hbuild, href⟩ := Cltj.ringBuild_refines hfits
  obtain rfl : ring' = ring := Except.ok.inj (hbuild.symm.trans hbuilt)
  apply rightScans_of_each hne
  · cases collapseSubjects resolved <;> rfl
  · intro probe hprobe
    obtain ⟨scan, keys, hscan, hlists, hasc, hmem⟩ := Cltj.joinScans_of_refines href probe.s probe.p probe.o
      probe.target (hfree probe hprobe).1 (hfree probe hprobe).2
    refine ⟨scan, keys, ?_, obeys_of_lists hlists, hasc, ?_⟩
    · show (ring'.joinScanConcrete probe.s probe.p probe.o probe.target).toOption.map some = _
      rw [hscan]
      rfl
    · intro x
      rw [hmem, Probe.Yields]
      simp only [and_comm]

theorem mem_oracleJoinScan {probe : Probe} (hfree : probe.Free) {x : Nat} :
    x ∈ Ring.oracleJoinScan triples probe.s probe.p probe.o probe.target ↔ probe.Yields triples x := by
  have htarget : min probe.target 2 = probe.target := by
    have h := hfree.1
    omega
  have hfield : ∀ (t : Row) (f : Nat), Ring.field t f = GraphRing.column t f := by
    intro t f
    rcases f with _ | _ | f <;> rfl
  have hmatch : ∀ t : Row, Ring.matchesRow probe.s probe.p probe.o t = true ↔
      GraphRing.Matches probe.s probe.p probe.o t := by
    intro t
    simp only [Ring.matchesRow, GraphRing.Matches, Bool.and_eq_true, Option.all_eq_true, beq_iff_eq, and_assoc]
  rw [Ring.oracleJoinScan, Sorted.mem_ofList, htarget, Probe.Yields]
  simp only [mem_map, mem_filter, hfield, hmatch, and_assoc]

theorem ownOf_of_free {probe : Probe} (hfree : probe.Free) :
    Ring.ownOf probe.s probe.p probe.o probe.target = none := by
  obtain ⟨hlt, hnone⟩ := hfree
  have hcases : probe.target = 0 ∨ probe.target = 1 ∨ probe.target = 2 := by omega
  rcases hcases with h | h | h
  all_goals
    rw [h] at hnone ⊢
    exact hnone

/-- The scans of a step, collapsed or one by one, list the right ids. -/
theorem rightScans_braided {img : Ring.BraidedGraphImage} {d2Enabled : Bool}
    (hbuilt : (Engine.braided img d2Enabled).Built triples) (hne : resolved ≠ [])
    (hfree : ∀ probe ∈ resolved, probe.Free) (hstep : (Engine.braided img d2Enabled).StepFits triples resolved) :
    RightScans (Engine.braided img d2Enabled).source triples resolved := by
  obtain ⟨hfits, hstep⟩ := hstep
  -- scans that are opened one by one
  have heach : ((collapseSubjects resolved).bind fun found =>
        (Engine.braided img d2Enabled).source.multiSubjectObjectIntersect found.1 found.2) = none →
      (∀ probe ∈ resolved, Engine.ReadsSortedAt triples probe) →
        RightScans (Engine.braided img d2Enabled).source triples resolved := by
    intro hcollapse hsorted
    apply rightScans_of_each hne hcollapse
    intro probe hprobe
    obtain ⟨scan, hscan, hlists⟩ := (Ring.joinScan_lists_iff triples img hfits hbuilt probe.s probe.p probe.o
      probe.target (ownOf_of_free (hfree probe hprobe))).mpr (hsorted probe hprobe)
    refine ⟨scan, _, ?_, obeys_of_lists hlists, Sorted.pairwise_ofList _,
      fun x => mem_oracleJoinScan (hfree probe hprobe)⟩
    show (img.joinScanStreaming probe.s probe.p probe.o probe.target).map some = _
    rw [hscan]
    rfl
  rcases hsubjects : collapseSubjects resolved with _ | ⟨subjects, predicate⟩
  · simp only [hsubjects] at hstep
    apply heach _ hstep
    rw [hsubjects]
    rfl
  simp only [hsubjects] at hstep
  rcases hscan : Ring.lftjMultiSubjectObjectIntersect d2Enabled (Engine.snapshot img) subjects predicate 0 with _ | scan
  · rw [hscan, if_neg (by simp)] at hstep
    apply heach _ hstep
    rw [hsubjects]
    exact hscan
  -- one scan in the place of all
  rw [hscan, if_pos Option.isSome_some] at hstep
  have hlists := (Ring.collapse_lists_iff triples img hfits hbuilt resolved subjects predicate hsubjects d2Enabled _ 0
    rfl scan hscan).mpr hstep
  refine ⟨[scan], [Ring.commonObjects triples resolved], ?_, .cons (obeys_of_lists hlists) .nil, cons_ne_nil _ _,
    ?_, ?_⟩
  · have hfound : ((collapseSubjects resolved).bind fun found =>
        (Engine.braided img d2Enabled).source.multiSubjectObjectIntersect found.1 found.2) = some scan := by
      rw [hsubjects]
      exact hscan
    rw [JoinSource.openScans, hfound]
  · intro front hfront
    rw [mem_singleton] at hfront
    rw [hfront]
    apply inter_pairwise
    intro keys hkeys
    obtain ⟨probe, -, rfl⟩ := mem_map.mp hkeys
    exact Sorted.pairwise_ofList _
  · intro x
    have hmap : resolved.map (fun probe =>
        Ring.oracleJoinScan triples probe.s probe.p probe.o probe.target) ≠ [] := by
      rw [ne_eq, map_eq_nil_iff]
      exact hne
    rw [Common, forall_mem_singleton, Ring.commonObjects, Ring.mem_inter_iff hmap, forall_mem_map]
    exact forall₂_congr fun probe hprobe => mem_oracleJoinScan (hfree probe hprobe)

theorem rightScans_of_stepFits {e : Engine} (hbuilt : e.Built triples) (hne : resolved ≠ [])
    (hfree : ∀ probe ∈ resolved, probe.Free) (hstep : e.StepFits triples resolved) :
    RightScans e.source triples resolved := by
  cases e with
  | louds ring => exact rightScans_louds hbuilt hstep hne hfree
  | braided img d2Enabled => exact rightScans_braided hbuilt hne hfree hstep

end Step

/-! ## The whole join -/

/-- The join over an engine, from the start. -/
def Engine.join (e : Engine) (specs : List PatternSpec) (nVars : Nat) (order : EliminationOrder) (fuel : Nat) :
    Option (List Bindings) :=
  e.source.lftjStep specs order fuel nVars (List.range nVars) fun _ => none

/-- Every step of the join that is reached is met by the condition. -/
def Engine.RunFits (e : Engine) (triples : List Row) (specs : List PatternSpec) (nVars : Nat)
    (order : EliminationOrder) : Prop :=
  RunRight (fun resolved => e.StepFits triples resolved) triples specs order nVars (List.range nVars) fun _ => none

/-- The join emits the same assignments in any two orders: those under which every
pattern is a triple, each once. It is so in every run whose steps open scans that fit; the
ground patterns, for which no scan is opened, are triples. -/
theorem lftjStep_order_free (e : Engine) (triples : List Row) (hbuilt : e.Built triples) (specs : List PatternSpec)
    (nVars : Nat) (hvars : ∀ sp ∈ specs, ∀ i, isActiveForVar i sp = true → i < nVars)
    (hnorepeat : ∀ sp ∈ specs, NoRepeat sp)
    (hground : ∀ sp ∈ specs, isFullyGround sp = true → ∃ t ∈ triples, IsTriple (fun _ => none) sp t)
    (order order' : EliminationOrder) (hrun : e.RunFits triples specs nVars order)
    (hrun' : e.RunFits triples specs nVars order') :
    ∃ bound, ∀ fuel ≥ bound, ∃ out out', e.join specs nVars order fuel = some out ∧
      e.join specs nVars order' fuel = some out' ∧ out.Perm out' ∧ out.Nodup ∧
        ∀ bindings, bindings ∈ out ↔ IsSolution triples specs bindings := by
  have hstart : Reached triples specs (List.range nVars) fun _ => none :=
    .start hvars fun sp hsp h => hground sp hsp (isFullyGround_of_inactive h)
  have hone : ∀ order, e.RunFits triples specs nVars order → ∃ bound, ∀ fuel ≥ bound, ∃ out,
      e.join specs nVars order fuel = some out ∧ out.Nodup ∧
        ∀ bindings, bindings ∈ out ↔ IsSolution triples specs bindings := by
    intro order hrun
    have hright : RunRight (RightScans e.source triples) triples specs order nVars (List.range nVars) fun _ => none :=
      hrun.imp (fun resolved hne hfree hstep => rightScans_of_stepFits hbuilt hne hfree hstep) nodup_range
        fun _ _ => rfl
    obtain ⟨bound, hbound⟩ := JoinSource.lftjStep_spec hnorepeat length_range hstart hright
    refine ⟨bound, ?_⟩
    intro fuel hfuel
    obtain ⟨out, hout, hemits⟩ := hbound fuel hfuel
    exact ⟨out, hout, (hemits.listsMatches hvars).nodup, (hemits.listsMatches hvars).mem⟩
  obtain ⟨bound, hbound⟩ := hone order hrun
  obtain ⟨bound', hbound'⟩ := hone order' hrun'
  refine ⟨max bound bound', ?_⟩
  intro fuel hfuel
  obtain ⟨out, hout, hnodup, hmem⟩ := hbound fuel (by omega)
  obtain ⟨out', hout', hnodup', hmem'⟩ := hbound' fuel (by omega)
  refine ⟨out, out', hout, hout', ?_, hnodup, hmem⟩
  apply (perm_ext_iff_of_nodup hnodup hnodup').mpr
  intro bindings
  rw [hmem, hmem']

theorem louds_runFits {ring : Cltj.GraphRing} {triples : List Row} (hfits : Cltj.FitsU32 triples)
    (specs : List PatternSpec) (nVars : Nat) (order : EliminationOrder) :
    (Engine.louds ring).RunFits triples specs nVars order :=
  RunRight.always fun _ => hfits

namespace EliminationOrder

/-- The variables as they come. -/
def asGiven : EliminationOrder where
  pick _ unbound := unbound
  perm _ _ := List.Perm.refl _

/-- The last variable first. -/
def backward : EliminationOrder where
  pick _ unbound := unbound.reverse
  perm _ unbound := unbound.reverse_perm

end EliminationOrder

/-- Three variables joined in a triangle, eliminated from either end. -/
theorem lftjStep_order_free_triangle :
    ∃ ring, Cltj.ringBuild [(1, 9, 2), (2, 9, 3), (1, 9, 3)] = .ok ring ∧ ∃ bound, ∀ fuel ≥ bound, ∃ out out',
      (Engine.louds ring).join [Shapes.edgeSpec 0 9 1, Shapes.edgeSpec 1 9 2,
        Shapes.edgeSpec 0 9 2] 3 .asGiven fuel =
        some out ∧
      (Engine.louds ring).join [Shapes.edgeSpec 0 9 1, Shapes.edgeSpec 1 9 2,
        Shapes.edgeSpec 0 9 2] 3 .backward fuel =
        some out' ∧ out.Perm out' ∧ out.Nodup ∧
      ∀ bindings, bindings ∈ out ↔ IsSolution [(1, 9, 2), (2, 9, 3), (1, 9, 3)]
        [Shapes.edgeSpec 0 9 1, Shapes.edgeSpec 1 9 2, Shapes.edgeSpec 0 9 2] bindings := by
  have hfits : Cltj.FitsU32 [(1, 9, 2), (2, 9, 3), (1, 9, 3)] := by constructor <;> decide
  obtain ⟨ring, hbuild, -⟩ := Cltj.ringBuild_refines hfits
  refine ⟨ring, hbuild, ?_⟩
  apply lftjStep_order_free (.louds ring) _ hbuild
  · intro sp hsp i hi
    rw [isActiveForVar_iff] at hi
    simp only [mem_cons, not_mem_nil, or_false] at hsp
    rcases hsp with rfl | rfl | rfl <;> simp only [Shapes.edgeSpec, FieldSpec.joinVar.injEq, reduceCtorEq, false_or] at hi <;>
      omega
  · intro sp hsp i
    simp only [mem_cons, not_mem_nil, or_false] at hsp
    rcases hsp with rfl | rfl | rfl <;> simp [Shapes.edgeSpec] <;> omega
  · intro sp hsp hg
    simp only [mem_cons, not_mem_nil, or_false] at hsp
    rcases hsp with rfl | rfl | rfl <;> exact absurd hg (by decide)
  · exact louds_runFits hfits _ _ _
  · exact louds_runFits hfits _ _ _

/-- The objects of two subjects under one predicate, from an image in which they share an
object under different predicates: the object is emitted. -/
theorem collapse_emits_no_solution :
    ¬ ∃ bound, ∀ fuel ≥ bound, ∃ out,
      (Engine.braided (Ring.sampleImage [(1, 2, 5), (3, 4, 5)]) true).join
        [⟨.const 1, .const 2, .joinVar 0⟩, ⟨.const 3, .const 2, .joinVar 0⟩] 1 .asGiven fuel = some out ∧
      ∀ bindings, bindings ∈ out ↔ IsSolution [(1, 2, 5), (3, 4, 5)]
        [⟨.const 1, .const 2, .joinVar 0⟩, ⟨.const 3, .const 2, .joinVar 0⟩] bindings := by
  intro hclaim
  obtain ⟨bound, hbound⟩ := hclaim
  obtain ⟨out, hout, hmem⟩ := hbound (max bound 2) (by omega)
  -- the scan in the place of the two lists the object
  have hfits : Ring.FitsU32 [(1, 2, 5), (3, 4, 5)] := ⟨by decide +kernel, by decide +kernel⟩
  have himg : Ring.BuiltFrom [(1, 2, 5), (3, 4, 5)] (Ring.sampleImage [(1, 2, 5), (3, 4, 5)]) := .inr ⟨true, rfl⟩
  have hscan : (Ring.sampleImage [(1, 2, 5), (3, 4, 5)]).multiSubjectObjectIntersect true [1, 3] =
      some (.d1Object ⟨0, 1⟩ ⟨1, 2⟩ (some 4)) := by decide +kernel
  have hlists := Ring.multiSubject_lists hfits (himg.imageOf hfits) hscan
  have hshared : Ring.sharedObjects [(1, 2, 5), (3, 4, 5)] ([1, 3].take 3) = [5] := by decide +kernel
  have hfronts : Fronts (Ring.sampleImage [(1, 2, 5), (3, 4, 5)]).cursor [.d1Object ⟨0, 1⟩ ⟨1, 2⟩
      (some 4)] [[5]] :=
    .cons (obeys_of_lists hlists) .nil
  have hopen : (Engine.braided (Ring.sampleImage [(1, 2, 5), (3, 4, 5)]) true).source.openScans
      [⟨some 1, some 2, none, 2⟩, ⟨some 3, some 2, none, 2⟩] = some (some [.d1Object ⟨0, 1⟩ ⟨1, 2⟩ (some 4)]) := by
    have hsubjects : collapseSubjects [⟨some 1, some 2, none, 2⟩, ⟨some 3, some 2, none, 2⟩] =
        some ([1, 3], some 2) := by decide +kernel
    have hmulti : Ring.lftjMultiSubjectObjectIntersect true (Engine.snapshot (Ring.sampleImage [(1,
      2, 5), (3, 4, 5)]))
        [1, 3] (some 2) 0 = some (.d1Object ⟨0, 1⟩ ⟨1, 2⟩ (some 4)) := by decide +kernel
    have hfound : ((collapseSubjects [⟨some 1, some 2, none, 2⟩, ⟨some 3, some 2, none, 2⟩]).bind fun found =>
        (Engine.braided (Ring.sampleImage [(1, 2, 5), (3, 4, 5)]) true).source.multiSubjectObjectIntersect
          found.1 found.2) = some (.d1Object ⟨0, 1⟩ ⟨1, 2⟩ (some 4)) := by
      exact hmulti
    rw [JoinSource.openScans, hfound]
  have hrun : (Engine.braided (Ring.sampleImage [(1, 2, 5), (3, 4, 5)]) true).join
      [⟨.const 1, .const 2, .joinVar 0⟩, ⟨.const 3, .const 2, .joinVar 0⟩] 1 .asGiven (max bound 2) =
        some [Function.update (fun _ => none) 0 (some 5)] := by
    have hrem : remaining [[5]] < max bound 2 := by
      have hone : remaining [[5]] = 1 := rfl
      omega
    let out : Nat → List Bindings := fun x => [Function.update (fun _ => none) 0 (some x)]
    have hvisit : ∀ x ∈ inter [[5]], (fun x => some (out x)) x = some (out x) := fun _ _ => rfl
    have hloop := joinLoop_eq hfronts (cons_ne_nil _ _)
      (forall_mem_singleton.mpr (pairwise_singleton _ 5)) hrem hrem hvisit
    have hpick : EliminationOrder.asGiven.pick (fun _ => none) (List.range 1) = [0] := rfl
    have hactive : ([⟨.const 1, .const 2, .joinVar 0⟩, ⟨.const 3, .const 2, .joinVar 0⟩] : List PatternSpec).filter
        (isActiveForVar 0) = [⟨.const 1, .const 2, .joinVar 0⟩, ⟨.const 3, .const 2, .joinVar 0⟩] := by decide
    have hresolved : ([⟨.const 1, .const 2, .joinVar 0⟩, ⟨.const 3, .const 2, .joinVar 0⟩] : List PatternSpec).map
        (resolveForVar 0 fun _ => none) = [⟨some 1, some 2, none, 2⟩, ⟨some 3, some 2, none, 2⟩] := by decide
    rw [Engine.join, JoinSource.lftjStep, hpick]
    exact hloop
  rw [hrun, Option.some.injEq] at hout
  -- subject 3 does not have it under the predicate
  have hsol := (hmem (Function.update (fun _ => none) 0 (some 5))).mp (hout ▸ mem_cons_self)
  obtain ⟨t, ht, hs, hp, -⟩ := hsol.triple ⟨.const 3, .const 2, .joinVar 0⟩ (by simp)
  simp only [mem_cons, not_mem_nil, or_false] at ht
  rcases ht with rfl | rfl
  · exact absurd hs (by decide)
  · exact absurd hp (by decide)

end Nova.Lftj
