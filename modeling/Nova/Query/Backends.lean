import Nova.Louds.Source
import Nova.Query.TextSearch
import Nova.Ring.Refine

/-!
# The backends

A server opens one of several backends. After the same writes they hold the same quads:
those that some write inserts and no later write removes (`LastInserts`). The generic
evaluator reads no more of a store than the set of its quads, so it returns the same rows
over each of them, up to their order (`SameRows`): each once for every choice of graphs
that hold its triples, whatever the order of the patterns.
-/

namespace Nova

open Nova.Lib List

/-! ## The last write -/

/-- Some write inserts the quad, and no later one removes it. -/
def LastInserts (q : Quad) (ws : List QuadOp) : Prop :=
  ∃ front back, ws = front ++ .insert q :: back ∧ QuadOp.remove q ∉ back

variable {q : Quad} {ws : List QuadOp}

theorem lastInserts_concat {w : QuadOp} :
    LastInserts q (ws ++ [w]) ↔ w = .insert q ∨ w ≠ .remove q ∧ LastInserts q ws := by
  constructor
  · rintro ⟨front, back, heq, hback⟩
    rcases eq_nil_or_concat' back with rfl | ⟨back, w', rfl⟩
    · exact .inl (cons.inj (append_inj' heq rfl).2).1
    · rw [← cons_append, ← append_assoc] at heq
      obtain ⟨rfl, hw⟩ := append_inj' heq rfl
      cases hw
      rw [mem_append, mem_singleton, not_or] at hback
      exact .inr ⟨fun h => hback.2 h.symm, front, back, rfl, hback.1⟩
  · rintro (rfl | ⟨hw, front, back, rfl, hback⟩)
    · exact ⟨ws, [], rfl, not_mem_nil⟩
    · refine ⟨front, back ++ [w], by simp, ?_⟩
      rw [mem_append, mem_singleton, not_or]
      exact ⟨hback, fun h => hw h.symm⟩

theorem mem_foldl_applyPlain : q ∈ ws.foldl Spec.applyPlain ∅ ↔ LastInserts q ws := by
  induction ws using reverseRecOn with
  | nil => simp [LastInserts]
  | append_singleton ws w ih =>
    rw [foldl_append, foldl_cons, foldl_nil, lastInserts_concat, ← ih]
    cases w with
    | insert q' => simp [Spec.applyPlain, eq_comm]
    | remove q' => simp [Spec.applyPlain, eq_comm]

/-- The in-memory store after the writes. -/
abbrev MemoryStore.after (ws : List QuadOp) : MemoryStore := MemoryStore.new.applyBatch ws

theorem MemoryStore.serves_after (ws : List QuadOp) :
    Serves (after ws).quadStore (ws.foldl Spec.applyPlain ∅) fun _ => True := by
  have hserves := (after ws).serves
  rwa [Update.memory_appliesBatches .new ∅ ws _ rfl rfl] at hserves

/-! ## The generic evaluator over two stores -/

/-- Two BGPs, each over its store, return the same rows up to their order. -/
def SameRows (graph : GraphSelector) (st : QuadStore) (patterns : List TriplePattern) (st' : QuadStore)
    (patterns' : List TriplePattern) : Prop :=
  ∃ sols sols', evalBgpNested (storeDataset st) .new patterns graph = .ok sols ∧
    evalBgpNested (storeDataset st') .new patterns' graph = .ok sols' ∧
    (sols.map Solution.get).Perm (sols'.map Solution.get)

section Stores

variable {st : QuadStore} {S : Finset Quad} {Known : Term → Prop} {patterns patterns' : List TriplePattern}
  {graph : GraphSelector}

open Classical in
/-- The selected graphs that hold the instance of a pattern. -/
noncomputable def holders (S : Finset Quad) (graph : GraphSelector) (μ : Mapping) (tp : TriplePattern) :
    Finset GraphName :=
  ((selected S graph).filter fun q => tp.Matches μ q).image Quad.graphName

/-- Where nothing is read past a predicate, each graph that holds the instance has one fitting quad. -/
theorem card_fitting {before : List Variable} {tp : TriplePattern} {μ : Mapping}
    (hno : ¬Bypassed before tp.predicate μ) :
    (fitting S graph before tp μ).card = (holders S graph μ tp).card := by
  classical
  rw [holders, Finset.card_image_of_injOn]
  · refine congrArg Finset.card (Finset.ext fun q => ?_)
    rw [mem_fitting, Finset.mem_filter]
    exact and_congr_right fun _ => ⟨fun hfits => hfits.matches hno, fun hm => hm.fits before⟩
  · intro q hq q' hq' heq
    exact (Finset.mem_filter.mp hq).2.eq_of_graph (Finset.mem_filter.mp hq').2 heq

theorem timesFitted_eq_prod {μ : Mapping} : ∀ {before : List Variable},
    (FitsAll S graph before patterns μ → ¬Misread before patterns μ) →
      timesFitted S graph before patterns μ = (patterns.map fun tp => (holders S graph μ tp).card).prod := by
  induction patterns with
  | nil => exact fun _ => rfl
  | cons tp rest ih =>
    intro before hread
    rw [timesFitted, map_cons, prod_cons]
    by_cases hrest : FitsAll S graph (before ++ tp.vars) rest μ
    · by_cases hfit : ∃ q ∈ selected S graph, Fits before tp μ q
      · have hno := not_or.mp (hread ⟨hfit, hrest⟩)
        rw [card_fitting hno.1, ih fun _ => hno.2]
      · -- no quad fits, so none matches
        have hnone : fitting S graph before tp μ = ∅ :=
          Finset.eq_empty_of_forall_notMem fun q hq => hfit ⟨q, mem_fitting.mp hq⟩
        have hholders : holders S graph μ tp = ∅ := by
          classical
          refine Finset.image_eq_empty.mpr (Finset.filter_eq_empty_iff.mpr fun q hq hm => ?_)
          exact hfit ⟨q, hq, hm.fits before⟩
        rw [hnone, hholders, Finset.card_empty, Nat.zero_mul, Finset.card_empty, Nat.zero_mul]
    · have hzero := not_not.mp (mt timesFitted_ne_zero.mp hrest)
      rw [← ih fun h => absurd h hrest, hzero, Nat.mul_zero, Nat.mul_zero]

open Classical in
/-- Over any graphs a solution is returned once for each way to choose, for every pattern, a
graph that holds its instance. -/
theorem bgp_multiplicity (h : Serves st S Known)
    (hquoted : ∀ tp ∈ patterns, tp.isQuoted = true → ∀ t, Askable Known t)
    (hread : NoMisread S graph patterns) :
    ∃ sols, evalBgpNested (storeDataset st) .new patterns graph = .ok sols ∧
      ∀ μ, copies sols μ = if HasDomain μ (bgpVars patterns) then
        (patterns.map fun tp => (holders S graph μ tp).card).prod else 0 := by
  obtain ⟨sols, hr, hcount⟩ := nested_count h patterns graph hquoted
  refine ⟨sols, hr, fun μ => ?_⟩
  rw [hcount]
  split
  · next hdom => exact timesFitted_eq_prod (hread μ hdom)
  · rfl

/-- The rows of a BGP do not depend on the order of its patterns, as long as neither order
reads past a predicate. -/
theorem bgp_order_free (h : Serves st S Known) (hperm : patterns.Perm patterns')
    (hquoted : ∀ tp ∈ patterns, tp.isQuoted = true → ∀ t, Askable Known t)
    (hread : NoMisread S graph patterns) (hread' : NoMisread S graph patterns') :
    SameRows graph st patterns st patterns' := by
  obtain ⟨sols, hr, hcount⟩ := nested_count h patterns graph hquoted
  obtain ⟨sols', hr', hcount'⟩ := nested_count h patterns' graph fun tp htp => hquoted tp (hperm.mem_iff.mpr htp)
  refine ⟨sols, sols', hr, hr', Eval.perm_iff_copies.mpr fun μ => ?_⟩
  have hvars : ∀ v, v ∈ bgpVars patterns ↔ v ∈ bgpVars patterns' := fun v => (hperm.flatMap_right _).mem_iff
  have hdom : HasDomain μ (bgpVars patterns) ↔ HasDomain μ (bgpVars patterns') := by simp only [HasDomain, hvars]
  rw [hcount, hcount']
  by_cases hμ : HasDomain μ (bgpVars patterns)
  · rw [if_pos hμ, if_pos (hdom.mp hμ), timesFitted_eq_prod (hread μ hμ),
      timesFitted_eq_prod (hread' μ (hdom.mp hμ)), (hperm.map _).prod_eq]
  · rw [if_neg hμ, if_neg (mt hdom.mpr hμ)]

/-- The subjects that share an object with those of `objectsOf`. -/
def alsoWith : TriplePattern := { objectsOf with subject := .var ⟨"b"⟩ }

/-- A pattern with a fixed predicate has none to read past. -/
theorem noMisread_objectsOf (S : Finset Quad) (graph : GraphSelector) :
    NoMisread S graph [objectsOf, alsoWith] ∧ NoMisread S graph [alsoWith, objectsOf] := by
  constructor
  all_goals
    intro μ _ _ hmis
    simp [Misread, Bypassed, objectsOf, alsoWith] at hmis

/-- A triple in two graphs, and one in the default graph only. -/
def sharedStore : MemoryStore where
  quads := [⟨.namedNode ⟨"http://ex/s"⟩, ⟨"http://ex/p"⟩, .literal (.string "l"), .defaultGraph⟩,
    ⟨.namedNode ⟨"http://ex/s"⟩, ⟨"http://ex/p"⟩, .literal (.string "l"), .namedNode ⟨"http://ex/g"⟩⟩,
    ⟨.namedNode ⟨"http://ex/t"⟩, ⟨"http://ex/p"⟩, .literal (.string "l"), .defaultGraph⟩]
  namedGraphIris := []
  nodup := by decide +kernel

open Classical in
/-- Three quads for each of the two patterns are nine rows. -/
theorem bgp_multiplicity_objectsOf :
    ∃ sols, evalBgpNested (storeDataset sharedStore.quadStore) .new [objectsOf, alsoWith] .union = .ok sols ∧
      sols.length = 9 ∧
      ∀ μ, copies sols μ = if HasDomain μ (bgpVars [objectsOf, alsoWith]) then
        ([objectsOf, alsoWith].map fun tp =>
          (holders sharedStore.quads.toFinset .union μ tp).card).prod else 0 := by
  obtain ⟨sols, hr, hcopies⟩ := bgp_multiplicity sharedStore.serves
    (fun _ _ _ _ _ => trivial) (noMisread_objectsOf _ .union).1
  have hrows : ((evalBgpNested (storeDataset sharedStore.quadStore) .new [objectsOf, alsoWith] .union).toOption.map
      List.length) = some 9 := by
    decide +kernel
  rw [hr] at hrows
  exact ⟨sols, hr, Option.some.inj hrows, hcopies⟩

/-- The nine rows, in either order of the patterns. -/
theorem bgp_order_free_objectsOf :
    SameRows .union sharedStore.quadStore [objectsOf, alsoWith] sharedStore.quadStore [alsoWith, objectsOf] :=
  bgp_order_free sharedStore.serves (.swap _ _ _) (fun _ _ _ _ _ => trivial) (noMisread_objectsOf _ _).1
    (noMisread_objectsOf _ _).2

end Stores

/-! ## LOUDS -/

namespace LoudsStore

open Dictionary DictCompact

variable {bs : Nat} {threshold : Option Nat} {calls : List Call}

/-- The replies to a run of calls on a new store, and the store after it. -/
abbrev ran (bs : Nat) (threshold : Option Nat) (calls : List Call) :
    List (Except Fault Reply) × LoudsStore Dictionary :=
  Machine.run (call (api bs)) (openNew bs threshold) calls

section

variable (hbs : 0 < bs)
include hbs

theorem ran_holds (h : Machine.Meets (call (api bs)) (CallOk bs) (openNew bs threshold) calls)
    (hok : ∀ r ∈ (ran bs threshold calls).1, r.isOk = true) :
    ∃ σ, Holds (Dictionary.Knows bs) (ran bs threshold calls).2 σ ∧
      σ.quads = (calls.flatMap Call.writes).foldl Spec.applyPlain ∅ := by
  obtain ⟨hans, hend⟩ := run_holds hbs threshold h
  rw [hans] at hok
  exact ⟨_, hend, Spec.run_quads calls hok⟩

/-- After a run without failures, with compactions anywhere in it, the store contains the
quads whose last write is an insert. -/
theorem contains_lastInserts (h : Machine.Meets (call (api bs)) (CallOk bs) (openNew bs threshold) calls)
    (hok : ∀ r ∈ (ran bs threshold calls).1, r.isOk = true) {q : Quad}
    (hfind : Findable (ran bs threshold calls).2.dict q) :
    ∃ b, contains (api bs) (ran bs threshold calls).2 q = .ok b ∧
      (b = true ↔ LastInserts q (calls.flatMap Call.writes)) := by
  obtain ⟨σ, hend, hquads⟩ := ran_holds hbs h hok
  refine ⟨_, (hend.answers hbs).contains q hfind, ?_⟩
  rw [decide_eq_true_iff, hquads, mem_foldl_applyPlain]

/-- A query over the store is a query over the in-memory store with the same writes. Only a
pattern with a quoted triple asks for terms that a compacted dictionary may not know. -/
theorem queries_as_memory (h : Machine.Meets (call (api bs)) (CallOk bs) (openNew bs threshold) calls)
    (hok : ∀ r ∈ (ran bs threshold calls).1, r.isOk = true)
    (shapes : GraphRing → PhysicalShape → Option (List (List Nat))) {patterns : List TriplePattern}
    (hquoted : ∀ tp ∈ patterns, tp.isQuoted = true → (ran bs threshold calls).2.dict.compacted.encodedCount = 0)
    (graph : GraphSelector) : SameRows graph (quadStore (api bs) shapes (ran bs threshold calls).2) patterns
      (MemoryStore.after (calls.flatMap Call.writes)).quadStore patterns := by
  obtain ⟨σ, hend, hquads⟩ := ran_holds hbs h hok
  obtain ⟨n, hinv, hlive⟩ := hend.live_iff
  rw [hquads] at hlive
  have hlouds := serves shapes (implements hbs) hinv fun q => (hlive q).symm
  have hask : ∀ tp ∈ patterns, tp.isQuoted = true → ∀ t, Askable (Known n) t := by
    intro tp htp hq t _
    refine .inr ?_
    rw [hinv.knows.isSealed, hquoted tp htp hq]
    rfl
  obtain ⟨sols, hr, hcount⟩ := nested_count hlouds patterns graph hask
  obtain ⟨sols', hr', hcount'⟩ :=
    nested_count (MemoryStore.serves_after (calls.flatMap Call.writes)) patterns graph
    fun _ _ _ _ _ => trivial
  refine ⟨sols, sols', hr, hr', Eval.perm_iff_copies.mpr fun μ => ?_⟩
  rw [hcount, hcount']

/-- A compaction in the middle of a run is not seen: it returns, the other replies stay
the same, and so does what the readers answer afterwards. -/
theorem compaction_unseen (before after : List Call)
    (h : Machine.Meets (call (api bs)) (CallOk bs) (openNew bs threshold) (before ++ .compact :: after))
    (h' : Machine.Meets (call (api bs)) (CallOk bs) (openNew bs threshold) (before ++ after)) :
    ∃ replies S, (ran bs threshold (before ++ .compact :: after)).1 =
        (ran bs threshold before).1 ++ .ok .done :: replies ∧
      (ran bs threshold (before ++ after)).1 = (ran bs threshold before).1 ++ replies ∧
      Answers bs (ran bs threshold (before ++ .compact :: after)).2 S ∧
      Answers bs (ran bs threshold (before ++ after)).2 S := by
  obtain ⟨hwith, hend⟩ := run_holds hbs threshold h
  obtain ⟨hwithout, hend'⟩ := run_holds hbs threshold h'
  obtain ⟨hbefore, -⟩ := run_holds hbs threshold (Machine.meets_append.mp h').1
  refine ⟨(Machine.run Spec.call (Machine.run Spec.call .empty before).2 after).1, _, ?_, ?_, hend.answers hbs, ?_⟩
  · rw [hwith, hbefore, Machine.run_append]
    rfl
  · rw [hwithout, hbefore, Machine.run_append]
  · -- on the set a compaction does nothing
    have hsame : (Machine.run Spec.call .empty (before ++ .compact :: after)).2 =
        (Machine.run Spec.call .empty (before ++ after)).2 := by
      rw [Machine.run_append, Machine.run_append]
      rfl
    rw [hsame]
    exact hend'.answers hbs

end

/-- A quad that is removed and inserted again. -/
theorem contains_lastInserts_revived :
    ∃ b, contains (api sourceBlockSize) (ran sourceBlockSize none revivingCalls).2 (sampleQuad "v") = .ok b ∧
      (b = true ↔ LastInserts (sampleQuad "v") (revivingCalls.flatMap Call.writes)) :=
  contains_lastInserts (by decide) revivingCalls_ok (by decide +kernel) (by decide +kernel)

/-- The same run, and a pattern over its quads. -/
theorem queries_as_memory_revived :
    SameRows .default (quadStore (api sourceBlockSize) (fun _ _ => none)
      (ran sourceBlockSize none revivingCalls).2)
      [objectsOf] (MemoryStore.after (revivingCalls.flatMap Call.writes)).quadStore [objectsOf] :=
  queries_as_memory (by decide) revivingCalls_ok (by decide +kernel) _ (by decide) _

theorem compaction_unseen_once :
    ∃ replies S, (ran sourceBlockSize none revivingCalls).1 =
        (ran sourceBlockSize none [.insert (sampleQuad "v")]).1 ++ .ok .done :: replies ∧
      (ran sourceBlockSize none
        ([.insert (sampleQuad "v")] ++ [.remove (sampleQuad "v"), .insert (sampleQuad "v")])).1 =
        (ran sourceBlockSize none [.insert (sampleQuad "v")]).1 ++ replies ∧
      Answers sourceBlockSize (ran sourceBlockSize none revivingCalls).2 S ∧
      Answers sourceBlockSize (ran sourceBlockSize none
        ([.insert (sampleQuad "v")] ++ [.remove (sampleQuad "v"), .insert (sampleQuad "v")])).2 S := by
  have hmeets : Machine.Meets (call (api sourceBlockSize)) (fun s c =>
      Machine.BatchMeets (applyOne (api sourceBlockSize)) (fun s w => WriteOk s.dict w) s c.writes ∧
        (stepCompactsAt (api sourceBlockSize) s (.call c)).all (fitsBlock sourceBlockSize) = true)
      (openNew sourceBlockSize none)
      ([.insert (sampleQuad "v")] ++ [.remove (sampleQuad "v"), .insert (sampleQuad "v")]) := by
    decide +kernel
  exact compaction_unseen (by decide) [.insert (sampleQuad "v")] [.remove (sampleQuad "v"), .insert (sampleQuad "v")]
    revivingCalls_ok (hmeets.imp fun s c hc => callOk_of_fitsBlock hc)

end LoudsStore

/-! ## The ring -/

namespace RingStore

open Dictionary DictCompact
open LoudsStore (FindablePattern WriteOk)

variable {bs : Nat} {files : Residency} {events : List LoudsStore.Event}

/-- The replies to a run of events on a new store, and the store after it. -/
abbrev ran (bs : Nat) (files : Residency) (events : List LoudsStore.Event) :
    List (Except Fault LoudsStore.Reply) × RingStore Dictionary :=
  Machine.run (step (api bs) dictLen files) (new (Dictionary.new bs)) events

/-- The ring, with compactions and bulk loads in its run, lists for a pattern what the
in-memory store lists after the same writes. -/
theorem lists_as_memory (hbs : 0 < bs)
    (h : Machine.Meets (step (api bs) dictLen files) (CallOk bs) (new (Dictionary.new bs)) events)
    (hok : ∀ x ∈ (ran bs files events).1, x.isOk = true) {subject : Option Term} {predicate : Option NamedNode}
    {object : Option Term} (hfind : FindablePattern (ran bs files events).2.dict subject predicate object)
    (graphName : Option GraphName) :
    ∃ listed r', quadsForPattern (api bs)
      (ran bs files events).2 subject predicate object graphName = .ok (listed, r') ∧
      listed.Perm ((MemoryStore.after (events.flatMap writes)).quadsForPattern subject predicate object graphName) := by
  have hstart : Follows (Dictionary.Knows bs) (new (Dictionary.new bs)) .empty := follows_new (knows_new bs)
  obtain ⟨hans, hend⟩ := Machine.run_sim (step_follows (implements hbs) dictLen files) hstart
    (h.imp fun _ _ hone => hone.stepOk hbs)
  rw [hans] at hok
  have hquads := Spec.run_step_quads events hok
  have hanswers := hend.answers hbs
  rw [hquads] at hanswers
  obtain ⟨qs, r', hr, hnodup, hmem⟩ := hanswers.quadsForPattern subject predicate object graphName hfind
  obtain ⟨qs', hr', hnodup', hmem'⟩ := (MemoryStore.serves_after (events.flatMap writes)).answers subject predicate
    object graphName (fun _ _ _ => trivial) fun _ _ _ => trivial
  have hperm : qs.Perm qs' := (perm_ext_iff_of_nodup hnodup hnodup').mpr fun q => by
    rw [hmem, hmem']
    rfl
  refine ⟨_, r', hr, ?_⟩
  rw [Except.ok.inj hr']
  exact hperm.map _

/-- A tombstone is pending when its quad is loaded. -/
theorem lists_as_memory_reload :
    ∃ listed r', quadsForPattern (api sourceBlockSize) (ran sourceBlockSize (fun _ _ => none) reloadEvents).2
        none none none none = .ok (listed, r') ∧
      listed.Perm ((MemoryStore.after (reloadEvents.flatMap writes)).quadsForPattern none none none none) := by
  have hmeets : Machine.Meets (step (api sourceBlockSize) dictLen fun _ _ => none) (fun r e =>
      Machine.BatchMeets (applyOne (api sourceBlockSize)) (fun r w => WriteOk r.dict w) r (writes e) ∧
        (compactsAt (api sourceBlockSize) r e).all (fitsSmall sourceBlockSize) = true)
      (new (Dictionary.new sourceBlockSize)) reloadEvents := by
    decide +kernel
  exact lists_as_memory (by decide) (hmeets.imp fun r e he => callOk_of_fitsSmall he.1 he.2) (by decide +kernel)
    (by simp [FindablePattern]) none

end RingStore

end Nova
