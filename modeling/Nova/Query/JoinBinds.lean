import Nova.Query.Scope
import Nova.Query.Walks

/-!
# What a join over the LOUDS store binds

Every key that a scan of the store lists is an id of a triple of a ring, and in a state
that keeps the invariant such an id has a term. So a join, whether it walks a shape or
eliminates the variables one by one, binds each variable of its patterns to a term.

* `lftjStep_binds`: what the generic join binds, by induction on the variables left;
* `joinBinds_louds`: the solutions of a join bind every variable of the BGP;
* `sources_louds`: the LOUDS store is one of the sources that the evaluator relies on.
-/

namespace Nova

open Nova.Lib Nova.Lib.Leapfrog List

namespace Lftj

section Step

variable {ds : Dataset} {graph : GraphSelector} {r : GraphRing} {specs : List PatternSpec}

/-- Every id that is bound is one of a triple. -/
def Listed (triples : List Row) (bindings : Bindings) : Prop :=
  ∀ i x, bindings i = some x → ∃ t ∈ triples, ∃ f, GraphRing.column t f = x

/-- The keys that the scans of a step have in common are ids of triples. -/
theorem listed_of_openScans (h : ReadsRing ds graph r) {resolved : List Probe} (hne : resolved ≠ [])
    (hfree : ∀ probe ∈ resolved, probe.Free) {scans : List Scan} (hopen : openScans ds graph resolved = some scans)
    {x : Nat} (hx : x ∈ inter scans) : ∃ t ∈ r.spoTriples, ∃ f, GraphRing.column t f = x := by
  have htry : tryCollapse ds graph resolved = none := by
    rw [tryCollapse_eq]
    cases collapseSubjects resolved with
    | none => rfl
    | some found => exact h.collapse found.1 found.2
  rw [openScans, htry] at hopen
  obtain ⟨probe, rest, rfl⟩ := exists_cons_of_ne_nil hne
  obtain - | ⟨hscan, hrest⟩ := forall₂_of_mapM hopen
  obtain ⟨htarget, hfield⟩ := hfree probe mem_cons_self
  have hkeys : x ∈ keys ds graph probe.s probe.p probe.o probe.target := by
    rw [keys, hscan, Option.getD_some]
    exact mem_inter.mp hx _ mem_cons_self
  obtain ⟨t, ht, hcolumn, -⟩ := (mem_keys h htarget hfield).mp hkeys
  exact ⟨t, ht, probe.target, hcolumn⟩

/-- The join only adds bindings, to ids of triples, and binds every variable of the
patterns that is left. -/
theorem lftjStep_binds (h : ReadsRing ds graph r) : ∀ {n : Nat} {unbound : List Nat} {bindings : Bindings},
    unbound.length = n → unbound.Nodup → (∀ i ∈ unbound, bindings i = none) → Listed r.spoTriples bindings →
    ∀ out ∈ lftjStep ds specs graph n unbound bindings, Listed r.spoTriples out ∧
      (∀ i, bindings i ≠ none → out i ≠ none) ∧
      ∀ i ∈ unbound, (∃ sp ∈ specs, isActiveForVar i sp = true) → out i ≠ none := by
  intro n
  induction n with
  | zero =>
    intro unbound bindings hlen _ _ hlisted out hout
    rw [lftjStep, mem_singleton] at hout
    rw [length_eq_zero_iff.mp hlen, hout]
    exact ⟨hlisted, fun _ hi => hi, fun _ hi => absurd hi not_mem_nil⟩
  | succ n ih =>
    intro unbound bindings hlen hnodup hfree hlisted out hout
    have hperm : (order ds specs graph bindings unbound).Perm unbound :=
      (orderOf ds specs graph).perm bindings unbound
    rw [lftjStep] at hout
    rcases horder : order ds specs graph bindings unbound with _ | ⟨v, rest⟩
    · rw [horder] at hperm
      have hzero := hperm.length_eq
      rw [hlen] at hzero
      cases hzero
    rw [horder] at hperm hout
    obtain ⟨hv, hrest⟩ := nodup_cons.mp (hperm.nodup_iff.mpr hnodup)
    have hlength : rest.length = n := by
      have heq := hperm.length_eq
      rw [length_cons, hlen] at heq
      omega
    have hsub : ∀ i ∈ rest, i ∈ unbound := fun i hi => hperm.mem_iff.mp (mem_cons_of_mem v hi)
    have hmem : ∀ i ∈ unbound, i = v ∨ i ∈ rest := fun i hi => mem_cons.mp (hperm.mem_iff.mpr hi)
    have hunbound : bindings v = none := hfree v (hperm.mem_iff.mp mem_cons_self)
    dsimp only at hout
    split at hout
    · next hempty =>
      -- no pattern has the variable
      obtain ⟨hl, hkept, hbound⟩ := ih hlength hrest (fun i hi => hfree i (hsub i hi)) hlisted out hout
      refine ⟨hl, hkept, fun i hi hactive => ?_⟩
      rcases hmem i hi with rfl | hi
      · obtain ⟨sp, hsp, hact⟩ := hactive
        rw [List.isEmpty_iff, filter_eq_nil_iff] at hempty
        exact absurd hact (hempty sp hsp)
      · exact hbound i hi hactive
    next hactive =>
    have hne : (specs.filter (isActiveForVar v)).map (resolveForVar v bindings) ≠ [] := by
      rwa [ne_eq, map_eq_nil_iff, ← List.isEmpty_iff]
    have hprobes : ∀ probe ∈ (specs.filter (isActiveForVar v)).map (resolveForVar v bindings), probe.Free := by
      intro probe hprobe
      obtain ⟨sp, hsp, rfl⟩ := mem_map.mp hprobe
      exact resolveForVar_free hunbound (mem_filter.mp hsp).2
    split at hout
    · exact absurd hout not_mem_nil
    next scans hopen =>
    split at hout
    · exact absurd hout not_mem_nil
    have hascending : AscendingScans ds graph := by
      constructor
      · intro s p o target scan hscan
        have heq := keys_eq h s p o target
        rw [keys, hscan, Option.getD_some] at heq
        rw [heq]
        exact GraphRing.joinScan_ascending
      · intro subjects predicate scan hscan
        rw [h.collapse] at hscan
        cases hscan
    rw [leapfrog_eq _ (openScans_ne_nil hne hopen) (ascending_openScans hascending hopen)
      (Nat.lt_succ_self _)] at hout
    obtain ⟨x, hx, hout⟩ := mem_flatMap.mp hout
    have hbinds : ∀ i ≠ v, Function.update bindings v (some x) i = bindings i :=
      fun i hi => Function.update_of_ne hi _ _
    obtain ⟨hl, hkept, hbound⟩ := ih hlength hrest
      (fun i hi => by
        rw [hbinds i fun heq => hv (heq ▸ hi)]
        exact hfree i (hsub i hi))
      (fun i y hy => by
        by_cases hi : i = v
        · rw [hi, Function.update_self, Option.some.injEq] at hy
          rw [← hy]
          exact listed_of_openScans h hne hprobes hopen hx
        · rw [hbinds i hi] at hy
          exact hlisted i y hy)
      out hout
    have hv' : out v ≠ none := hkept v (by rw [Function.update_self]; simp)
    refine ⟨hl, fun i hi => ?_, fun i hi hact => ?_⟩
    · by_cases heq : i = v
      · rwa [heq]
      · exact hkept i (by rwa [hbinds i heq])
    · rcases hmem i hi with rfl | hi
      · exact hv'
      · exact hbound i hi hact

end Step

/-! ## The rows of the join -/

section Rows

variable {ds : Dataset} {graph : GraphSelector} {r : GraphRing} {joinVars : List Variable} {γ : Bindings}

theorem isSome_get_decodedRow (hdecodes : ∀ i < joinVars.length, ∃ t, decodeBinding ds (γ i) = .ok (some t))
    {v : Variable} (hv : v ∈ joinVars) : ((decodedRow ds joinVars γ).get v).isSome = true := by
  have hvars : (decodedRow ds joinVars γ).vars = joinVars := rfl
  rw [Solution.get, hvars]
  rcases hpos : Solution.positionIn joinVars v with _ | i
  · exact absurd hv (Solution.positionIn_eq_none.mp hpos)
  · obtain ⟨hlt, -⟩ := List.getElem?_eq_some_iff.mp (Solution.positionIn_eq_some hpos)
    obtain ⟨t, ht⟩ := hdecodes i hlt
    simp [decodedRow, Solution.row, Solution.positional, hlt, ht, Except.toOption]

/-- A variable of the pattern is a position of its spec. -/
theorem active_of_buildSpec {tp : TriplePattern} {sp : PatternSpec} (hb : buildSpec ds joinVars graph tp = .ok sp)
    {v : Variable} (hv : v ∈ tp.vars) : isActiveForVar (joinVars.idxOf v) sp = true ∧
      v ∈ extractVarsFromPattern tp := by
  unfold buildSpec at hb
  split at hb
  · cases hb
  obtain ⟨s, hs, hb⟩ := bind_ok hb
  obtain ⟨p, hp, hb⟩ := bind_ok hb
  obtain ⟨o, ho, hb⟩ := bind_ok hb
  dsimp only at hb
  have hsp : sp = ⟨s, p, o⟩ := by
    split at hb
    · obtain ⟨_, _, hb⟩ := bind_ok hb
      cases hb
      rfl
    · cases hb
      rfl
  obtain ⟨subject, predicate, object⟩ := tp
  have hterm : ∀ {pattern : TermPattern} {f : FieldSpec}, classifyTermField ds joinVars pattern = .ok f →
      v ∈ pattern.vars → pattern = .var v ∧ f = .joinVar (joinVars.idxOf v) := by
    intro pattern f hf hv
    cases pattern with
    | var w =>
      obtain rfl := mem_singleton.mp hv
      cases hf
      exact ⟨rfl, rfl⟩
    | namedNode n => cases hv
    | literal l => cases hv
    | blankNode b => cases hf
    | triple s p o => cases hf
  rw [isActiveForVar_iff, hsp]
  rcases mem_append.mp hv with hv | hv
  · rcases mem_append.mp hv with hv | hv
    · obtain ⟨rfl, rfl⟩ := hterm hs hv
      exact ⟨.inl rfl, mem_append_left _ (mem_append_left _ mem_cons_self)⟩
    · refine ⟨.inr (.inl ?_), mem_append_left _ (mem_append_right _ hv)⟩
      cases predicate with
      | var w =>
        obtain rfl := mem_singleton.mp hv
        cases hp
        rfl
      | namedNode n => cases hv
  · obtain ⟨rfl, rfl⟩ := hterm ho hv
    exact ⟨.inr (.inr rfl), mem_append_right _ mem_cons_self⟩

end Rows

/-! ## Joins over a state of the store -/

section Store

variable {D : Type} {A : DictApi D} {Knows : D → Names → Prop} {CompactOk : Names → Prop} {names : Names}
  {s : LoudsStore D}

/-- Over one graph: a row of a shape is a match, and one of the generic join binds the ids
of triples. Either way the ids have terms. -/
theorem evalBgpLftjGraph_binds (I : Implements A Knows CompactOk) (h : s.Inv Knows names)
    {patterns : List TriplePattern} {graph : GraphSelector} {sols : List Solution}
    (hr : evalBgpLftjGraph (s.dataset A) patterns graph = .ok (some sols)) :
    ∀ sol ∈ sols, ∀ v ∈ bgpVars patterns, (sol.get v).isSome = true := by
  intro sol hsol v hv
  have hdecodes := decodes_ringOf I h graph
  have hreads := LoudsStore.readsRing A s graph
  unfold evalBgpLftjGraph at hr
  split at hr
  · next hempty =>
    rw [List.isEmpty_iff.mp hempty] at hv
    exact absurd hv not_mem_nil
  dsimp only at hr
  split at hr
  · cases hr
  · cases hr
    exact absurd hsol not_mem_nil
  · cases hr
  next specs hspecs =>
  -- a variable of the BGP is joined over, and some pattern asks for it
  have hactive : ∀ w ∈ bgpVars patterns, w ∈ collectJoinVars patterns ∧
      ∃ sp ∈ specs, isActiveForVar ((collectJoinVars patterns).idxOf w) sp = true := by
    intro w hw
    obtain ⟨tp, htp, hw⟩ := mem_flatMap.mp hw
    obtain ⟨sp, hsp, hb⟩ := (mapM_ok_inv hspecs).1 tp htp
    obtain ⟨hact, hextract⟩ := active_of_buildSpec hb hw
    exact ⟨mem_firsts.mpr (mem_flatMap.mpr ⟨tp, htp, hextract⟩), sp, hsp, hact⟩
  split at hr
  · next plan hshape =>
    -- a shape: the rows of its walk are matches
    have hcovers := Shapes.recognizeShape_covers hshape
    have hrows := ok_of_mapError (ok_of_map (Option.some_injective _) hr)
    have hshapeRows : shapeRows (s.dataset A) graph plan = shapeWalk (s.dataset A) graph plan := by
      rw [shapeRows]
      cases hbody : (s.dataset A).lftjPrepareShape plan.toPhysical graph with
      | none => rfl
      | some body => exact prepared_eq_walk hbody
    have hmatches : ∀ ids ∈ shapeWalk (s.dataset A) graph plan, IsMatch (s.ringOf A graph).spoTriples plan ids :=
      fun ids hids => ((mem_shapeWalk hreads hcovers.distinct).mp hids).1
    have heval : evalShape (s.dataset A) (collectJoinVars patterns) graph plan = _ := evalRows_ok hdecodes
      (hshapeRows ▸ hmatches)
    rw [heval] at hrows
    cases hrows
    obtain ⟨γ, hγ, rfl⟩ := mem_map.mp hsol
    obtain ⟨ids, hids, rfl⟩ := mem_map.mp hγ
    rw [hshapeRows] at hids
    exact isSome_get_decodedRow (fun i hi => (hmatches ids hids).decodes hdecodes ((hcovers.corners i).mpr hi))
      (hactive v hv).1
  · have hrows := ok_of_mapError (ok_of_map (Option.some_injective _) hr)
    obtain ⟨γ, hγ, hrow⟩ := (mapM_ok_inv hrows).2 sol hsol
    obtain ⟨hlisted, -, hbound⟩ :=
      lftjStep_binds hreads rfl nodup_range (fun _ _ => rfl) (fun _ _ hx => by cases hx) γ hγ
    -- the generic join: what it binds is listed by a scan
    have hterm : ∀ i x, γ i = some x → ∃ t, decodeBinding (s.dataset A) (γ i) = .ok (some t) := by
      intro i x hx
      obtain ⟨t, ht, f, rfl⟩ := hlisted i x hx
      rw [hx]
      exact hdecodes t ht f
    have hdecoded : emitRow (s.dataset A) (collectJoinVars patterns) γ = _ := emitRow_ok fun i => by
      cases hx : γ i with
      | none => exact ⟨none, rfl⟩
      | some x =>
        obtain ⟨t, ht⟩ := hterm i x hx
        exact ⟨some t, hx ▸ ht⟩
    rw [hdecoded] at hrow
    cases hrow
    refine isSome_get_decodedRow (fun i hi => ?_) (hactive v hv).1
    obtain ⟨sp, hsp, hact⟩ := (hactive _ (within_collectJoinVars patterns _ (getElem_mem hi))).2
    have hnodup : (collectJoinVars patterns).Nodup := nodup_firsts _
    rw [hnodup.idxOf_getElem i hi] at hact
    obtain ⟨x, hx⟩ := Option.ne_none_iff_exists'.mp (hbound i (mem_range.mpr hi) ⟨sp, hsp, hact⟩)
    exact hterm i x hx

end Store

end Lftj

section Store

variable {D : Type} {A : DictApi D} {Knows : D → Names → Prop} {CompactOk : Names → Prop} {names : Names}
  {s : LoudsStore D}

/-- Every solution of a join over the store binds the variables of the BGP. -/
theorem joinBinds_louds (I : Implements A Knows CompactOk) (h : s.Inv Knows names) : JoinBinds (s.dataset A) := by
  intro patterns graph sols hr sol hsol v hv
  exact Lftj.evalBgpLftj_forall (fun graph sols hgraph => Lftj.evalBgpLftjGraph_binds I h hgraph) hr sol hsol v hv

/-- Without services and a text index the store is all that the evaluator relies on. -/
theorem sources_louds (I : Implements A Knows CompactOk) (h : s.Inv Knows names) {options : EvalOptions}
    (hservice : options.serviceHandler = none) (htext : options.textSearch = none) :
    Eval.Sources options (s.dataset A) where
  joins := joinBinds_louds I h
  services := by
    intro handle n inner sols hhandle
    rw [hservice] at hhandle
    cases hhandle
  texts := by
    intro search query predicate id t hsearch
    rw [htext] at hsearch
    cases hsearch

end Store

end Nova
