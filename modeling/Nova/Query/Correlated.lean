import Nova.Query.Separable

/-!
# Correlated patterns

`evalPattern_substitute` follows a pattern and the same pattern under an outer solution: a
pattern that is evaluated apart keeps, of its solutions, those that agree with the outer
one. From this come the two forms that the evaluator computes apart:

* `exists_substitutes`: `EXISTS` finds a solution just when there is one under
  the row;
* `lateral_substitutes`: `LATERAL` joins, solution by solution of its left side, what its
  right side gives under that solution.
-/

namespace Nova

open Nova.Lib List
open QueryError (ofEval ofPanic toOption)
open GraphPattern (under settled)

namespace Eval

/-! ## Groups -/

section Groups

variable {μ : Mapping} {C vars : List Variable} {sols sols' group group' : List Solution}

theorem groupRow_eq (hvars : ∀ v ∈ vars, (μ v).isSome = true → v ∈ C)
    (h : List.Forall₂ (Paired μ C) group group') : groupRow vars group' = groupRow vars group := by
  cases h with
  | nil => rfl
  | @cons first first' rest rest' hfirst _ =>
    have hget : ∀ v ∈ vars, first'.get v = first.get v := fun v hv => hfirst.1.get (hvars v hv)
    refine foldl_ext _ _ _ fun sol v hv => ?_
    rw [hget v hv]

/-- A group of rows that all agree with the outer solution is a group under it. -/
theorem narrowed_groupsOf {display : Term → String} (hdisplay : Function.Injective display)
    (h : Narrowed false μ sols sols')
    (hwithin : ∀ sol ∈ sols, ∀ v, (sol.get v).isSome = true → (μ v).isSome = true → v ∈ vars)
    (hbinds : ∀ sol ∈ sols, ∀ v ∈ vars, (μ v).isSome = true → (sol.get v).isSome = true) :
    Picks false (fun group : List Solution => ∀ sol ∈ group, PartialMap.Agree μ sol.get)
      (List.Forall₂ fun sol sol' : Solution =>
        PartialMap.Agree μ sol.get ∧ sol'.Tidy ∧ sol'.get = PartialMap.union μ sol.get)
      (groupsOf display vars sols) (groupsOf display vars sols') := by
  classical
  let key := fun sol : Solution => vars.map fun v => (sol.get v).map display
  -- a key says whether its rows agree with the outer solution
  let p := fun k => decide (∀ sol ∈ sols, key sol = k → PartialMap.Agree μ sol.get)
  have hsame : ∀ sol other : Solution, key sol = key other → ∀ v ∈ vars, sol.get v = other.get v :=
    fun sol other heq v hv => Option.map_injective hdisplay (map_inj_left.mp heq v hv)
  have hp : ∀ sol ∈ sols, (PartialMap.Agree μ sol.get ↔ p (key sol) = true) := by
    intro sol hsol
    rw [decide_eq_true_iff]
    refine ⟨fun hagree other hother heq v t u ht hu => ?_, fun hall => hall sol hsol rfl⟩
    have hv := hwithin other hother v (by rw [hu]; rfl) (by rw [ht]; rfl)
    exact hagree v t u ht (by rw [← hsame other sol heq v hv, hu])
  have hkey : ∀ sol ∈ sols, ∀ sol' : Solution, PartialMap.Agree μ sol.get →
      sol'.Tidy ∧ sol'.get = PartialMap.union μ sol.get → key sol' = key sol := by
    intro sol hsol sol' hkept hsol'
    refine map_congr_left fun v hv => ?_
    have hj : Joined μ (vars.filter fun v => (μ v).isSome) sol sol' :=
      ⟨hkept, hsol'.2, fun w hw => by
        obtain ⟨hin, hμ⟩ := mem_filter.mp hw
        exact hbinds sol hsol w hin hμ⟩
    rw [hj.get fun hμ => mem_filter.mpr ⟨hv, hμ⟩]
  have hgroups := Picks.groups p h hkey hp
  have hempty : ∀ rows : List Solution,
      ((firsts (rows.map key)).map fun k => rows.filter fun sol => key sol = k).isEmpty = rows.isEmpty := by
    intro rows
    rw [Bool.eq_iff_iff, List.isEmpty_iff, List.isEmpty_iff, map_eq_nil_iff, eq_nil_iff_forall_not_mem,
      eq_nil_iff_forall_not_mem]
    simp only [mem_firsts, mem_map, not_exists, not_and]
    exact ⟨fun hno sol hsol => hno _ sol hsol rfl, fun hno k sol hsol => absurd hsol (hno sol)⟩
  have hunfold : ∀ rows : List Solution, groupsOf display vars rows =
      if rows.isEmpty && vars.isEmpty then [[]]
      else (firsts (rows.map key)).map fun k => rows.filter fun sol => key sol = k := by
    intro rows
    rw [← hempty rows]
    rfl
  rw [hunfold, hunfold]
  cases hvars : vars with
  | cons v vs =>
    simp only [isEmpty_cons, Bool.and_false, Bool.false_eq_true, if_false]
    exact hgroups
  | nil =>
    -- with nothing to group by, no row differs from the outer solution
    have hall : ∀ sol ∈ sols, PartialMap.Agree μ sol.get := by
      intro sol hsol v t u ht hu
      have hv := hwithin sol hsol v (by rw [hu]; rfl) (by rw [ht]; rfl)
      rw [hvars] at hv
      exact absurd hv not_mem_nil
    have hsols : sols.isEmpty = sols'.isEmpty := by
      rw [Bool.eq_iff_iff, List.isEmpty_iff, List.isEmpty_iff, eq_nil_iff_forall_not_mem,
        eq_nil_iff_forall_not_mem]
      constructor
      · intro hno sol' hsol'
        obtain ⟨sol, hsol, -⟩ := h.exists_kept sol' hsol'
        exact hno sol hsol
      · intro hno sol hsol
        obtain ⟨sol', hsol', -⟩ := h.exists_partner sol hsol (hall sol hsol)
        exact hno sol' hsol'
    rw [hsols]
    split
    · exact .keep nofun .nil .nil
    · exact hgroups

theorem get_groupRow (vars : List Variable) (first : Solution) (rest : List Solution) (v : Variable) :
    (groupRow vars (first :: rest)).get v = if v ∈ vars then first.get v else none := by
  have hfold : (groupRow vars (first :: rest)).get v =
      if v ∈ vars ∧ (first.get v).isSome = true then first.get v else Solution.new.get v :=
    (foldl_bind_rows (f := first.get) Solution.tidy_new).2 v
  rw [hfold]
  by_cases hv : v ∈ vars
  · split
    · rfl
    · next hno => exact (Option.not_isSome_iff_eq_none.mp fun hsome => hno ⟨hv, hsome⟩).symm
  · rw [if_neg hv, if_neg fun h => hv h.1]
    rfl

theorem tidy_groupRow (vars : List Variable) : ∀ group : List Solution, (groupRow vars group).Tidy
  | [] => Solution.tidy_new
  | first :: _ => (foldl_bind_rows (f := first.get) Solution.tidy_new).1

theorem get_of_mem_groupsOf {display : Term → String} (hdisplay : Function.Injective display)
    (hgroup : group ∈ groupsOf display vars sols) {sol : Solution} (hsol : sol ∈ group) :
    sol ∈ sols ∧ ∀ v ∈ vars, (groupRow vars group).get v = sol.get v := by
  have hkeys : ∃ k, ∀ row ∈ group, row ∈ sols ∧ (vars.map fun v => (row.get v).map display) = k := by
    unfold groupsOf at hgroup
    dsimp only at hgroup
    split at hgroup
    · rw [mem_singleton.mp hgroup] at hsol
      exact absurd hsol not_mem_nil
    · obtain ⟨k, _, rfl⟩ := mem_map.mp hgroup
      refine ⟨k, fun row hrow => ?_⟩
      obtain ⟨hrow, hkey⟩ := mem_filter.mp hrow
      exact ⟨hrow, of_decide_eq_true hkey⟩
  obtain ⟨k, hkeys⟩ := hkeys
  refine ⟨(hkeys sol hsol).1, fun v hv => ?_⟩
  cases group with
  | nil => exact absurd hsol not_mem_nil
  | cons first rest =>
    have heq := (hkeys first mem_cons_self).2.trans (hkeys sol hsol).2.symm
    rw [get_groupRow, if_pos hv]
    exact Option.map_injective hdisplay (map_inj_left.mp heq v hv)

section Runs

variable {scalars : Scalars} {options : EvalOptions} {fuel : Nat} {ds : Dataset} {ag : GraphSelector}
  {aggs aggs' : List Aggregate}

theorem evalAggregates_get {row out : Solution}
    (h : evalAggregates scalars options fuel ds aggs group row ag = .ok out)
    {v : Variable} (hv : v ∉ GraphPattern.targets aggs) : out.get v = row.get v := by
  induction aggs generalizing row with
  | nil =>
    cases h
    rfl
  | cons agg rest ih =>
    obtain ⟨next, hnext, h⟩ := bind_ok h
    have hcons : GraphPattern.targets (agg :: rest) = GraphPattern.targets [agg] ++
      GraphPattern.targets rest := rfl
    rw [hcons, mem_append, not_or] at hv
    rw [ih h hv.2]
    rcases evalAggregate_row hnext with rfl | ⟨w, hw, t, rfl⟩
    · rfl
    · rw [Solution.get_insert, if_neg]
      rintro rfl
      exact hv.1 hw

/-- Groups that the outer solution picks by their variables. -/
theorem mirrors_group (hdisplay : Function.Injective scalars.display) (h : Narrowed false μ sols sols')
    (hshared : ∀ sol ∈ sols, ∀ v, (sol.get v).isSome = true → (μ v).isSome = true → v ∈ vars ∧ v ∈ C)
    (hvars : ∀ v ∈ vars, (μ v).isSome = true → v ∈ C) (hbinds : ∀ sol ∈ sols, ∀ v ∈ C, (sol.get v).isSome = true)
    (htargets : ∀ v ∈ GraphPattern.targets aggs, (μ v).isSome = true → v ∉ vars)
    (haggs : ∀ group group' row, List.Forall₂ (Paired μ C) group group' →
      Mirrors Eq (evalAggregates scalars options fuel ds aggs group row ag)
        (evalAggregates scalars options fuel ds aggs' group' row ag)) :
    Mirrors (Narrowed false fun v => if v ∈ vars then μ v else none)
      ((groupsOf scalars.display vars sols).mapM fun group =>
        evalAggregates scalars options fuel ds aggs group (groupRow vars group) ag)
      ((groupsOf scalars.display vars sols').mapM fun group =>
        evalAggregates scalars options fuel ds aggs' group (groupRow vars group) ag) := by
  have hgroups := narrowed_groupsOf hdisplay h (fun sol hsol v hv hμ => (hshared sol hsol v hv hμ).1)
    fun sol hsol v hv hμ => hbinds sol hsol v (hvars v hv hμ)
  -- what a grouped variable of the outer solution is in the result
  have hread : ∀ group ∈ groupsOf scalars.display vars sols, ∀ out,
      evalAggregates scalars options fuel ds aggs group (groupRow vars group) ag = .ok out →
      ∀ sol ∈ group, ∀ v ∈ vars, (μ v).isSome = true → out.get v = sol.get v := by
    intro group hgroup out hout sol hsol v hv hμ
    rw [evalAggregates_get hout fun hin => htargets v hin hμ hv]
    exact (get_of_mem_groupsOf hdisplay hgroup hsol).2 v hv
  rw [mapM_eq_flatten _ (groupsOf scalars.display vars sols),
    mapM_eq_flatten _ (groupsOf scalars.display vars sols')]
  cases hout : (groupsOf scalars.display vars sols).mapM fun group => do
      return [← evalAggregates scalars options fuel ds aggs group (groupRow vars group) ag] with
  | error e =>
    refine Or.inl (Raises.mapM (fun group _ => ?_) e hout)
    exact (raises_evalAggregates aggs group (groupRow vars group) ag).bind fun _ => raises_ok _
  | ok out =>
    have hex : ∃ out', (groupsOf scalars.display vars sols').mapM (fun group => do
        return [← evalAggregates scalars options fuel ds aggs' group (groupRow vars group) ag]) = .ok out' ∧
        Narrowed false (fun v => if v ∈ vars then μ v else none) out.flatten out'.flatten := by
      refine hgroups.mapM ?_ ?_ hout
      · intro group hgroup group' hkept hall rows hrows
        obtain ⟨row, hrow, hrows⟩ := bind_ok hrows
        cases hrows
        have hpaired : List.Forall₂ (Paired μ C) group group' := by
          refine (forall₂_iff_zip.mpr ⟨hall.length_eq, fun {sol sol'} hzip => ?_⟩)
          obtain ⟨hagree, -, hget⟩ := forall₂_zip hall hzip
          have hsol := (get_of_mem_groupsOf hdisplay hgroup (of_mem_zip hzip).1).1
          exact ⟨⟨hagree, hget, hbinds sol hsol⟩, fun v hv hμ => (hshared sol hsol v hv hμ).2⟩
        obtain ⟨row', hrow', rfl⟩ := (haggs group group' (groupRow vars group) hpaired).of_ok hrow
        rw [groupRow_eq hvars hpaired, hrow']
        refine ⟨[row], rfl, ?_⟩
        have hvalue : ∀ v t, (if v ∈ vars then μ v else none) = some t → row.get v = some t := by
          intro v t ht
          split at ht
          · next hv =>
            have hμ : (μ v).isSome = true := by rw [ht]; rfl
            rcases mem_groupsOf hgroup with ⟨-, rfl⟩ | ⟨first, rest, rfl, hfirst⟩
            · exact absurd hv not_mem_nil
            · obtain ⟨u, hu⟩ := Option.isSome_iff_exists.mp (hbinds first hfirst v (hvars v hv hμ))
              rw [hread _ hgroup row hrow first mem_cons_self v hv hμ, hu,
                hkept first mem_cons_self v t u ht hu]
          · cases ht
        refine .keep (fun v t u ht hu => Option.some.inj ((hvalue v t ht).symm.trans hu)) ⟨?_, ?_⟩ .nil
        · exact (evalAggregates_row (tidy_groupRow vars group) hrow).1
        · funext v
          rw [PartialMap.union_apply]
          cases hv : (if v ∈ vars then μ v else none) with
          | none => rw [Option.none_or]
          | some t => rw [Option.some_or, hvalue v t hv]
      · intro group hgroup hdropped rows hrows row hrow hagree
        obtain ⟨only, honly, hrows⟩ := bind_ok hrows
        cases hrows
        rw [mem_singleton.mp hrow] at hagree
        refine hdropped fun sol hsol v t u ht hu => ?_
        have hmem := (get_of_mem_groupsOf hdisplay hgroup hsol).1
        have hμ : (μ v).isSome = true := by rw [ht]; rfl
        have hv := (hshared sol hmem v (by rw [hu]; rfl) hμ).1
        refine hagree v t u ((if_pos hv).trans ht) ?_
        rw [hread group hgroup only honly sol hsol v hv hμ, hu]
    obtain ⟨out', hout', hpicks⟩ := hex
    rw [hout']
    exact .ok hpicks

end Runs

end Groups

/-! ## Full-text filters -/

section Text

variable {options : EvalOptions} {ds : Dataset} {ag : GraphSelector}

theorem raises_textPredicateId (v : Variable) : ∀ patterns : List TriplePattern, Raises
    (textPredicateId ds v patterns)
  | [] => raises_ok _
  | tp :: rest => by
    rw [textPredicateId]
    split
    · split
      · refine (raises_ofPanic _).bind fun id => ?_
        cases id with
        | none => exact raises_textPredicateId v rest
        | some id => exact raises_ok _
      · exact raises_textPredicateId v rest
    · exact raises_textPredicateId v rest

theorem not_pushed {expr : Expression} {inner : GraphPattern} (h : pushes options expr inner = false) :
    Raises (tryTextSearchPushdown options ds expr inner ag) ∧
      ∀ sols, tryTextSearchPushdown options ds expr inner ag = .ok sols → sols = none := by
  unfold pushes at h
  unfold tryTextSearchPushdown
  split
  · next search v q mode patterns hsearch hcall =>
    simp only [hsearch, hcall] at h
    rw [h]
    refine ⟨(raises_textPredicateId v patterns).bind fun _ => raises_ok _, fun sols hsols => ?_⟩
    obtain ⟨_, _, hsols⟩ := bind_ok hsols
    cases hsols
    rfl
  · refine ⟨raises_ok _, fun sols hsols => ?_⟩
    cases hsols
    rfl

theorem substitute_ne_bgp (P : GraphPattern) (μ : Solution) (patterns : List TriplePattern) :
    P.substitute μ ≠ .bgp patterns := by
  have hunder : ∀ Q : GraphPattern, under μ Q ≠ .bgp patterns := by
    intro Q h
    cases h
  have hsettled : ∀ Q Q' : GraphPattern, Q' ≠ .bgp patterns → settled μ Q Q' ≠ .bgp patterns := by
    intro Q Q' hQ'
    unfold settled
    split
    · exact hQ'
    · exact hunder Q
  cases P <;> rw [GraphPattern.substitute]
  all_goals first | exact hunder _ | exact hsettled _ _ nofun

theorem pushdown_substitute (expr : Expression) (P : GraphPattern) (μ : Solution) :
    tryTextSearchPushdown options ds expr (P.substitute μ) ag = .ok none := by
  unfold tryTextSearchPushdown
  split
  · next hbgp => exact absurd hbgp (substitute_ne_bgp P μ _)
  · rfl

end Text

/-! ## The walk -/

section Walk

variable {scalars : Scalars} {options : EvalOptions} {fuel : Nat} {ds : Dataset}

theorem mirrors_bothThen {a a' b b' : Except QueryError (Option Term)}
    {f : Term → Term → Except QueryError (Option Term)} (ha : Mirrors Eq a a') (hb : Mirrors Eq b b') :
    Mirrors Eq (bothThen a b f) (bothThen a' b' f) := by
  refine ha.bind_eq fun av => ?_
  cases av with
  | none => exact .ok rfl
  | some x =>
    refine hb.bind_eq fun bv => ?_
    cases bv with
    | none => exact .ok rfl
    | some y => exact .refl (fun _ => rfl) _

theorem mirrors_toOption {R : List Solution → List Solution → Prop} {r r' : Except QueryError (List Solution)}
    (h : Mirrors R r r') : Mirrors (Option.Rel R) (toOption r) (toOption r') := by
  cases r with
  | ok rows =>
    obtain ⟨rows', rfl, hrel⟩ := h
    exact .ok (.some hrel)
  | error e =>
    by_cases hraised : e.raised = true
    · have herr : (toOption (.error e) : Except QueryError (Option (List Solution))) = .error e := if_pos hraised
      rw [herr]
      exact Or.inl hraised
    · have hnone : (toOption (.error e) : Except QueryError (Option (List Solution))) = .ok none := if_neg hraised
      rw [h.resolve_left hraised, hnone]
      exact .ok .none

/-- A pattern of which no variable is substituted is left as it is. -/
theorem mirrors_settled {P P' : GraphPattern} {μ : Solution} {ag : GraphSelector} {loose : Bool} {Q : Prop}
    (hsources : Sources options ds) (hP : P.ProjectsOnce) (hsep : Untouched μ P ∨ Q)
    (hstep : Q → Mirrors (Narrowed loose μ.get) (evalPattern scalars options fuel ds P ag)
      (evalPattern scalars options fuel ds P' ag)) :
    Mirrors (Narrowed loose μ.get) (evalPattern scalars options fuel ds P ag)
      (evalPattern scalars options fuel ds (settled μ P P') ag) := by
  unfold settled
  split
  · next hany =>
    obtain ⟨v, hv, hμ⟩ := any_eq_true.mp hany
    exact hstep (hsep.resolve_left fun huntouched => huntouched v hv hμ)
  · exact mirrors_leaf fun sols hsols sol hsol => (shaped_evalPattern hsources P hP hsols sol hsol).tidy

theorem countSolutions_paired {distinct : Bool} (hcounts : CountsRows scalars distinct)
    {μ : Mapping} {C : List Variable}
    {group group' : List Solution} (h : List.Forall₂ (Paired μ C) group group') :
    scalars.countSolutions distinct group = scalars.countSolutions distinct group' := by
  have hpairs : ∀ p ∈ group.zip group', Paired μ C p.1 p.2 := fun p hp => forall₂_zip h hp
  have hcount := hcounts (group.zip group') fun p hp q hq => (hpairs p hp).get_eq_iff (hpairs q hq)
  rwa [map_fst_zip h.length_eq.le, map_snd_zip h.length_eq.ge] at hcount

mutual
/-- A pattern under a solution gives the rows that agree with it, each united with it. -/
theorem evalPattern_substitute (hsources : Sources options ds) (hcalls : CallsByValue scalars) :
    ∀ (P : GraphPattern) {μ : Solution} {ag : GraphSelector}
    {loose : Bool}, P.ProjectsOnce → (P.loose = true → loose = true) →
    PatternSeparable scalars options fuel ds P μ ag →
    Mirrors (Narrowed loose μ.get) (evalPattern scalars options fuel ds P ag)
      (evalPattern scalars options fuel ds (P.substitute μ) ag)
  | .bgp patterns, μ, ag, loose, hP, _, _ => by
    exact mirrors_leaf fun sols hsols sol hsol => (shaped_evalPattern hsources _ hP hsols sol hsol).tidy
  | .path subject path object, μ, ag, loose, hP, _, _ => by
    exact mirrors_leaf fun sols hsols sol hsol => (shaped_evalPattern hsources _ hP hsols sol hsol).tidy
  | .join left right, μ, ag, loose, hP, hl, hsep => by
    rw [PatternSeparable] at hsep
    refine mirrors_settled hsources hP hsep fun ⟨hleft, hright⟩ => ?_
    rw [GraphPattern.loose, Bool.or_eq_true] at hl
    refine (evalPattern_substitute hsources hcalls left hP.1 (fun h => hl (Or.inl h)) hleft).bind
      fun ls ls' _ hnl => ?_
    refine (evalPattern_substitute hsources hcalls right hP.2 (fun h => hl (Or.inr h)) hright).bind
      fun rs rs' hrs hnr => ?_
    exact .ok (narrowed_joinSolutions hnl hnr fun r hr => (shaped_evalPattern hsources right hP.2 hrs r hr).tidy)
  | .leftJoin left right expression, μ, ag, loose, hP, hl, hsep => by
    rw [PatternSeparable] at hsep
    refine mirrors_settled hsources hP hsep fun ⟨hleft, hright, hshared, hcond⟩ => ?_
    rw [GraphPattern.loose, Bool.or_eq_true] at hl
    refine (evalPattern_substitute hsources hcalls left hP.1 (fun h => hl (Or.inl h)) hleft).bind
      fun ls ls' hls hnl => ?_
    refine (evalPattern_substitute hsources hcalls right hP.2 (fun h => hl (Or.inr h)) hright).bind
      fun rs rs' hrs hnr => ?_
    have hright := shaped_evalPattern hsources right hP.2 hrs
    refine mirrors_each hnl ?_ ?_ ?_
    · exact fun l _ => raises_leftJoinOne (fun row => raises_evalCondition expression row ag) l
    · intro l hlm l' hagree htidy hget
      have hbinds := (shaped_evalPattern hsources left hP.1 hls l hlm).binds
      refine mirrors_leftJoinOne ⟨hagree, hget, hbinds⟩ htidy hnr (fun r hr => (hright r hr).tidy) ?_
        (fun row => raises_evalCondition expression row ag) ?_
      · exact fun r hr v hv hμ => hshared v ((hright r hr).within v hv) hμ
      · -- a merged row binds what both sides bind
        intro r hr row row' hm hagree' hget'
        refine evalCondition_substitute hsources hcalls expression hcond ⟨hagree', hget', fun v hv => ?_⟩
        rw [isSome_get_mergeCompatible (hright r hr).tidy hm]
        exact (mem_append.mp hv).imp (hbinds v) ((hright r hr).binds v)
    · intro l _ hdropped out hout x hx hagree
      exact hdropped (leftJoinOne_agree (fun r hr => (hright r hr).tidy) hout hx hagree)
  | .lateral left right, μ, ag, loose, hP, hl, hsep => by
    refine mirrors_settled hsources hP hsep fun ⟨hleft, hright, hanswers⟩ => ?_
    rw [GraphPattern.loose, Bool.or_eq_true] at hl
    refine (evalPattern_substitute hsources hcalls left hP.1 (fun h => hl (Or.inl h)) hleft).bind
      fun ls ls' _ hnl => ?_
    have hmirrors := evalPattern_substitute hsources hcalls right hP.2 (fun h => hl (Or.inr h)) hright
    cases hrs : evalPattern scalars options fuel ds right ag with
    | error e =>
      -- the right side fails, but for want of a left solution it may not be asked
      cases ls with
      | nil =>
        cases ls' with
        | nil => exact .ok .nil
        | cons l' _ =>
          obtain ⟨l, hl, -⟩ := hnl.exists_kept l' mem_cons_self
          exact absurd hl not_mem_nil
      | cons l rest => exact Or.inl (raises_evalPattern right hanswers e hrs)
    | ok rs =>
      obtain ⟨rs', hrs', hnr⟩ := hmirrors.of_ok hrs
      have hjoin := narrowed_joinSolutions hnl hnr fun r hr =>
        (shaped_evalPattern hsources right hP.2 hrs r hr).tidy
      have hrun : ∀ rows others : List Solution, (if rows.isEmpty = true then (pure [] : Except QueryError _)
          else do let rs ← (.ok others : Except QueryError (List Solution)); return joinSolutions rows rs) =
          .ok (joinSolutions rows others) := by
        intro rows others
        cases rows with
        | nil => rfl
        | cons row rest => rfl
      rw [hrs', hrun, hrun]
      exact .ok hjoin
  | .filter expr inner, μ, ag, loose, hP, hl, hsep => by
    refine mirrors_settled hsources hP hsep fun ⟨hpush, hinner, hexpr⟩ => ?_
    rw [evalPattern, evalPattern, pushdown_substitute]
    obtain ⟨hraises, hnone⟩ : Raises (tryTextSearchPushdown options ds expr inner ag) ∧
        ∀ sols, tryTextSearchPushdown options ds expr inner ag = .ok sols → sols = none := not_pushed hpush
    cases hpushed : tryTextSearchPushdown options ds expr inner ag with
    | error e => exact Or.inl (hraises e hpushed)
    | ok pushed =>
      rw [hnone pushed hpushed, ok_bind, ok_bind]
      refine (evalPattern_substitute hsources hcalls inner hP hl hinner).bind fun sols sols' hsols hn => ?_
      refine mirrors_filterM hn ?_ ?_
      · exact fun sol _ => (raises_ebvOf (raises_evalExpr expr sol ag)).bind fun _ => raises_ok _
      · intro sol hsol sol' hagree hget
        have hbinds := (shaped_evalPattern hsources inner hP hsols sol hsol).binds
        exact (mirrors_ebvOf (evalExpr_substitute hsources hcalls expr hexpr ⟨hagree, hget, hbinds⟩)).bind_eq
          fun _ => .ok rfl
  | .union left right, μ, ag, loose, hP, hl, hsep => by
    refine mirrors_settled hsources hP hsep fun ⟨hleft, hright⟩ => ?_
    rw [GraphPattern.loose, Bool.or_eq_true] at hl
    refine (evalPattern_substitute hsources hcalls left hP.1 (fun h => hl (Or.inl h)) hleft).bind
      fun ls ls' _ hnl => ?_
    refine (evalPattern_substitute hsources hcalls right hP.2 (fun h => hl (Or.inr h)) hright).bind
      fun rs rs' _ hnr => ?_
    exact .ok (hnl.append hnr)
  | .graph (.namedNode n) inner, μ, ag, loose, hP, hl, hsep => by
    rw [PatternSeparable] at hsep
    refine mirrors_settled hsources hP hsep fun hinner => ?_
    rw [GraphPattern.loose] at hl
    exact evalPattern_substitute hsources hcalls inner hP hl hinner
  | .graph (.var v) inner, μ, ag, loose, hP, hl, hsep => by
    rw [PatternSeparable] at hsep
    refine mirrors_settled hsources hP hsep fun hinner => ?_
    rw [GraphPattern.ProjectsOnce] at hP
    rw [evalPattern, evalPattern]
    cases hnames : ds.namedGraphs with
    | error f => exact Or.inr rfl
    | ok names =>
      have hrun : Mirrors (List.Forall₂ (Narrowed loose μ.get)) (names.mapM fun
            | .namedNode n => do
              let sols ← evalPattern scalars options fuel ds inner (.named (.namedNode n))
              return sols.filterMap (joinGraphName v n)
            | _ => .ok [])
          (names.mapM fun
            | .namedNode n => do
              let sols ← evalPattern scalars options fuel ds (inner.substitute μ) (.named (.namedNode n))
              return sols.filterMap (joinGraphName v n)
            | _ => .ok []) := by
        refine Lifts.mapM fun name hname => ?_
        cases name with
        | namedNode n =>
          refine (evalPattern_substitute hsources hcalls inner hP hl (hinner names hnames n hname)).bind
            fun sols sols' _ hn => ?_
          exact .ok (narrowed_graphName v n hn)
        | blankNode b => exact .ok .nil
        | defaultGraph => exact .ok .nil
      exact hrun.bind fun _ _ _ hall => .ok (Picks.flatten hall)
  | .extend inner v expression, μ, ag, loose, hP, hl, hsep => by
    rw [PatternSeparable] at hsep
    refine mirrors_settled hsources hP hsep fun ⟨hinner, hexpr⟩ => ?_
    rw [GraphPattern.ProjectsOnce] at hP
    have hrun : Mirrors (Narrowed loose (μ.without v).get)
        (evalPattern scalars options fuel ds (.extend inner v expression) ag)
        (evalPattern scalars options fuel ds
          (.extend (inner.substitute (μ.without v)) v (expression.substitute (μ.without v))) ag) := by
      rw [evalPattern_extend, evalPattern_extend]
      refine (evalPattern_substitute hsources hcalls inner hP hl hinner).bind fun sols sols' hsols hn => ?_
      refine mirrors_extend ?_ hn (fun sol => raises_evalExpr expression sol ag) ?_
      · rw [Solution.get_without, if_pos rfl]
      · intro sol hsol sol' hagree hget
        have hbinds := (shaped_evalPattern hsources inner hP hsols sol hsol).binds
        exact evalExpr_substitute hsources hcalls expression hexpr ⟨hagree, hget, hbinds⟩
    refine mirrors_under (fun w t hw => ?_) hrun
    rw [Solution.get_without] at hw
    split at hw
    · cases hw
    · exact hw
  | .minus left right, μ, ag, loose, hP, hl, hsep => by
    rw [PatternSeparable] at hsep
    refine mirrors_settled hsources hP hsep fun ⟨hleft, hright, hminus⟩ => ?_
    rw [GraphPattern.loose, Bool.or_eq_true] at hl
    rw [evalPattern, evalPattern, evalPattern]
    refine (evalPattern_substitute hsources hcalls left hP.1 (fun h => hl (Or.inl h)) hleft).bind
      fun ls ls' hls hnl => ?_
    rw [bind_assoc]
    refine (evalPattern_substitute hsources hcalls right hP.2 (fun h => hl (Or.inr h)) hright).bind
      fun rs rs' hrs hnr => ?_
    have hopen : ∀ v, ¬μ.contains v = true → μ.get v = none := fun v hv => Option.not_isSome_iff_eq_none.mp hv
    refine .ok (hnl.filter fun l hlm l' hagree hl' => congrArg not ?_)
    have hshape := shaped_evalPattern hsources left hP.1 hls l hlm
    have hright := shaped_evalPattern hsources right hP.2 hrs
    refine any_minusCompatible ⟨hagree, hl'.2, hshape.binds⟩ hshape.tidy hl'.1 hnr (fun v => ?_)
      (fun r hr => (hright r hr).within) (fun v hv hμ => ?_) ?_
    · rw [mem_filter, Solution.contains]
      cases hv : μ.get v with
      | none => simp
      | some t => simp
    · rcases hminus with hnone | ⟨hshared, -⟩
      · exact absurd hμ (hnone v hv)
      · exact hshared v hv hμ
    · rcases hminus with hnone | ⟨-, v, hv, hcert, hv'⟩
      · exact Or.inl fun v hv => hopen v (hnone v hv)
      · exact Or.inr ⟨v, hv, hopen v hv', fun r hr => (hright r hr).binds v hcert⟩
  | .values vars bindings, μ, ag, loose, hP, _, _ => by
    exact mirrors_leaf fun sols hsols sol hsol => (shaped_evalPattern hsources _ hP hsols sol hsol).tidy
  | .orderBy inner expression, μ, ag, loose, hP, hl, hsep => by
    rw [PatternSeparable] at hsep
    obtain rfl : loose = true := hl (by rw [GraphPattern.loose])
    refine mirrors_settled hsources hP hsep fun ⟨hinner, horders⟩ => ?_
    rw [GraphPattern.ProjectsOnce] at hP
    refine (evalPattern_substitute hsources hcalls inner hP (fun _ => rfl) hinner).bind
      fun sols sols' hsols hn => ?_
    refine mirrors_orderedBy hn (fun sol => raises_orderKeys expression sol ag) fun sol hsol sol' hagree hget => ?_
    have hbinds := (shaped_evalPattern hsources inner hP hsols sol hsol).binds
    exact orderKeys_substitute hsources hcalls expression horders ⟨hagree, hget, hbinds⟩
  | .project inner vars, μ, ag, loose, hP, hl, hsep => by
    rw [PatternSeparable] at hsep
    refine mirrors_settled hsources hP hsep fun hinner => ?_
    rw [GraphPattern.ProjectsOnce] at hP
    have hrun : Mirrors (Narrowed loose (μ.project vars).get)
        (evalPattern scalars options fuel ds (.project inner vars) ag)
        (evalPattern scalars options fuel ds (.project (inner.substitute (μ.project vars)) vars) ag) := by
      refine (evalPattern_substitute hsources hcalls inner hP.2 hl hinner).bind fun sols sols' _ hn => ?_
      refine .ok (narrowed_project hP.1 (fun v hv => ?_) hn)
      rw [Solution.get_project] at hv
      split at hv
      · assumption
      · cases hv
    refine mirrors_under (fun w t hw => ?_) hrun
    rw [Solution.get_project] at hw
    split at hw
    · exact hw
    · cases hw
  | .distinct inner, μ, ag, loose, hP, hl, hsep => by
    rw [PatternSeparable] at hsep
    refine mirrors_settled hsources hP hsep fun ⟨hinner, hshared, hkeys⟩ => ?_
    rw [GraphPattern.loose] at hl
    refine (evalPattern_substitute hsources hcalls inner hP hl hinner).bind fun sols sols' hsols hn => ?_
    have hshape := shaped_evalPattern hsources inner hP hsols
    refine .ok (narrowed_firstsBy (C := inner.certain) (hkeys sols hsols) hn fun sol hsol => ?_)
    exact ⟨(hshape sol hsol).binds, fun v hv hμ => hshared v ((hshape sol hsol).within v hv) hμ⟩
  | .reduced inner, μ, ag, loose, hP, hl, hsep => by
    rw [PatternSeparable] at hsep
    refine mirrors_settled hsources hP hsep fun hinner => ?_
    rw [GraphPattern.loose] at hl
    exact evalPattern_substitute hsources hcalls inner hP hl hinner
  | .slice inner start length, μ, ag, loose, hP, _, hsep => by
    rw [PatternSeparable] at hsep
    exact mirrors_settled hsources hP (Or.inl hsep) False.elim
  | .group inner vars aggregates, μ, ag, loose, hP, _, hsep => by
    rw [PatternSeparable] at hsep
    refine mirrors_settled hsources hP hsep fun ⟨hloose, hinner, haggs, hshared, htargets, hdisplay⟩ => ?_
    have hrun : Mirrors (Narrowed false fun v => if v ∈ vars then μ.get v else none)
        (evalPattern scalars options fuel ds (.group inner vars aggregates) ag)
        (evalPattern scalars options fuel ds
          (.group (inner.substitute μ) vars (aggregatesSubstitute aggregates μ)) ag) := by
      refine (evalPattern_substitute hsources hcalls inner hP (fun h => hloose.symm.trans h) hinner).bind
        fun sols sols' hsols hn => ?_
      have hshape := shaped_evalPattern hsources inner hP hsols
      refine mirrors_group hdisplay hn (fun sol hsol v hv hμ => ?_) (fun v hv hμ => ?_)
        (fun sol hsol => (hshape sol hsol).binds) (fun v hv hμ => htargets v hv hμ) ?_
      · exact hshared v (mem_append_left _ ((hshape sol hsol).within v hv)) hμ
      · exact (hshared v (mem_append_right _ hv) hμ).2
      · exact fun group group' row hgroup => evalAggregates_substitute hsources hcalls aggregates haggs hgroup row
    refine mirrors_under (fun w t hw => ?_) (hrun.imp fun _ _ _ hn => hn.loosen)
    split at hw
    · exact hw
    · cases hw
  | .service name inner silent, μ, ag, loose, hP, _, hsep => by
    have hname : name.substitute μ = name := by
      cases name with
      | namedNode n => rfl
      | var v =>
        have hv : μ.get v = none := Option.not_isSome_iff_eq_none.mp (hsep v mem_cons_self)
        rw [NamedNodePattern.substitute, hv]
    rw [GraphPattern.substitute, hname]
    exact mirrors_leaf fun sols hsols sol hsol => (shaped_evalPattern hsources _ hP hsols sol hsol).tidy

theorem evalCondition_substitute (hsources : Sources options ds) (hcalls : CallsByValue scalars) :
    ∀ (e : Option Expression) {μ : Solution} {C : List Variable}
    {ag : GraphSelector} {sol sol' : Solution}, ConditionSeparable scalars options fuel ds e μ C ag →
    Joined μ.get C sol sol' →
    Mirrors Eq (evalCondition scalars options fuel ds e sol ag)
      (evalCondition scalars options fuel ds (conditionSubstitute e μ) sol' ag)
  | none, _, _, _, _, _, _, _ => by
    exact .ok rfl
  | some e, _, _, _, _, _, hsep, hj => by
    rw [ConditionSeparable] at hsep
    exact (mirrors_ebvOf (evalExpr_substitute hsources hcalls e hsep hj)).bind_eq fun _ => .ok rfl

/-- An expression reads the same on a row and on that row under the solution. -/
theorem evalExpr_substitute (hsources : Sources options ds) (hcalls : CallsByValue scalars) :
    ∀ (e : Expression) {μ : Solution} {C : List Variable}
    {ag : GraphSelector} {sol sol' : Solution}, ExprSeparable scalars options fuel ds e μ C ag →
    Joined μ.get C sol sol' →
    Mirrors Eq (evalExpr scalars options fuel ds e sol ag)
      (evalExpr scalars options fuel ds (e.substitute μ) sol' ag)
  | .namedNode n, _, _, _, _, _, _, _ => by
    exact .ok rfl
  | .literal l, _, _, _, _, _, _, _ => by
    exact .ok rfl
  | .var v, _, _, _, _, _, hsep, hj => by
    rw [Expression.substitute, evalExpr, evalExpr, hj.get fun hμ => hsep hμ]
    exact .ok rfl
  | .or a b, _, _, _, _, _, hsep, hj => by
    rw [ExprSeparable] at hsep
    refine (mirrors_ebvOf (evalExpr_substitute hsources hcalls a hsep.1 hj)).bind_eq fun _ => ?_
    exact (mirrors_ebvOf (evalExpr_substitute hsources hcalls b hsep.2 hj)).bind_eq fun _ => .ok rfl
  | .and a b, _, _, _, _, _, hsep, hj => by
    rw [ExprSeparable] at hsep
    refine (mirrors_ebvOf (evalExpr_substitute hsources hcalls a hsep.1 hj)).bind_eq fun _ => ?_
    exact (mirrors_ebvOf (evalExpr_substitute hsources hcalls b hsep.2 hj)).bind_eq fun _ => .ok rfl
  | .not e, _, _, _, _, _, hsep, hj => by
    rw [ExprSeparable] at hsep
    exact (mirrors_ebvOf (evalExpr_substitute hsources hcalls e hsep hj)).bind_eq fun _ => .ok rfl
  | .binary op a b, _, _, _, _, _, hsep, hj => by
    rw [ExprSeparable] at hsep
    exact mirrors_bothThen (evalExpr_substitute hsources hcalls a hsep.1 hj)
      (evalExpr_substitute hsources hcalls b hsep.2 hj)
  | .divide a b, _, _, _, _, _, hsep, hj => by
    rw [ExprSeparable] at hsep
    refine (evalExpr_substitute hsources hcalls b hsep.2 hj).bind_eq fun bv => ?_
    cases bv with
    | none => exact .ok rfl
    | some t =>
      dsimp only
      split
      · exact .ok rfl
      · exact (evalExpr_substitute hsources hcalls a hsep.1 hj).bind_eq fun _ => .ok rfl
  | .inList e list, _, _, _, _, _, hsep, hj => by
    rw [ExprSeparable] at hsep
    refine (evalExpr_substitute hsources hcalls e hsep.1 hj).bind_eq fun t => ?_
    cases t with
    | none => exact .ok rfl
    | some t => exact evalIn_substitute hsources hcalls t list false hsep.2 hj
  | .unaryPlus e, _, _, _, _, _, hsep, hj => by
    rw [ExprSeparable] at hsep
    exact (evalExpr_substitute hsources hcalls e hsep hj).bind_eq fun _ => .ok rfl
  | .unaryMinus e, _, _, _, _, _, hsep, hj => by
    rw [ExprSeparable] at hsep
    exact (evalExpr_substitute hsources hcalls e hsep hj).bind_eq fun _ => .ok rfl
  | .exists pattern, μ, _, ag, _, _, hsep, hj => by
    obtain ⟨hP, hpattern, hshared⟩ := hsep
    -- the rows that agree are found on both sides
    have hrows : Mirrors (fun sols sols' => Narrowed true μ.get sols sols' ∧ ∀ c ∈ sols, Shaped pattern c)
        (evalPattern scalars options fuel ds pattern ag)
        (evalPattern scalars options fuel ds (pattern.substitute μ) ag) :=
      (evalPattern_substitute hsources hcalls pattern hP (fun _ => rfl) hpattern).imp fun sols sols' hsols hn =>
        ⟨hn, shaped_evalPattern hsources pattern hP hsols⟩
    refine (mirrors_toOption hrows).bind fun found found' _ hfound => ?_
    cases hfound with
    | none => exact .ok rfl
    | some hn =>
      obtain ⟨hn, hshape⟩ := hn
      refine .ok (congrArg some (congrArg boolTerm ?_))
      exact any_mergeCompatible hn hj fun c hc =>
        ⟨(hshape c hc).tidy, fun v hv hμ => hshared v ((hshape c hc).within v hv) hμ⟩
  | .bound v, _, _, _, _, _, hsep, hj => by
    rw [Expression.substitute, evalExpr, evalExpr, Solution.contains, Solution.contains,
      hj.get fun hμ => hsep hμ]
    exact .ok rfl
  | .ite cond thenE elseE, _, _, _, _, _, hsep, hj => by
    refine (mirrors_ebvOf (evalExpr_substitute hsources hcalls cond hsep.1 hj)).bind_eq fun b => ?_
    rcases b with _ | _ | _
    · exact .ok rfl
    · exact evalExpr_substitute hsources hcalls elseE hsep.2.2 hj
    · exact evalExpr_substitute hsources hcalls thenE hsep.2.1 hj
  | .coalesce list, _, _, _, _, _, hsep, hj => by
    exact evalCoalesce_substitute hsources hcalls list hsep hj
  | .functionCall func args, _, _, _, sol, sol', hsep, hj => by
    refine (evalArgs_substitute hsources hcalls args hsep.2 hj).bind_eq fun values => ?_
    rw [hcalls func values sol sol' hsep.1]
    exact .refl (fun _ => rfl) _

theorem evalIn_substitute (hsources : Sources options ds) (hcalls : CallsByValue scalars) (t : Term) :
    ∀ (list : List Expression) (hadErr : Bool) {μ : Solution}
    {C : List Variable} {ag : GraphSelector} {sol sol' : Solution},
      ExprsSeparable scalars options fuel ds list μ C ag →
    Joined μ.get C sol sol' →
    Mirrors Eq (evalIn scalars options fuel ds t hadErr list sol ag)
      (evalIn scalars options fuel ds t hadErr (expressionsSubstitute list μ) sol' ag)
  | [], _, _, _, _, _, _, _, _ => by
    exact .ok rfl
  | e :: rest, hadErr, _, _, _, _, _, hsep, hj => by
    rw [ExprsSeparable] at hsep
    refine (evalExpr_substitute hsources hcalls e hsep.1 hj).bind_eq fun item => ?_
    cases item with
    | none => exact evalIn_substitute hsources hcalls t rest true hsep.2 hj
    | some item =>
      dsimp only
      split
      · exact .ok rfl
      · exact evalIn_substitute hsources hcalls t rest hadErr hsep.2 hj

theorem evalCoalesce_substitute (hsources : Sources options ds) (hcalls : CallsByValue scalars) :
    ∀ (list : List Expression) {μ : Solution} {C : List Variable}
    {ag : GraphSelector} {sol sol' : Solution}, ExprsSeparable scalars options fuel ds list μ C ag →
    Joined μ.get C sol sol' →
    Mirrors Eq (evalCoalesce scalars options fuel ds list sol ag)
      (evalCoalesce scalars options fuel ds (expressionsSubstitute list μ) sol' ag)
  | [], _, _, _, _, _, _, _ => by
    exact .ok rfl
  | e :: rest, _, _, _, _, _, hsep, hj => by
    rw [ExprsSeparable] at hsep
    refine (evalExpr_substitute hsources hcalls e hsep.1 hj).bind_eq fun t => ?_
    cases t with
    | none => exact evalCoalesce_substitute hsources hcalls rest hsep.2 hj
    | some t => exact .ok rfl

theorem evalArgs_substitute (hsources : Sources options ds) (hcalls : CallsByValue scalars) :
    ∀ (list : List Expression) {μ : Solution} {C : List Variable}
    {ag : GraphSelector} {sol sol' : Solution}, ExprsSeparable scalars options fuel ds list μ C ag →
    Joined μ.get C sol sol' →
    Mirrors Eq (evalArgs scalars options fuel ds list sol ag)
      (evalArgs scalars options fuel ds (expressionsSubstitute list μ) sol' ag)
  | [], _, _, _, _, _, _, _ => by
    exact .ok rfl
  | e :: rest, _, _, _, _, _, hsep, hj => by
    rw [ExprsSeparable] at hsep
    refine (evalExpr_substitute hsources hcalls e hsep.1 hj).bind_eq fun _ => ?_
    exact (evalArgs_substitute hsources hcalls rest hsep.2 hj).bind_eq fun _ => .ok rfl

/-- The keys are found on both sides; they may differ where they only order. -/
theorem orderKeys_substitute (hsources : Sources options ds) (hcalls : CallsByValue scalars) :
    ∀ (list : List OrderExpression) {μ : Solution} {C : List Variable}
    {ag : GraphSelector} {sol sol' : Solution}, OrdersSeparable scalars options fuel ds list μ C ag →
    Joined μ.get C sol sol' →
    Mirrors (fun _ _ => True) (orderKeys scalars options fuel ds list sol ag)
      (orderKeys scalars options fuel ds (ordersSubstitute list μ) sol' ag)
  | [], _, _, _, _, _, _, _ => by
    exact .ok trivial
  | oe :: rest, _, _, _, _, _, hsep, hj => by
    rw [OrdersSeparable] at hsep
    refine (orderKey_substitute hsources hcalls oe hsep.1 hj).bind fun _ _ _ _ => ?_
    exact (orderKeys_substitute hsources hcalls rest hsep.2 hj).bind fun _ _ _ _ => .ok trivial

theorem orderKey_substitute (hsources : Sources options ds) (hcalls : CallsByValue scalars) :
    ∀ (oe : OrderExpression) {μ : Solution} {C : List Variable}
    {ag : GraphSelector} {sol sol' : Solution}, OrderSeparable scalars options fuel ds oe μ C ag →
    Joined μ.get C sol sol' →
    Mirrors (fun _ _ => True) (orderKey scalars options fuel ds oe sol ag)
      (orderKey scalars options fuel ds (oe.substitute μ) sol' ag)
  | .asc e, _, _, _, _, _, hsep, hj => by
    rw [OrderSeparable] at hsep
    rcases hsep with ⟨v, rfl⟩ | hsep
    · exact .ok trivial
    · exact (evalExpr_substitute hsources hcalls e hsep hj).bind fun _ _ _ _ => .ok trivial
  | .desc e, _, _, _, _, _, hsep, hj => by
    rw [OrderSeparable] at hsep
    rcases hsep with ⟨v, rfl⟩ | hsep
    · exact .ok trivial
    · exact (evalExpr_substitute hsources hcalls e hsep hj).bind fun _ _ _ _ => .ok trivial

theorem evalAggregates_substitute (hsources : Sources options ds) (hcalls : CallsByValue scalars) :
    ∀ (aggs : List Aggregate) {μ : Solution} {C : List Variable}
    {ag : GraphSelector} {group group' : List Solution}, AggregatesSeparable scalars options fuel ds aggs μ C ag →
    List.Forall₂ (Paired μ.get C) group group' →
    ∀ row, Mirrors Eq (evalAggregates scalars options fuel ds aggs group row ag)
      (evalAggregates scalars options fuel ds (aggregatesSubstitute aggs μ) group' row ag)
  | [], _, _, _, _, _, _, _, _ => by
    exact .ok rfl
  | agg :: rest, _, _, _, _, _, hsep, hgroup, row => by
    rw [AggregatesSeparable] at hsep
    refine (evalAggregate_substitute hsources hcalls agg hsep.1 hgroup row).bind_eq fun next => ?_
    exact evalAggregates_substitute hsources hcalls rest hsep.2 hgroup next

theorem evalAggregate_substitute (hsources : Sources options ds) (hcalls : CallsByValue scalars) :
    ∀ (agg : Aggregate) {μ : Solution} {C : List Variable}
    {ag : GraphSelector} {group group' : List Solution}, AggregateSeparable scalars options fuel ds agg μ C ag →
    List.Forall₂ (Paired μ.get C) group group' →
    ∀ row, Mirrors Eq (evalAggregate scalars options fuel ds agg group row ag)
      (evalAggregate scalars options fuel ds (agg.substitute μ) group' row ag)
  | .countSolutions v distinct, _, _, _, _, _, hsep, hgroup, row => by
    rw [Aggregate.substitute, evalAggregate, evalAggregate]
    rw [countSolutions_paired hsep hgroup]
    exact .ok rfl
  | .functionCall v name e distinct, _, _, _, _, _, hsep, hgroup, row => by
    rw [AggregateSeparable] at hsep
    refine Lifts.bind_eq ?_ fun values => .ok rfl
    -- row by row along the two groups
    induction hgroup with
    | nil => exact .ok rfl
    | cons hpair _ ih =>
      rw [List.mapM_cons, List.mapM_cons]
      exact (evalExpr_substitute hsources hcalls e hsep hpair.1).bind_eq fun _ => ih.bind_eq fun _ => .ok rfl
end

end Walk

/-! ## `EXISTS` -/

/-- `EXISTS` is true just when the pattern under the row has a solution. -/
def ExistsSubstitutes (scalars : Scalars) (options : EvalOptions) (fuel : Nat) (ds : Dataset) (P : GraphPattern)
    (μ : Solution) (ag : GraphSelector) : Prop :=
  ∀ value, evalExpr scalars options fuel ds (.exists P) μ ag = .ok value →
    (value = some (boolTerm true) ↔
      ∃ rows, evalPattern scalars options fuel ds (P.substitute μ) ag = .ok rows ∧ rows ≠ [])

/-- Where the pattern and the solution are separable, `EXISTS` is true just when the
pattern under the solution has one. -/
theorem exists_substitutes (scalars : Scalars) (options : EvalOptions) (fuel : Nat) (ds : Dataset)
    (hsources : Sources options ds) (hcalls : CallsByValue scalars) (P : GraphPattern) (hP : P.ProjectsOnce)
    (μ : Solution) (ag : GraphSelector) (hsep : PatternSeparable scalars options fuel ds P μ ag) :
    ExistsSubstitutes scalars options fuel ds P μ ag := by
  intro value hvalue
  have hmirrors := evalPattern_substitute hsources hcalls P hP (fun _ => rfl) hsep
  rw [evalExpr] at hvalue
  cases hrows : evalPattern scalars options fuel ds P ag with
  | error e =>
    rw [hrows] at hvalue hmirrors
    obtain ⟨found, hfound, hvalue⟩ := bind_ok hvalue
    unfold toOption at hfound
    dsimp only at hfound
    split at hfound
    · cases hfound
    · next hraised =>
      -- the pattern fails on both sides, and the expression has no value
      cases hfound
      cases hvalue
      rw [hmirrors.resolve_left hraised]
      exact iff_of_false nofun fun ⟨_, hok, _⟩ => by cases hok
  | ok rows =>
    rw [hrows] at hvalue
    cases hvalue
    obtain ⟨rows', hrows', hn⟩ := hmirrors.of_ok hrows
    have hshape := shaped_evalPattern hsources P hP hrows
    have hany : (rows.any fun c => (μ.mergeCompatible c).isSome) = true ↔ rows' ≠ [] := by
      rw [any_eq_true]
      constructor
      · rintro ⟨c, hc, hm⟩
        obtain ⟨c', hc', -⟩ := hn.exists_partner c hc ((isSome_mergeCompatible (hshape c hc).tidy).mp hm)
        exact ne_nil_of_mem hc'
      · intro hne
        obtain ⟨c', hc'⟩ := exists_mem_of_ne_nil rows' hne
        obtain ⟨c, hc, hagree, -⟩ := hn.exists_kept c' hc'
        exact ⟨c, hc, (isSome_mergeCompatible (hshape c hc).tidy).mpr hagree⟩
    have hsome : ∀ b : Bool, (some (boolTerm b) = some (boolTerm true)) ↔ b = true := fun b =>
      ⟨fun h => boolTerm_injective (Option.some.inj h), fun h => by rw [h]⟩
    rw [hsome, hany, hrows']
    exact ⟨fun hne => ⟨rows', rfl, hne⟩, fun ⟨_, hok, hne⟩ => by cases hok; exact hne⟩

theorem rows_of_countOf {r : Except QueryError (List Solution)} {n : Nat} (h : countOf r = some n) :
    ∃ rows, r = .ok rows ∧ rows.length = n := by
  cases r with
  | error e => cases h
  | ok rows => exact ⟨rows, rfl, Option.some.inj h⟩

/-- Also effective boolean values and `sameTerm`. -/
def termScalars : Scalars :=
  { iriScalars with
    toEbv := fun t => if t = boolTerm true then some true else if t = boolTerm false then some false else none
    binary := fun op a b => if op = .sameTerm then some (boolTerm (decide (a = b))) else none }

theorem sources_labelStore : Sources plainOptions (storeDataset labelStore.quadStore) where
  joins := joinBinds_of_nested rfl
  services _ _ _ _ h := by cases h
  texts _ _ _ _ _ h := by cases h

/-- `?x p ?y`, where `?y` is the other variable. -/
def sameObject (other : String) : GraphPattern :=
  .filter (.binary .sameTerm (.var ⟨"y"⟩) (.var ⟨other⟩)) (.bgp [⟨.var ⟨"x"⟩, .namedNode ⟨"p"⟩, .var ⟨"y"⟩⟩])

/-- The filter reads what the pattern binds. -/
theorem exists_substitutes_own :
    evalExpr termScalars plainOptions 8 (storeDataset labelStore.quadStore) (.exists (sameObject "y"))
        (Solution.new.insert ⟨"y"⟩ (.namedNode ⟨"b"⟩)) .default = .ok (some (boolTerm true)) ∧
      ExistsSubstitutes termScalars plainOptions 8 (storeDataset labelStore.quadStore) (sameObject "y")
        (Solution.new.insert ⟨"y"⟩ (.namedNode ⟨"b"⟩)) .default := by
  refine ⟨by decide +kernel, exists_substitutes _ _ _ _ sources_labelStore (fun _ _ _ _ _ => rfl) _ ?_ _ _ ?_⟩
  · rw [sameObject, GraphPattern.ProjectsOnce, GraphPattern.ProjectsOnce]
    trivial
  refine Or.inr ⟨rfl, trivial, fun _ => ?_, fun _ => ?_⟩
  · decide +kernel
  · decide +kernel

/-- The filter reads a variable of the outer solution alone: it is an error in every row. -/
theorem exists_misses_outer :
    evalExpr termScalars plainOptions 8 (storeDataset labelStore.quadStore) (.exists (sameObject "z"))
        (Solution.new.insert ⟨"z"⟩ (.namedNode ⟨"b"⟩)) .default = .ok (some (boolTerm false)) ∧
      countOf (evalPattern termScalars plainOptions 8 (storeDataset labelStore.quadStore)
        ((sameObject "z").substitute (Solution.new.insert ⟨"z"⟩ (.namedNode ⟨"b"⟩))) .default) = some 1 ∧
      ¬ExistsSubstitutes termScalars plainOptions 8 (storeDataset labelStore.quadStore) (sameObject "z")
        (Solution.new.insert ⟨"z"⟩ (.namedNode ⟨"b"⟩)) .default := by
  have hcode : evalExpr termScalars plainOptions 8 (storeDataset labelStore.quadStore) (.exists (sameObject "z"))
      (Solution.new.insert ⟨"z"⟩ (.namedNode ⟨"b"⟩)) .default = .ok (some (boolTerm false)) := by
    decide +kernel
  have hmeant : countOf (evalPattern termScalars plainOptions 8 (storeDataset labelStore.quadStore)
      ((sameObject "z").substitute (Solution.new.insert ⟨"z"⟩ (.namedNode ⟨"b"⟩))) .default) = some 1 := by
    decide +kernel
  refine ⟨hcode, hmeant, fun h => ?_⟩
  obtain ⟨rows, hrows, hlength⟩ := rows_of_countOf hmeant
  have htrue := (h _ hcode).mpr ⟨rows, hrows, ne_nil_of_length_eq_add_one hlength⟩
  exact absurd (boolTerm_injective (Option.some.inj htrue)) (by decide)

/-! ## `LATERAL` -/

/-- What `LATERAL` means: the right side under each solution of the left side, merged with
that solution. -/
def evalLateral (scalars : Scalars) (options : EvalOptions) (fuel : Nat) (ds : Dataset) (left right : GraphPattern)
    (ag : GraphSelector) : Except QueryError (List Solution) := do
  let ls ← evalPattern scalars options fuel ds left ag
  let each ← ls.mapM fun μ => do
    let rs ← evalPattern scalars options fuel ds (right.substitute μ) ag
    return rs.filterMap μ.mergeCompatible
  return each.flatten

/-- `LATERAL` gives the same rows, and fails where that fails. -/
def LateralSubstitutes (scalars : Scalars) (options : EvalOptions) (fuel : Nat) (ds : Dataset)
    (left right : GraphPattern) (ag : GraphSelector) : Prop :=
  Mirrors (fun rows rows' => (rows.map Solution.get).Perm (rows'.map Solution.get))
    (evalPattern scalars options fuel ds (.lateral left right) ag)
    (evalLateral scalars options fuel ds left right ag)

section Lateral

variable {μ : Solution} {loose : Bool}

theorem map_get_merged {rs : List Solution} (hrs : ∀ r ∈ rs, r.Tidy) :
    (rs.filterMap μ.mergeCompatible).map Solution.get = (rs.map Solution.get).filterMap (PartialMap.unite μ.get) := by
  rw [map_filterMap, filterMap_map]
  exact filterMap_congr fun r hr => Solution.map_get_mergeCompatible (hrs r hr)

theorem perm_merged {rs rs' : List Solution} (hrs : ∀ r ∈ rs, r.Tidy) (h : Narrowed loose μ.get rs rs') :
    ((rs.filterMap μ.mergeCompatible).map Solution.get).Perm
      ((rs'.filterMap μ.mergeCompatible).map Solution.get) := by
  have hrs' : ∀ r' ∈ rs', r'.Tidy := by
    intro r' hr'
    obtain ⟨r, -, -, htidy, -⟩ := h.exists_kept r' hr'
    exact htidy
  have hunite : ∀ ν, (PartialMap.unite μ.get ν).bind (PartialMap.unite μ.get) = PartialMap.unite μ.get ν := by
    intro ν
    rw [← PartialMap.unite_assoc, PartialMap.unite_self, Option.bind_some]
  have hmerged := h.perm.filterMap (PartialMap.unite μ.get)
  rw [filterMap_filterMap] at hmerged
  simp only [hunite] at hmerged
  rw [map_get_merged hrs, map_get_merged hrs']
  exact hmerged.symm

/-- What is merged for each left solution is, all together, the join. -/
theorem perm_lateral {rs : List Solution} {f : Solution → Except QueryError (List Solution)} : ∀
    {ls : List Solution},
    (∀ μ ∈ ls, ∃ out, f μ = .ok out ∧
      ((rs.filterMap μ.mergeCompatible).map Solution.get).Perm (out.map Solution.get)) →
    ∃ each, ls.mapM f = .ok each ∧ ((joinSolutions ls rs).map Solution.get).Perm (each.flatten.map Solution.get)
  | [], _ => ⟨[], rfl, .nil⟩
  | l :: ls, h => by
    obtain ⟨hl, hls⟩ := forall_mem_cons.mp h
    obtain ⟨out, hout, hperm⟩ := hl
    obtain ⟨each, heach, hrest⟩ := perm_lateral hls
    refine ⟨out :: each, by rw [mapM_cons, hout, heach]; rfl, ?_⟩
    rw [joinSolutions, flatMap_cons, flatten_cons, map_append, map_append]
    exact hperm.append hrest

end Lateral

/-- Where the right side is separable from every left solution, `LATERAL` gives what the
right side gives under each of them. -/
theorem lateral_substitutes (scalars : Scalars) (options : EvalOptions) (fuel : Nat) (ds : Dataset)
    (hsources : Sources options ds) (hcalls : CallsByValue scalars) (left right : GraphPattern)
    (hright : right.ProjectsOnce) (ag : GraphSelector)
    (hsep : ∀ ls, evalPattern scalars options fuel ds left ag = .ok ls →
      ∀ μ ∈ ls, PatternSeparable scalars options fuel ds right μ ag) :
    LateralSubstitutes scalars options fuel ds left right ag := by
  unfold LateralSubstitutes evalLateral
  rw [evalPattern]
  cases hls : evalPattern scalars options fuel ds left ag with
  | error e => exact Or.inr rfl
  | ok ls =>
    rw [ok_bind, ok_bind]
    have hmirrors : ∀ μ ∈ ls, Mirrors (Narrowed true μ.get) (evalPattern scalars options fuel ds right ag)
        (evalPattern scalars options fuel ds (right.substitute μ) ag) := fun μ hμ =>
      evalPattern_substitute hsources hcalls right hright (fun _ => rfl) (hsep ls hls μ hμ)
    cases ls with
    | nil => exact .ok .nil
    | cons l rest =>
      cases hrs : evalPattern scalars options fuel ds right ag with
      | error e =>
        -- the right side fails for the first solution, on both sides
        refine or_iff_not_imp_left.mpr fun hraised => ?_
        have hfirst := hmirrors l mem_cons_self
        rw [hrs] at hfirst
        rw [mapM_cons, hfirst.resolve_left hraised]
        rfl
      | ok rs =>
        have hout : ∀ μ ∈ l :: rest, ∃ out, (do
              let rs ← evalPattern scalars options fuel ds (right.substitute μ) ag
              return rs.filterMap μ.mergeCompatible) = (.ok out : Except QueryError (List Solution)) ∧
            ((rs.filterMap μ.mergeCompatible).map Solution.get).Perm (out.map Solution.get) := by
          intro μ hμ
          obtain ⟨rs', hrs', hn⟩ := (hmirrors μ hμ).of_ok hrs
          refine ⟨rs'.filterMap μ.mergeCompatible, by rw [hrs']; rfl, ?_⟩
          exact perm_merged (fun r hr => (shaped_evalPattern hsources right hright hrs r hr).tidy) hn
        obtain ⟨each, heach, hperm⟩ := perm_lateral hout
        rw [heach]
        exact .ok hperm

/-- `?x q ?v`. -/
def objects (v : String) : GraphPattern := .bgp [⟨.var ⟨"x"⟩, .namedNode ⟨"q"⟩, .var ⟨v⟩⟩]

/-- Right sides that are joined with each left solution: a BGP, and one whose filter reads
what the pattern binds. -/
theorem lateral_substitutes_bgp :
    (countOf (evalPattern iriScalars plainOptions 8 (storeDataset labelStore.quadStore)
        (.lateral (objects "y") (objects "z")) .default) = some 2 ∧
      LateralSubstitutes iriScalars plainOptions 8 (storeDataset labelStore.quadStore) (objects "y") (objects "z")
        .default) ∧
    countOf (evalPattern termScalars plainOptions 8 (storeDataset labelStore.quadStore)
        (.lateral (sameObject "y") (sameObject "y")) .default) = some 1 ∧
      LateralSubstitutes termScalars plainOptions 8 (storeDataset labelStore.quadStore) (sameObject "y") (sameObject "y")
        .default := by
  constructor
  · refine ⟨by decide +kernel, lateral_substitutes _ _ _ _ sources_labelStore (fun _ _ _ _ _ => rfl) _ _ ?_ _ ?_⟩
    · rw [objects, GraphPattern.ProjectsOnce]
      trivial
    · intro ls _ μ _
      trivial
  · refine ⟨by decide +kernel, lateral_substitutes _ _ _ _ sources_labelStore (fun _ _ _ _ _ => rfl) _ _ ?_ _ ?_⟩
    · rw [sameObject, GraphPattern.ProjectsOnce, GraphPattern.ProjectsOnce]
      trivial
    · intro ls _ μ _
      refine Or.inr ⟨rfl, trivial, fun _ => ?_, fun _ => ?_⟩
      · decide +kernel
      · decide +kernel

/-- One solution of the right side is taken in all, and not one for each left solution. -/
theorem lateral_limits_once :
    countOf (evalPattern iriScalars plainOptions 8 (storeDataset labelStore.quadStore)
        (.lateral (objects "y") (.slice (objects "z") 0 (some 1))) .default) = some 1 ∧
      countOf (evalLateral iriScalars plainOptions 8 (storeDataset labelStore.quadStore) (objects "y")
        (.slice (objects "z") 0 (some 1)) .default) = some 2 ∧
      ¬LateralSubstitutes iriScalars plainOptions 8 (storeDataset labelStore.quadStore) (objects "y")
        (.slice (objects "z") 0 (some 1)) .default := by
  have hcode : countOf (evalPattern iriScalars plainOptions 8 (storeDataset labelStore.quadStore)
      (.lateral (objects "y") (.slice (objects "z") 0 (some 1))) .default) = some 1 := by
    decide +kernel
  have hmeant : countOf (evalLateral iriScalars plainOptions 8 (storeDataset labelStore.quadStore) (objects "y")
      (.slice (objects "z") 0 (some 1)) .default) = some 2 := by
    decide +kernel
  refine ⟨hcode, hmeant, fun h => ?_⟩
  obtain ⟨rows, hrows, hlength⟩ := rows_of_countOf hcode
  obtain ⟨rows', hrows', hlength'⟩ := rows_of_countOf hmeant
  unfold LateralSubstitutes at h
  obtain ⟨meant, hmeant, hperm⟩ := h.of_ok hrows
  rw [hrows'] at hmeant
  cases hmeant
  have hlengths := hperm.length_eq
  rw [length_map, length_map] at hlengths
  omega

end Eval

end Nova
