import Nova.Query.Labels
import Nova.Query.SolutionMap

/-!
# What a pattern binds

The variables that a solution of a pattern may bind (`scope`) and those that each of its
solutions binds (`certain`), read off the pattern. `shaped_evalPattern` says that they are
what they are called, and that the solutions are partial maps. That holds as far as the
parts that are not the evaluator's keep to it (`Sources`): the ids that a join lists have
terms, a service answers for its pattern, and the text index lists literals.

A projection that lists a variable twice makes rows that are no partial maps, so it is
left out (`ProjectsOnce`).
-/

namespace Nova

open Nova.Lib List Solution

/-! ## Rows of a BGP -/

variable {sol : Solution}

theorem extends_bindMatch {tp : TriplePattern} {current : Solution} {q : QuadMatch}
    (h : bindMatch tp current q = some sol) : Extends current.get sol.get tp.vars := by
  have hbind := ((binds_bindVarArc (termPatternWithSol tp.subject current).2 q.subject).seq
    (local_var _ _) ((binds_bindVarArc (nnPatternWithSol tp.predicate current).2 q.predicate).seq (local_var _ _)
    ((binds_bindVarArc (termPatternWithSol tp.object current).2 q.object).seq (local_var _ _)
    ((binds_bindQuoted tp.subject q.subject).seq (tp.subject.quotedMatches_local _)
      (binds_bindQuoted tp.object q.object))))) current sol.get
  exact (hbind.mp ⟨sol, h, rfl⟩).1.congr (positions_vars tp current)

variable {patterns : List TriplePattern}

variable {ds : Dataset}

theorem hasDomain_evalPatterns {options : QueryOptions} {graph : GraphSelector}
    {sols out : List Solution} (h : ∀ sol ∈ sols, HasDomain sol.get [])
    (hr : evalPatterns ds options graph patterns sols = .ok out) : ∀ sol ∈ out,
      HasDomain sol.get (bgpVars patterns) := by
  refine evalPatterns_run (I := fun done sol => HasDomain sol.get (bgpVars done)) [] ?_ h hr
  intro done tp _ sol sol' q hsol hq v
  rw [(extends_bindMatch hq).binds, hsol v, bgpVars, bgpVars, flatMap_append, mem_append]
  simp

namespace Solution

theorem mem_vars_of_get {v : Variable} (h : (sol.get v).isSome = true) : v ∈ sol.vars := by
  refine Classical.byContradiction fun hv => ?_
  rw [get, positionIn_eq_none.mpr hv] at h
  cases h

theorem get_project (sol : Solution) (vars : List Variable) (v : Variable) :
    (sol.project vars).get v = if v ∈ vars then sol.get v else none := by
  have hcells : (sol.project vars).cells =
      (vars.filterMap fun v => (sol.get v).map fun t => (v, t)).map fun cell => (cell.1, some cell.2) := by
    unfold cells project
    rw [zip_map']
  rw [get_eq, hcells]
  clear hcells
  induction vars with
  | nil => rfl
  | cons w vars ih =>
    by_cases hw : w = v
    · rw [← hw] at ih ⊢
      rw [if_pos mem_cons_self]
      cases hget : sol.get w with
      | none =>
        rw [filterMap_cons_none (by rw [hget]; rfl), ih]
        split
        · exact hget
        · rfl
      | some t =>
        rw [filterMap_cons_some (by rw [hget]; rfl)]
        exact if_pos rfl
    · have hmem : v ∈ w :: vars ↔ v ∈ vars := by
        rw [mem_cons]
        exact or_iff_right fun heq => hw heq.symm
      simp only [hmem]
      rw [← ih]
      cases hget : sol.get w with
      | none => rw [filterMap_cons_none (by rw [hget]; rfl)]
      | some t =>
        rw [filterMap_cons_some (by rw [hget]; rfl), map_cons, lookupIn, if_neg hw]

end Solution

/-- Every id that a join lists has a term. -/
def JoinBinds (ds : Dataset) : Prop :=
  ∀ patterns graph sols, Lftj.evalBgpLftj ds patterns graph = .ok (some sols) →
    ∀ sol ∈ sols, ∀ v ∈ bgpVars patterns, (sol.get v).isSome = true

theorem joinBinds_of_nested (h : ds.supportsLftj = false) : JoinBinds ds := by
  intro patterns graph sols hsols
  unfold Lftj.evalBgpLftj at hsols
  simp [h] at hsols

variable {sols : List Solution}

theorem evalBgp_rows (hds : JoinBinds ds) {options : QueryOptions}
    {graph : GraphSelector} (h : evalBgp ds options patterns graph = .ok sols) :
    ∀ sol ∈ sols, sol.Proper ∧ HasDomain sol.get (bgpVars patterns) := by
  obtain ⟨joined, hjoined, h⟩ := bind_ok h
  intro sol hsol
  cases joined with
  | some found =>
    cases h
    have hvars := Lftj.evalBgpLftj_vars hjoined sol hsol
    refine ⟨?_, fun v => ⟨fun hv => ?_, hds _ _ _ hjoined sol hsol v⟩⟩
    · rw [Solution.Proper, hvars]
      exact nodup_firsts _
    · refine Lftj.within_collectJoinVars patterns v ?_
      rw [← hvars]
      exact mem_vars_of_get hv
  | none =>
    have hnew : ∀ sol ∈ [Solution.new], sol.Proper ∧ HasDomain sol.get [] := by
      intro sol hsol
      rw [mem_singleton.mp hsol]
      exact ⟨proper_new, fun v => by simp⟩
    exact ⟨proper_evalPatterns (fun sol hsol => (hnew sol hsol).1) h sol hsol,
      hasDomain_evalPatterns (fun sol hsol => (hnew sol hsol).2) h sol hsol⟩

/-! ## Rows of a path -/

namespace Path

theorem extends_matchTermPattern {tp : TermPattern} {t : Term} {sol' : Solution}
    (h : matchTermPattern tp t sol = some sol') : Extends sol.get sol'.get (endVars tp) := by
  have hguard : ∀ {P : Prop} [Decidable P], (if P then some sol else none) = some sol' →
      Extends sol.get sol'.get [] := by
    intro P _ hif
    split at hif
    · cases hif
      exact .refl _
    · cases hif
  cases tp with
  | var v => exact ((binds_bindVariable v t sol sol'.get).mp ⟨sol', h, rfl⟩).1
  | blankNode b => exact ((binds_bindVariable (bnodePathVar b) t sol sol'.get).mp ⟨sol', h, rfl⟩).1
  | namedNode n => exact hguard h
  | literal l => exact hguard h
  | triple s p o => cases h

theorem evalPath_rows {fp : Term → Nat} {display : Term → String} {solutionKey : Solution → Nat} {fuel : Nat}
    {ag : GraphSelector} {s o : TermPattern} {path : PropertyPathExpression}
    (h : evalPath fp display solutionKey fuel ds ag s path o = .ok sols) :
    ∀ sol ∈ sols, sol.Proper ∧ HasDomain sol.get (endVars s ++ endVars o) := by
  intro sol hsol
  obtain ⟨pairs, _, hr⟩ := bind_ok h
  cases hr
  obtain ⟨pair, _, hm⟩ := mem_filterMap.mp (mem_of_mem_firstsBy hsol).1
  obtain ⟨first, hfirst, hm⟩ := Option.bind_eq_some_iff.mp hm
  refine ⟨proper_matchTermPattern (proper_matchTermPattern proper_new hfirst) hm, fun v => ?_⟩
  rw [((extends_matchTermPattern hfirst).trans (extends_matchTermPattern hm)).binds]
  simp

end Path

/-! ## Variables of patterns -/

namespace GraphPattern

/-- The variables that the aggregates bind. -/
def targets (aggregates : List Aggregate) : List Variable :=
  aggregates.map fun
    | .countSolutions v _ => v
    | .functionCall v _ _ _ => v

/-- The variables that a solution may bind. -/
def scope : GraphPattern → List Variable
  | .bgp patterns => bgpVars patterns
  | .path s _ o => Path.endVars s ++ Path.endVars o
  | .join left right => left.scope ++ right.scope
  | .leftJoin left right _ => left.scope ++ right.scope
  | .lateral left right => left.scope ++ right.scope
  | .filter _ inner => inner.scope
  | .union left right => left.scope ++ right.scope
  | .graph (.namedNode _) inner => inner.scope
  | .graph (.var v) inner => v :: inner.scope
  | .extend inner v _ => v :: inner.scope
  | .minus left _ => left.scope
  | .values vars _ => vars
  | .orderBy inner _ => inner.scope
  | .project inner vars => vars.filter fun v => v ∈ inner.scope
  | .distinct inner => inner.scope
  | .reduced inner => inner.scope
  | .slice inner _ _ => inner.scope
  | .group inner vars aggregates => (vars.filter fun v => v ∈ inner.scope) ++ targets aggregates
  | .service _ inner _ => inner.scope

/-- The variables that every solution binds. -/
def certain : GraphPattern → List Variable
  | .bgp patterns => bgpVars patterns
  | .path s _ o => Path.endVars s ++ Path.endVars o
  | .join left right => left.certain ++ right.certain
  | .leftJoin left _ _ => left.certain
  | .lateral left right => left.certain ++ right.certain
  | .filter _ inner => inner.certain
  | .union left right => left.certain.filter fun v => v ∈ right.certain
  | .graph (.namedNode _) inner => inner.certain
  | .graph (.var v) inner => v :: inner.certain
  | .extend inner _ _ => inner.certain
  | .minus left _ => left.certain
  | .values vars bindings => vars.filter fun v => bindings.all fun row => (Eval.valuesRow vars row).contains v
  | .orderBy inner _ => inner.certain
  | .project inner vars => inner.certain.filter fun v => v ∈ vars
  | .distinct inner => inner.certain
  | .reduced inner => inner.certain
  | .slice inner _ _ => inner.certain
  | .group inner vars _ => vars.filter fun v => v ∈ inner.certain
  | .service _ _ _ => []

/-- No projection lists a variable twice. -/
def ProjectsOnce : GraphPattern → Prop
  | .bgp _ => True
  | .path _ _ _ => True
  | .join left right => left.ProjectsOnce ∧ right.ProjectsOnce
  | .leftJoin left right _ => left.ProjectsOnce ∧ right.ProjectsOnce
  | .lateral left right => left.ProjectsOnce ∧ right.ProjectsOnce
  | .filter _ inner => inner.ProjectsOnce
  | .union left right => left.ProjectsOnce ∧ right.ProjectsOnce
  | .graph _ inner => inner.ProjectsOnce
  | .extend inner _ _ => inner.ProjectsOnce
  | .minus left right => left.ProjectsOnce ∧ right.ProjectsOnce
  | .values _ _ => True
  | .orderBy inner _ => inner.ProjectsOnce
  | .project inner vars => vars.Nodup ∧ inner.ProjectsOnce
  | .distinct inner => inner.ProjectsOnce
  | .reduced inner => inner.ProjectsOnce
  | .slice inner _ _ => inner.ProjectsOnce
  | .group inner _ _ => inner.ProjectsOnce
  | .service _ _ _ => True

end GraphPattern

namespace Eval

/-- A solution as the pattern announces it. -/
structure Shaped (P : GraphPattern) (sol : Solution) : Prop where
  tidy : sol.Tidy
  within : ∀ v, (sol.get v).isSome = true → v ∈ P.scope
  binds : ∀ v ∈ P.certain, (sol.get v).isSome = true

/-- What the evaluator relies on: joins that bind, services that answer for their pattern,
and a text index of literals. -/
structure Sources (options : EvalOptions) (ds : Dataset) : Prop where
  joins : JoinBinds ds
  services : ∀ handle n inner sols, options.serviceHandler = some handle → handle n inner = .ok sols →
    ∀ sol ∈ sols, sol.Tidy ∧ ∀ v, (sol.get v).isSome = true → v ∈ inner.scope
  texts : ∀ search query predicate id t, options.textSearch = some search → id ∈ search query predicate →
    ds.lftjDecodeTerm id = .ok (some t) → Term.isLiteral t = true

/-! ## The rows of the operators -/

theorem get_mergeCompatible {other merged : Solution} (hother : other.Tidy)
    (hm : sol.mergeCompatible other = some merged) :
    PartialMap.Agree sol.get other.get ∧ merged.get = PartialMap.union sol.get other.get := by
  have hmap : (sol.mergeCompatible other).map Solution.get = PartialMap.unite sol.get other.get :=
    map_get_mergeCompatible hother
  rw [hm, Option.map_some] at hmap
  by_cases hagree : PartialMap.Agree sol.get other.get
  · rw [PartialMap.unite_of_agree hagree] at hmap
    exact ⟨hagree, Option.some.inj hmap⟩
  · rw [PartialMap.unite_of_not hagree] at hmap
    cases hmap

theorem isSome_get_mergeCompatible {other merged : Solution} (hother : other.Tidy)
    (hm : sol.mergeCompatible other = some merged) (v : Variable) :
    (merged.get v).isSome = true ↔ (sol.get v).isSome = true ∨ (other.get v).isSome = true := by
  rw [(get_mergeCompatible hother hm).2, PartialMap.union_apply, Option.isSome_or, Bool.or_eq_true]

theorem shaped_joinSolutions {left right : GraphPattern} {ls rs : List Solution} (hls : ∀ l ∈ ls, Shaped left l)
    (hrs : ∀ r ∈ rs, Shaped right r) : ∀ sol ∈ joinSolutions ls rs, Shaped (.join left right) sol := by
  intro sol hsol
  obtain ⟨l, hl, hsol⟩ := mem_flatMap.mp hsol
  obtain ⟨r, hr, hm⟩ := mem_filterMap.mp hsol
  have hbound := isSome_get_mergeCompatible (hrs r hr).tidy hm
  refine ⟨(hls l hl).tidy.mergeCompatible hm, fun v hv => ?_, fun v hv => ?_⟩
  · rw [GraphPattern.scope, mem_append]
    exact ((hbound v).mp hv).imp ((hls l hl).within v) ((hrs r hr).within v)
  · rw [GraphPattern.certain, mem_append] at hv
    exact (hbound v).mpr (hv.imp ((hls l hl).binds v) ((hrs r hr).binds v))

theorem shaped_leftJoinOne {left right : GraphPattern} {e : Option Expression} {rs : List Solution}
    {passes : Solution → Except QueryError Bool} {l : Solution} (hl : Shaped left l)
      (hrs : ∀ r ∈ rs, Shaped right r)
    (h : leftJoinOne rs passes l = .ok sols) : ∀ sol ∈ sols, Shaped (.leftJoin left right e) sol := by
  obtain ⟨joined, hjoined, h⟩ := bind_ok h
  cases h
  intro sol hsol
  split at hsol
  · rw [mem_singleton.mp hsol]
    exact ⟨hl.tidy, fun v hv => mem_append_left _ (hl.within v hv), hl.binds⟩
  · obtain ⟨r, hr, hm⟩ := mem_filterMap.mp (mem_of_filterM hjoined sol hsol)
    have hbound := isSome_get_mergeCompatible (hrs r hr).tidy hm
    refine ⟨hl.tidy.mergeCompatible hm, fun v hv => ?_, fun v hv => (hbound v).mpr (Or.inl (hl.binds v hv))⟩
    rw [GraphPattern.scope, mem_append]
    exact ((hbound v).mp hv).imp (hl.within v) ((hrs r hr).within v)

theorem Shaped.insert {P Q : GraphPattern} (h : Shaped P sol) {v : Variable} {t : Term}
    (hscope : ∀ w ∈ P.scope, w ∈ Q.scope) (hv : v ∈ Q.scope) (hcertain : ∀ w ∈ Q.certain, w = v ∨ w ∈ P.certain) :
    Shaped Q (sol.insert v t) := by
  refine ⟨h.tidy.insert v t, fun w hw => ?_, fun w hw => ?_⟩
  · rw [get_insert] at hw
    split at hw
    · next heq => rwa [heq]
    · exact hscope w (h.within w hw)
  · rw [get_insert]
    split
    · rfl
    · next hne => exact h.binds w ((hcertain w hw).resolve_left hne)

theorem shaped_joinGraphName {P : GraphPattern} {v : Variable} {n : NamedNode} {sol' : Solution}
    (h : Shaped P sol) (hj : joinGraphName v n sol = some sol') : Shaped (.graph (.var v) P) sol' := by
  have hscope : ∀ w ∈ P.scope, w ∈ (GraphPattern.graph (.var v) P).scope := fun w hw => mem_cons_of_mem _ hw
  have hcertain : ∀ w ∈ (GraphPattern.graph (.var v) P).certain, w = v ∨ w ∈ P.certain :=
    fun w hw => mem_cons.mp hw
  unfold joinGraphName at hj
  split at hj
  · cases hj
    exact h.insert hscope mem_cons_self hcertain
  · next t ht =>
    split at hj
    · cases hj
      refine ⟨h.tidy, fun w hw => hscope w (h.within w hw), fun w hw => ?_⟩
      rcases hcertain w hw with rfl | hw
      · rw [ht]
        rfl
      · exact h.binds w hw
    · cases hj

variable {vars : List Variable}

/-- Values for variables, one after the other. -/
theorem foldl_bind_rows {f : Variable → Option Term} : ∀ {sol : Solution}, sol.Tidy →
    (vars.foldl (fun sol v => match f v with
      | some t => sol.insert v t
      | none => sol) sol).Tidy ∧
    ∀ v, (vars.foldl (fun sol v => match f v with
      | some t => sol.insert v t
      | none => sol) sol).get v = if v ∈ vars ∧ (f v).isSome = true then f v else sol.get v := by
  induction vars with
  | nil => exact fun h => ⟨h, fun v => by simp⟩
  | cons w vars ih =>
    intro sol h
    cases hw : f w with
    | none =>
      simp only [foldl_cons, hw]
      obtain ⟨htidy, hget⟩ := ih h
      refine ⟨htidy, fun v => ?_⟩
      rw [hget]
      by_cases hv : v = w
      · simp [hv, hw]
      · simp [hv]
    | some t =>
      simp only [foldl_cons, hw]
      obtain ⟨htidy, hget⟩ := ih (h.insert w t)
      refine ⟨htidy, fun v => ?_⟩
      rw [hget, get_insert]
      by_cases hv : v = w
      · simp [hv, hw]
      · simp [hv]

theorem tidy_valuesRow (vars : List Variable) (row : List (Option Term)) :
    (valuesRow vars row).Tidy ∧ ∀ v, ((valuesRow vars row).get v).isSome = true → v ∈ vars := by
  have hfold : ∀ (cells : List (Variable × Option Term)) (sol : Solution), (∀ cell ∈ cells, cell.1 ∈ vars) →
      sol.Tidy → (∀ v, (sol.get v).isSome = true → v ∈ vars) →
      let out := cells.foldl (fun sol cell => match cell.2 with
        | some t => sol.insert cell.1 t
        | none => sol) sol
      out.Tidy ∧ ∀ v, (out.get v).isSome = true → v ∈ vars := by
    intro cells
    induction cells with
    | nil => exact fun _ _ htidy hwithin => ⟨htidy, hwithin⟩
    | cons cell cells ih =>
      intro sol hcells htidy hwithin
      obtain ⟨hcell, hcells⟩ := forall_mem_cons.mp hcells
      cases hval : cell.2 with
      | none =>
        simp only [foldl_cons, hval]
        exact ih sol hcells htidy hwithin
      | some t =>
        simp only [foldl_cons, hval]
        refine ih _ hcells (htidy.insert _ _) fun v hv => ?_
        rw [get_insert] at hv
        split at hv
        · next heq => rwa [heq]
        · exact hwithin v hv
  exact hfold _ _ (fun cell hcell => (of_mem_zip hcell).1) tidy_new fun v hv => by simp at hv

variable {group : List Solution}

theorem mem_groupsOf {display : Term → String} (h : group ∈ groupsOf display vars sols) :
    group = [] ∧ vars = [] ∨ ∃ first rest, group = first :: rest ∧ first ∈ sols := by
  unfold groupsOf at h
  dsimp only at h
  split at h
  · next hempty =>
    rw [Bool.and_eq_true, List.isEmpty_iff, List.isEmpty_iff] at hempty
    exact Or.inl ⟨mem_singleton.mp h, hempty.2⟩
  · obtain ⟨k, hk, rfl⟩ := mem_map.mp h
    obtain ⟨sol, hsol, hkey⟩ := mem_map.mp (mem_firsts.mp hk)
    have hin : sol ∈ sols.filter fun sol => (vars.map fun v => (sol.get v).map display) = k := by
      rw [mem_filter]
      exact ⟨hsol, decide_eq_true hkey⟩
    cases hgroup : sols.filter fun sol => (vars.map fun v => (sol.get v).map display) = k with
    | nil =>
      rw [hgroup] at hin
      cases hin
    | cons first rest =>
      refine Or.inr ⟨first, rest, rfl, ?_⟩
      have hfirst : first ∈ first :: rest := mem_cons_self
      rw [← hgroup] at hfirst
      exact (mem_filter.mp hfirst).1

section Aggregates

variable {scalars : Scalars} {options : EvalOptions} {fuel : Nat} {ds : Dataset} {ag : GraphSelector}

theorem evalAggregate_row {agg : Aggregate} {row out : Solution}
    (h : evalAggregate scalars options fuel ds agg group row ag = .ok out) :
    out = row ∨ ∃ v ∈ GraphPattern.targets [agg], ∃ t, out = row.insert v t := by
  cases agg with
  | countSolutions v distinct =>
    cases h
    cases scalars.countSolutions distinct group with
    | none => exact Or.inl rfl
    | some t => exact Or.inr ⟨v, mem_cons_self, t, rfl⟩
  | functionCall v name e distinct =>
    obtain ⟨values, _, h⟩ := bind_ok h
    cases h
    cases scalars.aggregate name distinct values with
    | none => exact Or.inl rfl
    | some t => exact Or.inr ⟨v, mem_cons_self, t, rfl⟩

theorem evalAggregates_row : ∀ {aggs : List Aggregate} {group : List Solution} {row out : Solution}, row.Tidy →
    evalAggregates scalars options fuel ds aggs group row ag = .ok out →
    out.Tidy ∧ (∀ v, (out.get v).isSome = true → (row.get v).isSome = true ∨ v ∈ GraphPattern.targets aggs) ∧
      ∀ v, (row.get v).isSome = true → (out.get v).isSome = true := by
  intro aggs
  induction aggs with
  | nil =>
    intro group row out htidy h
    cases h
    exact ⟨htidy, fun _ => Or.inl, fun _ => id⟩
  | cons agg rest ih =>
    intro group row out htidy h
    obtain ⟨next, hnext, h⟩ := bind_ok h
    have hstep : next.Tidy ∧ (∀ v, (next.get v).isSome = true →
      (row.get v).isSome = true ∨ v ∈ GraphPattern.targets [agg]) ∧
        ∀ v, (row.get v).isSome = true → (next.get v).isSome = true := by
      rcases evalAggregate_row hnext with rfl | ⟨w, hw, t, rfl⟩
      · exact ⟨htidy, fun _ => Or.inl, fun _ => id⟩
      · refine ⟨htidy.insert w t, fun v hv => ?_, fun v hv => ?_⟩
        · rw [get_insert] at hv
          split at hv
          · next heq => exact Or.inr (heq ▸ hw)
          · exact Or.inl hv
        · rw [get_insert]
          split
          · rfl
          · exact hv
    obtain ⟨hout, hwithin, hbinds⟩ := ih hstep.1 h
    refine ⟨hout, fun v hv => ?_, fun v hv => hbinds v (hstep.2.2 v hv)⟩
    rcases hwithin v hv with hv | hv
    · exact (hstep.2.1 v hv).imp_right fun hmem => by
        rw [mem_singleton.mp hmem]
        exact mem_cons_self
    · exact Or.inr (mem_cons_of_mem _ hv)

theorem shaped_group {inner : GraphPattern} {aggs : List Aggregate}
    {out : Solution} (hsols : ∀ sol ∈ sols, Shaped inner sol) (hgroup : group ∈ groupsOf scalars.display vars sols)
    (h : evalAggregates scalars options fuel ds aggs group (groupRow vars group) ag = .ok out) :
    Shaped (.group inner vars aggs) out := by
  have hrow : (groupRow vars group).Tidy ∧
      (∀ v, ((groupRow vars group).get v).isSome = true → v ∈ vars ∧ v ∈ inner.scope) ∧
      ∀ v ∈ vars, v ∈ inner.certain → ((groupRow vars group).get v).isSome = true := by
    rcases mem_groupsOf hgroup with ⟨rfl, rfl⟩ | ⟨first, rest, rfl, hfirst⟩
    · exact ⟨tidy_new, fun v hv => by simp [groupRow] at hv, nofun⟩
    · obtain ⟨htidy, hfold⟩ := foldl_bind_rows (f := first.get) tidy_new
      have hget : ∀ v, (groupRow vars (first :: rest)).get v =
          if v ∈ vars ∧ (first.get v).isSome = true then first.get v else Solution.new.get v := hfold
      refine ⟨htidy, fun v hv => ?_, fun v hv hcert => ?_⟩
      · rw [hget] at hv
        split at hv
        · next hin => exact ⟨hin.1, (hsols first hfirst).within v hin.2⟩
        · cases hv
      · have hbound := (hsols first hfirst).binds v hcert
        rw [hget, if_pos ⟨hv, hbound⟩]
        exact hbound
  obtain ⟨htidy, hwithin, hbinds⟩ := evalAggregates_row hrow.1 h
  refine ⟨htidy, fun v hv => ?_, fun v hv => ?_⟩
  · rw [GraphPattern.scope, mem_append, mem_filter]
    exact (hwithin v hv).imp_left fun hin => ⟨(hrow.2.1 v hin).1, decide_eq_true (hrow.2.1 v hin).2⟩
  · obtain ⟨hin, hcert⟩ := mem_filter.mp hv
    exact hbinds v (hrow.2.2 v hin (of_decide_eq_true hcert))

end Aggregates

/-! ## The rows of a full-text search -/

section Text

variable {options : EvalOptions} {ds : Dataset} {ag : GraphSelector} {v : Variable} {t : Term}

theorem boolTerm_injective : Function.Injective boolTerm := by
  intro a b h
  cases a <;> cases b <;> first | rfl | exact absurd h (by decide)

theorem vars_substituteVarInTermPattern (ht : Term.isLiteral t = true) (tp : TermPattern) :
    (∀ w ∈ (substituteVarInTermPattern v t tp).vars, w ∈ tp.vars) ∧
      ∀ w ∈ tp.vars, w ≠ v → w ∈ (substituteVarInTermPattern v t tp).vars := by
  induction tp with
  | namedNode n => exact ⟨fun w hw => hw, fun w hw _ => hw⟩
  | literal l => exact ⟨fun w hw => hw, fun w hw _ => hw⟩
  | blankNode b => exact ⟨fun w hw => hw, fun w hw _ => hw⟩
  | var u =>
    rw [substituteVarInTermPattern]
    split
    · next heq =>
      cases t with
      | literal l => exact ⟨nofun, fun w hw hne => absurd (heq ▸ mem_singleton.mp hw) hne⟩
      | namedNode n => cases ht
      | blankNode b => cases ht
      | triple s p o => cases ht
    · exact ⟨fun w hw => hw, fun w hw _ => hw⟩
  | triple s p o ihs iho =>
    simp only [substituteVarInTermPattern, TermPattern.vars, mem_append]
    exact ⟨fun w hw => hw.imp (Or.imp_left (ihs.1 w)) (iho.1 w),
      fun w hw hne => hw.imp (Or.imp_left fun hw => ihs.2 w hw hne) fun hw => iho.2 w hw hne⟩

theorem vars_substituteVarInTriplePattern (ht : Term.isLiteral t = true) (patterns : List TriplePattern) :
    (∀ w ∈ bgpVars (patterns.map (substituteVarInTriplePattern v t)), w ∈ bgpVars patterns) ∧
      ∀ w ∈ bgpVars patterns, w ≠ v → w ∈ bgpVars (patterns.map (substituteVarInTriplePattern v t)) := by
  have hone : ∀ tp : TriplePattern, (∀ w ∈ (substituteVarInTriplePattern v t tp).vars, w ∈ tp.vars) ∧
      ∀ w ∈ tp.vars, w ≠ v → w ∈ (substituteVarInTriplePattern v t tp).vars := by
    intro tp
    obtain ⟨hs, hs'⟩ := vars_substituteVarInTermPattern (v := v) ht tp.subject
    obtain ⟨ho, ho'⟩ := vars_substituteVarInTermPattern (v := v) ht tp.object
    simp only [TriplePattern.vars, substituteVarInTriplePattern, mem_append]
    exact ⟨fun w hw => hw.imp (Or.imp_left (hs w)) (ho w),
      fun w hw hne => hw.imp (Or.imp_left fun hw => hs' w hw hne) fun hw => ho' w hw hne⟩
  simp only [bgpVars, mem_flatMap, mem_map, exists_exists_and_eq_and]
  constructor
  · rintro w ⟨tp, htp, hw⟩
    exact ⟨tp, htp, (hone tp).1 w hw⟩
  · rintro w ⟨tp, htp, hw⟩ hne
    exact ⟨tp, htp, (hone tp).2 w hw hne⟩

theorem shaped_evalBgpWithBoundVar (hds : JoinBinds ds) (ht : Term.isLiteral t = true)
    (hv : v ∈ bgpVars patterns)
    (h : evalBgpWithBoundVar options ds patterns v t ag = .ok sols) : ∀ sol ∈ sols,
      Shaped (.bgp patterns) sol := by
  obtain ⟨rows, hrows, h⟩ := bind_ok h
  cases h
  intro sol hsol
  obtain ⟨row, hrow, hsol⟩ := mem_filterMap.mp hsol
  obtain ⟨hproper, hdom⟩ := evalBgp_rows hds (ok_of_mapError hrows) row hrow
  obtain ⟨hsub, hsup⟩ := vars_substituteVarInTriplePattern (v := v) ht patterns
  have hscope : ∀ w, (row.get w).isSome = true → w ∈ bgpVars patterns := fun w hw => hsub w ((hdom w).mp hw)
  have hcertain : ∀ w ∈ bgpVars patterns, w ≠ v → (row.get w).isSome = true :=
    fun w hw hne => (hdom w).mpr (hsup w hw hne)
  cases hrv : row.get v with
  | none =>
    simp only [hrv, Option.some.injEq] at hsol
    rw [← hsol]
    refine ⟨hproper.tidy.insert v t, fun w hw => ?_, fun w hw => ?_⟩
    · rw [get_insert] at hw
      split at hw
      · next heq => exact heq ▸ hv
      · exact hscope w hw
    · rw [get_insert]
      split
      · rfl
      · next hne => exact hcertain w hw hne
  | some bound =>
    simp only [hrv] at hsol
    split at hsol
    · cases hsol
      refine ⟨hproper.tidy, hscope, fun w hw => ?_⟩
      by_cases hne : w = v
      · rw [hne, hrv]
        rfl
      · exact hcertain w hw hne
    · cases hsol

theorem shaped_evalHits (hds : JoinBinds ds) (hv : v ∈ bgpVars patterns) :
    ∀ {ids : List Nat} {sols : List Solution},
      (∀ id ∈ ids, ∀ t, ds.lftjDecodeTerm id = .ok (some t) → Term.isLiteral t = true) →
      evalHits options ds patterns v ag ids = .ok sols → ∀ sol ∈ sols, Shaped (.bgp patterns) sol := by
  intro ids
  induction ids with
  | nil =>
    intro sols _ h
    cases h
    exact nofun
  | cons id rest ih =>
    intro sols hlit h sol hsol
    obtain ⟨hid, hrest⟩ := forall_mem_cons.mp hlit
    obtain ⟨decoded, hdecoded, h⟩ := bind_ok h
    cases decoded with
    | none => exact ih hrest h sol hsol
    | some t =>
      obtain ⟨now, hnow, h⟩ := bind_ok h
      obtain ⟨next, hnext, h⟩ := bind_ok h
      cases h
      rcases mem_append.mp hsol with hsol | hsol
      · exact shaped_evalBgpWithBoundVar hds (hid t (ok_of_mapError hdecoded)) hv hnow sol hsol
      · exact ih hrest hnext sol hsol

theorem shaped_pushdown (hsources : Sources options ds) {expr : Expression} {inner : GraphPattern}
    (h : tryTextSearchPushdown options ds expr inner ag = .ok (some sols)) : ∀ sol ∈ sols, Shaped inner sol := by
  unfold tryTextSearchPushdown at h
  split at h
  · next search v q mode patterns hsearch _ =>
    obtain ⟨predicateId, _, h⟩ := bind_ok h
    split at h
    · next hany =>
      obtain ⟨tp, htp, hobject⟩ := any_eq_true.mp hany
      have hv : v ∈ bgpVars patterns := by
        refine mem_flatMap.mpr ⟨tp, htp, ?_⟩
        rw [TriplePattern.vars, of_decide_eq_true hobject]
        exact mem_append_right _ mem_cons_self
      obtain ⟨hits, hhits, h⟩ := bind_ok h
      cases h
      refine shaped_evalHits hsources.joins hv (fun id hid t ht => ?_) hhits
      exact hsources.texts search _ _ id t hsearch (mem_firsts.mp hid) ht
    · cases h
  · cases h

end Text

/-! ## The walk -/

section Walk

variable {scalars : Scalars} {options : EvalOptions} {fuel : Nat} {ds : Dataset}

/-- Every solution is a partial map as its pattern announces it. -/
theorem shaped_evalPattern (hsources : Sources options ds) : ∀ (P : GraphPattern) {ag : GraphSelector}
    {sols : List Solution}, P.ProjectsOnce → evalPattern scalars options fuel ds P ag = .ok sols →
    ∀ sol ∈ sols, Shaped P sol
  | .bgp patterns, ag, sols, _, h => by
    rw [evalPattern] at h
    intro sol hsol
    obtain ⟨hproper, hdom⟩ := evalBgp_rows hsources.joins (ok_of_mapError h) sol hsol
    exact ⟨hproper.tidy, fun v => (hdom v).mp, fun v => (hdom v).mpr⟩
  | .path s path o, ag, sols, _, h => by
    intro sol hsol
    obtain ⟨hproper, hdom⟩ := Path.evalPath_rows (ok_of_mapError h) sol hsol
    exact ⟨hproper.tidy, fun v => (hdom v).mp, fun v => (hdom v).mpr⟩
  | .join left right, ag, sols, hP, h => by
    obtain ⟨ls, hls, h⟩ := bind_ok h
    obtain ⟨rs, hrs, h⟩ := bind_ok h
    cases h
    exact shaped_joinSolutions (shaped_evalPattern hsources left hP.1 hls)
      (shaped_evalPattern hsources right hP.2 hrs)
  | .leftJoin left right e, ag, sols, hP, h => by
    obtain ⟨ls, hls, h⟩ := bind_ok h
    obtain ⟨rs, hrs, h⟩ := bind_ok h
    obtain ⟨joined, hjoined, h⟩ := bind_ok h
    cases h
    intro sol hsol
    obtain ⟨rows, hrows, hsol⟩ := mem_flatten.mp hsol
    obtain ⟨l, hl, hone⟩ := (mapM_ok_inv hjoined).2 rows hrows
    exact shaped_leftJoinOne (shaped_evalPattern hsources left hP.1 hls l hl)
      (shaped_evalPattern hsources right hP.2 hrs) hone sol hsol
  | .lateral left right, ag, sols, hP, h => by
    obtain ⟨ls, hls, h⟩ := bind_ok h
    split at h
    · cases h
      exact fun sol hsol => absurd hsol not_mem_nil
    · obtain ⟨rs, hrs, h⟩ := bind_ok h
      cases h
      intro sol hsol
      obtain ⟨htidy, hwithin, hbinds⟩ := shaped_joinSolutions (shaped_evalPattern hsources left hP.1 hls)
        (shaped_evalPattern hsources right hP.2 hrs) sol hsol
      exact ⟨htidy, hwithin, hbinds⟩
  | .filter expr inner, ag, sols, hP, h => by
    intro sol hsol
    have hshaped : Shaped inner sol := by
      obtain ⟨pushed, hpushed, h⟩ := bind_ok h
      cases pushed with
      | some found =>
        cases h
        exact shaped_pushdown hsources hpushed sol hsol
      | none =>
        obtain ⟨rows, hrows, h⟩ := bind_ok h
        exact shaped_evalPattern hsources inner hP hrows sol (mem_of_filterM h sol hsol)
    exact ⟨hshaped.tidy, hshaped.within, hshaped.binds⟩
  | .union left right, ag, sols, hP, h => by
    obtain ⟨ls, hls, h⟩ := bind_ok h
    obtain ⟨rs, hrs, h⟩ := bind_ok h
    cases h
    intro sol hsol
    rcases mem_append.mp hsol with hsol | hsol
    · have hl := shaped_evalPattern hsources left hP.1 hls sol hsol
      exact ⟨hl.tidy, fun v hv => mem_append_left _ (hl.within v hv),
        fun v hv => hl.binds v (mem_filter.mp hv).1⟩
    · have hr := shaped_evalPattern hsources right hP.2 hrs sol hsol
      exact ⟨hr.tidy, fun v hv => mem_append_right _ (hr.within v hv),
        fun v hv => hr.binds v (of_decide_eq_true (mem_filter.mp hv).2)⟩
  | .graph (.namedNode n) inner, ag, sols, hP, h => by
    intro sol hsol
    have hinner := shaped_evalPattern hsources inner hP h sol hsol
    exact ⟨hinner.tidy, hinner.within, hinner.binds⟩
  | .graph (.var v) inner, ag, sols, hP, h => by
    obtain ⟨names, _, h⟩ := bind_ok h
    obtain ⟨results, hresults, h⟩ := bind_ok h
    cases h
    intro sol hsol
    obtain ⟨rows, hrows, hsol⟩ := mem_flatten.mp hsol
    obtain ⟨name, _, hname⟩ := (mapM_ok_inv hresults).2 rows hrows
    cases name with
    | namedNode n =>
      obtain ⟨found, hfound, hname⟩ := bind_ok hname
      cases hname
      obtain ⟨row, hrow, hj⟩ := mem_filterMap.mp hsol
      exact shaped_joinGraphName (shaped_evalPattern hsources inner hP hfound row hrow) hj
    | defaultGraph =>
      cases hname
      exact absurd hsol not_mem_nil
    | blankNode b =>
      cases hname
      exact absurd hsol not_mem_nil
  | .extend inner v e, ag, sols, hP, h => by
    rw [evalPattern] at h
    obtain ⟨rows, hrows, h⟩ := bind_ok h
    intro sol hsol
    obtain ⟨row, hrow, hone⟩ := (mapM_ok_inv h).2 sol hsol
    have hinner := shaped_evalPattern hsources inner hP hrows row hrow
    have hscope : ∀ w ∈ inner.scope, w ∈ (GraphPattern.extend inner v e).scope := fun w hw => mem_cons_of_mem _ hw
    have hkeep : Shaped (.extend inner v e) row :=
      ⟨hinner.tidy, fun w hw => hscope w (hinner.within w hw), hinner.binds⟩
    obtain ⟨value, _, hone⟩ := bind_ok hone
    -- without a value, or over a binding, the row stays as it is
    cases value with
    | none =>
      cases hone
      exact hkeep
    | some t =>
      cases hone
      split
      · exact hkeep
      · exact hinner.insert hscope mem_cons_self fun w hw => Or.inr hw
  | .minus left right, ag, sols, hP, h => by
    rw [GraphPattern.ProjectsOnce] at hP
    rw [evalPattern] at h
    obtain ⟨ls, hls, h⟩ := bind_ok h
    obtain ⟨rs, _, h⟩ := bind_ok h
    cases h
    intro sol hsol
    have hl := shaped_evalPattern hsources left hP.1 hls sol (mem_filter.mp hsol).1
    exact ⟨hl.tidy, hl.within, hl.binds⟩
  | .values vars bindings, ag, sols, _, h => by
    rw [evalPattern] at h
    cases h
    intro sol hsol
    obtain ⟨row, hrow, rfl⟩ := mem_map.mp hsol
    obtain ⟨htidy, hwithin⟩ := tidy_valuesRow vars row
    exact ⟨htidy, hwithin, fun v hv => all_eq_true.mp (mem_filter.mp hv).2 row hrow⟩
  | .orderBy inner es, ag, sols, hP, h => by
    rw [GraphPattern.ProjectsOnce] at hP
    rw [evalPattern] at h
    obtain ⟨rows, hrows, h⟩ := bind_ok h
    intro sol hsol
    have hmem : sol ∈ rows := by
      split at h
      · cases h
        exact hsol
      · obtain ⟨keyed, hkeyed, h⟩ := bind_ok h
        cases h
        obtain ⟨cell, hcell, rfl⟩ := mem_map.mp hsol
        obtain ⟨row, hrow, hcell⟩ := (mapM_ok_inv hkeyed).2 cell (mem_mergeSort.mp hcell)
        obtain ⟨keys, _, hcell⟩ := bind_ok hcell
        cases hcell
        exact hrow
    have hinner := shaped_evalPattern hsources inner hP hrows sol hmem
    exact ⟨hinner.tidy, hinner.within, hinner.binds⟩
  | .project inner vars, ag, sols, hP, h => by
    rw [GraphPattern.ProjectsOnce] at hP
    rw [evalPattern] at h
    obtain ⟨rows, hrows, h⟩ := bind_ok h
    cases h
    intro sol hsol
    obtain ⟨row, hrow, rfl⟩ := mem_map.mp hsol
    have hinner := shaped_evalPattern hsources inner hP.2 hrows row hrow
    refine ⟨tidy_project.mpr (hP.1.filter _), fun v hv => ?_, fun v hv => ?_⟩
    · rw [get_project] at hv
      split at hv
      · next hin => exact mem_filter.mpr ⟨hin, decide_eq_true (hinner.within v hv)⟩
      · cases hv
    · obtain ⟨hcert, hin⟩ := mem_filter.mp hv
      rw [get_project, if_pos (of_decide_eq_true hin)]
      exact hinner.binds v hcert
  | .distinct inner, ag, sols, hP, h => by
    rw [GraphPattern.ProjectsOnce] at hP
    rw [evalPattern] at h
    obtain ⟨rows, hrows, h⟩ := bind_ok h
    cases h
    intro sol hsol
    have hinner := shaped_evalPattern hsources inner hP hrows sol (mem_of_mem_firstsBy hsol).1
    exact ⟨hinner.tidy, hinner.within, hinner.binds⟩
  | .reduced inner, ag, sols, hP, h => by
    rw [GraphPattern.ProjectsOnce] at hP
    rw [evalPattern] at h
    intro sol hsol
    have hinner := shaped_evalPattern hsources inner hP h sol hsol
    exact ⟨hinner.tidy, hinner.within, hinner.binds⟩
  | .slice inner start length, ag, sols, hP, h => by
    rw [GraphPattern.ProjectsOnce] at hP
    rw [evalPattern] at h
    obtain ⟨rows, hrows, h⟩ := bind_ok h
    cases h
    intro sol hsol
    have hmem : sol ∈ rows := by
      cases length with
      | none => exact mem_of_mem_drop hsol
      | some n => exact mem_of_mem_drop (mem_of_mem_take hsol)
    have hinner := shaped_evalPattern hsources inner hP hrows sol hmem
    exact ⟨hinner.tidy, hinner.within, hinner.binds⟩
  | .group inner vars aggs, ag, sols, hP, h => by
    rw [GraphPattern.ProjectsOnce] at hP
    rw [evalPattern] at h
    obtain ⟨rows, hrows, h⟩ := bind_ok h
    intro sol hsol
    obtain ⟨group, hgroup, hone⟩ := (mapM_ok_inv h).2 sol hsol
    exact shaped_group (shaped_evalPattern hsources inner hP hrows) hgroup hone
  | .service name inner silent, ag, sols, _, h => by
    rw [evalPattern] at h
    intro sol hsol
    split at h
    · split at h
      · cases h
        exact absurd hsol not_mem_nil
      · cases h
    · next found hfound =>
      cases h
      unfold evalService at hfound
      cases hhandle : options.serviceHandler with
      | none =>
        rw [hhandle] at hfound
        cases hfound
      | some handle =>
        rw [hhandle] at hfound
        cases name with
        | var v => cases hfound
        | namedNode n =>
          obtain ⟨htidy, hwithin⟩ := hsources.services handle n inner _ hhandle (ok_of_mapError hfound) sol hsol
          exact ⟨htidy, hwithin, fun v hv => absurd hv not_mem_nil⟩

end Walk

end Eval

end Nova
