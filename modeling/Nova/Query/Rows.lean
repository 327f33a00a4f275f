import Nova.Query.Execute

/-!
# The rows of a pattern

What the operators of the algebra do to the set of mappings among the solutions:
join, optional part, filter and `BIND` (`Yields.join`, `Yields.leftJoin`,
`Yields.filter`, `Yields.extend`). The header of a solution that comes out of the
evaluator has no variable twice; a join needs this of its right side.
-/

namespace Nova

open Nova.Lib List

/-! ## Merged mappings -/

variable {v : Variable}

namespace Mapping

/-- The mappings agree where both are bound. -/
def Compatible (μ ν : Mapping) : Prop := ∀ v t u, μ v = some t → ν v = some u → t = u

def merge (μ ν : Mapping) : Mapping := fun v => (μ v).or (ν v)

/-- `BIND`: a variable that is bound keeps its value. -/
def bind (v : Variable) (t : Option Term) (μ : Mapping) : Mapping :=
  fun w => if w = v then (μ v).or t else μ w

@[simp] theorem merge_apply (μ ν : Mapping) (v : Variable) : merge μ ν v = (μ v).or (ν v) := rfl

theorem bind_same (v : Variable) (t : Option Term) (μ : Mapping) : bind v t μ v = (μ v).or t := if_pos rfl

theorem bind_of_ne {w : Variable} (h : w ≠ v) (t : Option Term) (μ : Mapping) : bind v t μ w = μ w :=
  if_neg h

end Mapping

variable {vs : List Variable}

theorem restrict_apply_of_mem (hv : v ∈ vs) (μ : Mapping) : restrict vs μ v = μ v := if_pos hv

theorem restrict_eq_none (hv : v ∉ vs) (μ : Mapping) : restrict vs μ v = none := if_neg hv

/-- Where a mapping binds the variables and no others, restricting it to them changes
nothing. -/
theorem restrict_of_hasDomain {μ : Mapping} (h : HasDomain μ vs) : restrict vs μ = μ := by
  funext v
  by_cases hv : v ∈ vs
  · exact restrict_apply_of_mem hv μ
  · rw [restrict_eq_none hv]
    cases hμ : μ v with
    | none => rfl
    | some t => exact absurd ((h v).mp (by rw [hμ]; rfl)) hv

theorem hasDomain_restrict {μ : Mapping} (h : ∀ v ∈ vs, (μ v).isSome = true) :
    HasDomain (restrict vs μ) vs := by
  intro v
  by_cases hv : v ∈ vs
  · rw [restrict_apply_of_mem hv]
    exact ⟨fun _ => hv, fun _ => h v hv⟩
  · rw [restrict_eq_none hv]
    exact ⟨fun hno => (by cases hno), fun hmem => absurd hmem hv⟩

variable {M N : Set Mapping}

/-- The rows of a join are those that restrict to a row of either side. -/
theorem join_domains {ws : List Variable} (hM : ∀ μ ∈ M, HasDomain μ vs)
    (hN : ∀ ν ∈ N, HasDomain ν ws) (ξ : Mapping) :
    (∃ μ ∈ M, ∃ ν ∈ N, Mapping.Compatible μ ν ∧ Mapping.merge μ ν = ξ) ↔
      HasDomain ξ (vs ++ ws) ∧ restrict vs ξ ∈ M ∧ restrict ws ξ ∈ N := by
  constructor
  · rintro ⟨μ, hμ, ν, hν, hcompat, rfl⟩
    have hdom := hM μ hμ
    have hdom' := hN ν hν
    refine ⟨?_, ?_, ?_⟩
    · intro v
      rw [Mapping.merge_apply, Option.isSome_or, Bool.or_eq_true, hdom, hdom', mem_append]
    · have heq : restrict vs (Mapping.merge μ ν) = μ := by
        rw [← restrict_of_hasDomain hdom]
        funext v
        by_cases hv : v ∈ vs
        · obtain ⟨t, ht⟩ := Option.isSome_iff_exists.mp ((hdom v).mpr hv)
          rw [restrict_apply_of_mem hv, Mapping.merge_apply, restrict_of_hasDomain hdom, ht, Option.some_or]
        · rw [restrict_eq_none hv, restrict_eq_none hv]
      rwa [heq]
    · have heq : restrict ws (Mapping.merge μ ν) = ν := by
        rw [← restrict_of_hasDomain hdom']
        funext v
        by_cases hv : v ∈ ws
        · obtain ⟨u, hu⟩ := Option.isSome_iff_exists.mp ((hdom' v).mpr hv)
          rw [restrict_apply_of_mem hv, Mapping.merge_apply, restrict_of_hasDomain hdom', hu]
          cases ht : μ v with
          | none => rfl
          | some t => rw [Option.some_or, hcompat v t u ht hu]
        · rw [restrict_eq_none hv, restrict_eq_none hv]
      rwa [heq]
  · rintro ⟨hdom, hμ, hν⟩
    refine ⟨_, hμ, _, hν, ?_, ?_⟩
    -- two restrictions of one row agree where both are defined
    · intro v t u ht hu
      simp only [restrict] at ht hu
      split at ht
      · split at hu
        · exact Option.some.inj (ht.symm.trans hu)
        · cases hu
      · cases ht
    · funext v
      rw [Mapping.merge_apply]
      by_cases hv : v ∈ vs
      · rw [restrict_apply_of_mem hv]
        obtain ⟨t, ht⟩ := Option.isSome_iff_exists.mp ((hdom v).mpr (mem_append_left _ hv))
        rw [ht, Option.some_or]
      · rw [restrict_eq_none hv, Option.none_or]
        by_cases hw : v ∈ ws
        · exact restrict_apply_of_mem hw ξ
        · rw [restrict_eq_none hw]
          cases hξ : ξ v with
          | none => rfl
          | some t =>
            rcases mem_append.mp ((hdom v).mp (by rw [hξ]; rfl)) with hmem | hmem
            · exact absurd hmem hv
            · exact absurd hmem hw

/-- The mappings among the solutions. -/
def mappings (sols : List Solution) : Set Mapping := {μ | ∃ sol ∈ sols, sol.get = μ}

namespace Solution

/-- No variable stands twice in the header. -/
def Proper (sol : Solution) : Prop := sol.vars.Nodup

theorem proper_new : new.Proper := nodup_nil

variable {sol : Solution}

theorem Proper.insert (h : sol.Proper) (v : Variable) (t : Term) : (sol.insert v t).Proper := by
  unfold Solution.insert
  split
  · exact h
  · next hpos =>
    refine nodup_append.mpr ⟨h, nodup_singleton v, ?_⟩
    rintro w hw _ hv rfl
    rw [mem_singleton.mp hv] at hw
    exact positionIn_eq_none.mp hpos hw

theorem Proper.mem_iter (h : sol.Proper) {t : Term} : (v, t) ∈ sol.iter ↔ sol.get v = some t := by
  constructor
  · intro hmem
    rcases mem_filterMap.mp hmem with ⟨⟨w, value⟩, hcell, heq⟩
    rcases Option.map_eq_some_iff.mp heq with ⟨u, hu, hpair⟩
    cases hpair
    obtain ⟨i, hi⟩ := mem_iff_getElem?.mp hcell
    obtain ⟨hvar, hval⟩ := getElem?_zip_eq_some.mp hi
    have hget := get_positional sol.length_eq h hvar
    rw [hval, hu] at hget
    exact hget
  · intro hget
    unfold get at hget
    cases hpos : positionIn sol.vars v with
    | none =>
      rw [hpos] at hget
      cases hget
    | some i =>
      rw [hpos] at hget
      have hvar := positionIn_eq_some hpos
      have hval : sol.values[i]? = some (some t) := Option.join_eq_some_iff.mp hget
      refine mem_filterMap.mpr ⟨(v, some t), ?_, rfl⟩
      exact mem_iff_getElem?.mpr ⟨i, getElem?_zip_eq_some.mpr ⟨hvar, hval⟩⟩

theorem get_foldl_insert {ν : Mapping} : ∀ {cells : List (Variable × Term)} {sol : Solution} {v : Variable},
    (∀ cell ∈ cells, ν cell.1 = some cell.2) →
    (cells.foldl (fun merged cell => merged.insert cell.1 cell.2) sol).get v =
      if v ∈ cells.map Prod.fst then ν v else sol.get v := by
  intro cells
  induction cells with
  | nil => exact fun _ => rfl
  | cons cell cells ih =>
    intro sol v hcells
    obtain ⟨hcell, hrest⟩ := forall_mem_cons.mp hcells
    rw [foldl_cons, ih hrest, map_cons, get_insert]
    by_cases hv : v ∈ cells.map Prod.fst
    · rw [if_pos hv, if_pos (mem_cons_of_mem _ hv)]
    · rw [if_neg hv]
      by_cases heq : v = cell.1
      · rw [if_pos heq, if_pos (heq ▸ mem_cons_self), heq, hcell]
      · rw [if_neg heq, if_neg (by simp [heq, hv])]

theorem kept_proper : Kept Set.univ Proper := fun h _ t => h.insert _ t

variable {other : Solution}

/-- Merging solutions merges their mappings, where the bindings listed of the second are
those read of it. -/
theorem mergeCompatible_of_iter (hiter : ∀ v t, (v, t) ∈ other.iter ↔ other.get v = some t)
    {ξ : Mapping} : (∃ merged, sol.mergeCompatible other = some merged ∧ merged.get = ξ) ↔
      Mapping.Compatible sol.get other.get ∧ Mapping.merge sol.get other.get = ξ := by
  have hagree : (other.iter.all fun cell => (sol.get cell.1).all fun t => t = cell.2) = true ↔
      Mapping.Compatible sol.get other.get := by
    simp only [all_eq_true, Option.all_eq_true, decide_eq_true_eq]
    constructor
    · intro h v t u ht hu
      exact h (v, u) ((hiter v u).mpr hu) t ht
    · rintro h ⟨v, u⟩ hmem t ht
      exact h v t u ht ((hiter v u).mp hmem)
  unfold mergeCompatible
  by_cases hall : (other.iter.all fun cell => (sol.get cell.1).all fun t => t = cell.2) = true
  · have hcompat := hagree.mp hall
    rw [if_pos hall]
    have hget : (other.iter.foldl (fun merged cell => merged.insert cell.1 cell.2) sol).get =
        Mapping.merge sol.get other.get := by
      funext v
      rw [get_foldl_insert (ν := other.get) fun cell hcell => (hiter _ _).mp hcell, Mapping.merge_apply]
      have hmem : v ∈ other.iter.map Prod.fst ↔ ∃ t, other.get v = some t := by
        simp [hiter]
      by_cases hv : v ∈ other.iter.map Prod.fst
      · obtain ⟨t, ht⟩ := hmem.mp hv
        rw [if_pos hv, ht]
        cases hs : sol.get v with
        | none => rfl
        | some u => rw [Option.some_or, hcompat v u t hs ht]
      · have hnone : other.get v = none := by
          cases ho : other.get v with
          | none => rfl
          | some t => exact absurd (hmem.mpr ⟨t, ho⟩) hv
        rw [if_neg hv, hnone, Option.or_none]
    constructor
    · rintro ⟨merged, hm, rfl⟩
      cases hm
      exact ⟨hcompat, hget.symm⟩
    · rintro ⟨_, rfl⟩
      exact ⟨_, rfl, hget⟩
  · rw [if_neg hall]
    constructor
    · rintro ⟨_, hm, _⟩
      cases hm
    · rintro ⟨hcompat, _⟩
      exact absurd (hagree.mpr hcompat) hall

theorem mergeCompatible_iff (hother : other.Proper) {ξ : Mapping} :
    (∃ merged, sol.mergeCompatible other = some merged ∧ merged.get = ξ) ↔
      Mapping.Compatible sol.get other.get ∧ Mapping.merge sol.get other.get = ξ :=
  mergeCompatible_of_iter fun _ _ => hother.mem_iter

theorem Proper.mergeCompatible {merged : Solution} (h : sol.Proper)
    (hm : sol.mergeCompatible other = some merged) : merged.Proper :=
  kept_proper.mergeCompatible h (fun _ _ => Set.mem_univ _) hm

end Solution

/-! ## The rows of the operators -/

/-- The evaluation returns solutions with these mappings. -/
def Yields (r : Except QueryError (List Solution)) (M : Set Mapping) : Prop :=
  ∃ sols, r = .ok sols ∧ (∀ sol ∈ sols, sol.Proper) ∧ mappings sols = M

theorem Yields.congr {r : Except QueryError (List Solution)} (h : Yields r M)
    (hMN : ∀ μ, μ ∈ M ↔ μ ∈ N) : Yields r N := by
  rw [← Set.ext hMN]
  exact h

theorem Yields.unique {r : Except QueryError (List Solution)} (h : Yields r M) (h' : Yields r N) : M = N := by
  obtain ⟨sols, rfl, _, rfl⟩ := h
  obtain ⟨sols', heq, _, rfl⟩ := h'
  cases heq
  rfl

namespace Eval

/-- What `BIND` does to one solution. -/
def bindTo (v : Variable) (sol : Solution) : Option Term → Solution
  | some t => if sol.contains v then sol else sol.insert v t
  | none => sol

theorem evalPattern_extend (scalars : Scalars) (options : EvalOptions) (fuel : Nat) (ds : Dataset)
    (inner : GraphPattern)
    (v : Variable) (e : Expression) (ag : GraphSelector) :
    evalPattern scalars options fuel ds (.extend inner v e) ag = (do
      let sols ← evalPattern scalars options fuel ds inner ag
      sols.mapM fun sol => do return bindTo v sol (← evalExpr scalars options fuel ds e sol ag)) := by
  rw [evalPattern]
  congr 1
  funext sols
  congr 1
  funext sol
  congr 1
  funext t
  cases t with
  | none => rfl
  | some t => rfl

theorem get_bindTo (v : Variable) (sol : Solution) (t : Option Term) :
    (bindTo v sol t).get = Mapping.bind v t sol.get := by
  funext w
  simp only [Mapping.bind]
  cases t with
  | none => by_cases hw : w = v <;> simp [bindTo, hw]
  | some t =>
    rw [bindTo]
    cases hv : sol.get v with
    | none =>
      have hno : sol.contains v = false := by rw [Solution.contains, hv]; rfl
      simp only [hno, Bool.false_eq_true, if_false, Solution.get_insert, Option.none_or]
    | some u =>
      have hyes : sol.contains v = true := by rw [Solution.contains, hv]; rfl
      simp only [hyes, if_true, Option.some_or]
      by_cases hw : w = v
      · rw [if_pos hw, hw, hv]
      · rw [if_neg hw]

end Eval

section Operators

variable {St : Type} {E : Update.Engine St} {s : St} {M N : Set Mapping} {left right : GraphPattern}

/-- The rows of a join: the compatible pairs, merged. -/
theorem Yields.join (hl : Yields (E.evalPattern s left) M) (hr : Yields (E.evalPattern s right) N) :
    Yields (E.evalPattern s (.join left right))
      {ξ | ∃ μ ∈ M, ∃ ν ∈ N, Mapping.Compatible μ ν ∧ Mapping.merge μ ν = ξ} := by
  obtain ⟨ls, hls, hlp, rfl⟩ := hl
  obtain ⟨rs, hrs, hrp, rfl⟩ := hr
  refine ⟨Eval.joinSolutions ls rs, ?_, ?_, ?_⟩
  · unfold Update.Engine.evalPattern at hls hrs ⊢
    rw [Eval.evalPattern, hls, ok_bind, hrs, ok_bind]
    rfl
  · intro sol hsol
    obtain ⟨l, hl, hsol⟩ := mem_flatMap.mp hsol
    obtain ⟨r, _, hm⟩ := mem_filterMap.mp hsol
    exact (hlp l hl).mergeCompatible hm
  · ext ξ
    constructor
    · rintro ⟨sol, hsol, rfl⟩
      obtain ⟨l, hl, hsol⟩ := mem_flatMap.mp hsol
      obtain ⟨r, hr, hm⟩ := mem_filterMap.mp hsol
      exact ⟨l.get, ⟨l, hl, rfl⟩, r.get, ⟨r, hr, rfl⟩,
        (Solution.mergeCompatible_iff (hrp r hr)).mp ⟨sol, hm, rfl⟩⟩
    · rintro ⟨_, ⟨l, hl, rfl⟩, _, ⟨r, hr, rfl⟩, hmerge⟩
      obtain ⟨sol, hm, hget⟩ := (Solution.mergeCompatible_iff (hrp r hr)).mpr hmerge
      exact ⟨sol, mem_flatMap.mpr ⟨l, hl, mem_filterMap.mpr ⟨r, hr, hm⟩⟩, hget⟩

theorem Yields.joinLocal {ws : List Variable} {P Q : Mapping → Prop} (hP : Local vs P) (hQ : Local ws Q)
    (hl : Yields (E.evalPattern s left) {μ | HasDomain μ vs ∧ P μ})
    (hr : Yields (E.evalPattern s right) {μ | HasDomain μ ws ∧ Q μ}) :
    Yields (E.evalPattern s (.join left right)) {μ | HasDomain μ (vs ++ ws) ∧ P μ ∧ Q μ} := by
  have hside : ∀ {us : List Variable} {R : Mapping → Prop} {ξ : Mapping}, Local us R →
      (∀ v ∈ us, (ξ v).isSome = true) → (restrict us ξ ∈ {μ | HasDomain μ us ∧ R μ} ↔ R ξ) := by
    intro us R ξ hlocal hdom
    constructor
    · rintro ⟨_, hR⟩
      exact hlocal _ ξ (fun v hv => restrict_apply_of_mem hv ξ) hR
    · intro hR
      exact ⟨hasDomain_restrict hdom, hlocal ξ _ (fun v hv => (restrict_apply_of_mem hv ξ).symm) hR⟩
  refine (hl.join hr).congr fun ξ => (join_domains (fun μ h => h.1) (fun ν h => h.1) ξ).trans ?_
  refine and_congr_right fun hdom => ?_
  have hvs : ∀ v ∈ vs, (ξ v).isSome = true := fun v hv => (hdom v).mpr (mem_append_left _ hv)
  have hws : ∀ v ∈ ws, (ξ v).isSome = true := fun v hv => (hdom v).mpr (mem_append_right _ hv)
  exact and_congr (hside hP hvs) (hside hQ hws)

/-- The rows of an optional part without a condition. -/
theorem Yields.leftJoin (hl : Yields (E.evalPattern s left) M) (hr : Yields (E.evalPattern s right) N) :
    Yields (E.evalPattern s (.leftJoin left right none))
      {ξ | (∃ μ ∈ M, ∃ ν ∈ N, Mapping.Compatible μ ν ∧ Mapping.merge μ ν = ξ) ∨
        ξ ∈ M ∧ ∀ ν ∈ N, ¬Mapping.Compatible ξ ν} := by
  obtain ⟨ls, hls, hlp, rfl⟩ := hl
  obtain ⟨rs, hrs, hrp, rfl⟩ := hr
  -- without a condition every joined row is kept
  have hone : ∀ l, Eval.leftJoinOne rs (fun sol => Eval.evalCondition E.scalars Update.defaultOptions (E.fuel s)
      (E.dataset s) none sol .default) l =
      .ok (if (rs.filterMap l.mergeCompatible).isEmpty then [l] else rs.filterMap l.mergeCompatible) := by
    intro l
    have hall : ∀ sols : List Solution, sols.filterM (fun sol => Eval.evalCondition E.scalars Update.defaultOptions
        (E.fuel s) (E.dataset s) none sol .default) = .ok sols := by
      intro sols
      have h := filterM_ok (ε := QueryError) (fun _ : Solution => true) sols
      rw [filter_true] at h
      rw [← h]
      exact filterM_congr_left fun sol _ => by rw [Eval.evalCondition]
    rw [Eval.leftJoinOne, hall, ok_bind]
    rfl
  refine ⟨ls.flatMap fun l => if (rs.filterMap l.mergeCompatible).isEmpty then [l]
    else rs.filterMap l.mergeCompatible, ?_, ?_, ?_⟩
  · unfold Update.Engine.evalPattern at hls hrs ⊢
    rw [Eval.evalPattern, hls, ok_bind, hrs, ok_bind, mapM_congr_left fun l _ => hone l]
    rw [mapM_ok]
    rfl
  · intro sol hsol
    obtain ⟨l, hl, hsol⟩ := mem_flatMap.mp hsol
    split at hsol
    · rw [mem_singleton.mp hsol]
      exact hlp l hl
    · obtain ⟨r, _, hm⟩ := mem_filterMap.mp hsol
      exact (hlp l hl).mergeCompatible hm
  · -- a left solution stands alone if no right one is compatible with it
    have halone : ∀ l : Solution, (rs.filterMap l.mergeCompatible).isEmpty = true ↔
        ∀ r ∈ rs, ¬Mapping.Compatible l.get r.get := by
      intro l
      rw [List.isEmpty_iff, filterMap_eq_nil_iff]
      refine forall₂_congr fun r hr => ?_
      constructor
      · intro hnone hcompat
        obtain ⟨m, hm, _⟩ := (Solution.mergeCompatible_iff (hrp r hr)).mpr ⟨hcompat, rfl⟩
        rw [hnone] at hm
        cases hm
      · intro hno
        cases hm : l.mergeCompatible r with
        | none => rfl
        | some m => exact absurd ((Solution.mergeCompatible_iff (hrp r hr)).mp ⟨m, hm, rfl⟩).1 hno
    ext ξ
    constructor
    · rintro ⟨sol, hsol, rfl⟩
      obtain ⟨l, hl, hsol⟩ := mem_flatMap.mp hsol
      split at hsol
      · next hempty =>
        rw [mem_singleton.mp hsol]
        refine .inr ⟨⟨l, hl, rfl⟩, ?_⟩
        rintro _ ⟨r, hr, rfl⟩
        exact (halone l).mp hempty r hr
      · obtain ⟨r, hr, hm⟩ := mem_filterMap.mp hsol
        exact .inl ⟨l.get, ⟨l, hl, rfl⟩, r.get, ⟨r, hr, rfl⟩,
          (Solution.mergeCompatible_iff (hrp r hr)).mp ⟨sol, hm, rfl⟩⟩
    · rintro (⟨_, ⟨l, hl, rfl⟩, _, ⟨r, hr, rfl⟩, hmerge⟩ | ⟨⟨l, hl, rfl⟩, hno⟩)
      · obtain ⟨sol, hm, hget⟩ := (Solution.mergeCompatible_iff (hrp r hr)).mpr hmerge
        have hmem : sol ∈ rs.filterMap l.mergeCompatible := mem_filterMap.mpr ⟨r, hr, hm⟩
        refine ⟨sol, mem_flatMap.mpr ⟨l, hl, ?_⟩, hget⟩
        rw [if_neg fun hempty => (halone l).mp hempty r hr hmerge.1]
        exact hmem
      · refine ⟨l, mem_flatMap.mpr ⟨l, hl, ?_⟩, rfl⟩
        rw [if_pos ((halone l).mpr fun r hr => hno r.get ⟨r, hr, rfl⟩)]
        exact mem_singleton_self l

/-- The rows that pass a filter whose expression does not read the graph. -/
theorem Yields.filter (h : Yields (E.evalPattern s left) M) {e : Expression} {value : Mapping → Option Term}
    (he : ∀ sol, Eval.evalExpr E.scalars Update.defaultOptions (E.fuel s) (E.dataset s) e sol .default =
      .ok (value sol.get)) :
    Yields (E.evalPattern s (.filter e left)) {μ | μ ∈ M ∧ (value μ).bind E.scalars.toEbv = some true} := by
  obtain ⟨sols, hsols, hp, rfl⟩ := h
  refine ⟨sols.filter fun sol => ((value sol.get).bind E.scalars.toEbv).getD false, ?_, ?_, ?_⟩
  · unfold Update.Engine.evalPattern at hsols ⊢
    rw [Eval.evalPattern]
    have hpush : Eval.tryTextSearchPushdown Update.defaultOptions (E.dataset s) e left .default = .ok none := by
      rfl
    rw [hpush, ok_bind, hsols, ok_bind, ← filterM_ok]
    refine filterM_congr_left fun sol _ => ?_
    rw [Eval.ebvOf, he]
    rfl
  · exact fun sol hsol => hp sol (mem_of_mem_filter hsol)
  · ext μ
    have hpass : ∀ b : Option Bool, b.getD false = true ↔ b = some true := by
      intro b
      rcases b with _ | b <;> simp
    constructor
    · rintro ⟨sol, hsol, rfl⟩
      obtain ⟨hmem, hb⟩ := mem_filter.mp hsol
      exact ⟨⟨sol, hmem, rfl⟩, (hpass _).mp hb⟩
    · rintro ⟨⟨sol, hsol, rfl⟩, hb⟩
      exact ⟨sol, mem_filter.mpr ⟨hsol, (hpass _).mpr hb⟩, rfl⟩

/-- The rows with a value bound. -/
theorem Yields.extend (h : Yields (E.evalPattern s left) M) {e : Expression} {value : Mapping → Option Term}
    (v : Variable)
    (he : ∀ sol, Eval.evalExpr E.scalars Update.defaultOptions (E.fuel s) (E.dataset s) e sol .default =
      .ok (value sol.get)) :
    Yields (E.evalPattern s (.extend left v e)) {ξ | ∃ μ ∈ M, Mapping.bind v (value μ) μ = ξ} := by
  obtain ⟨sols, hsols, hp, rfl⟩ := h
  refine ⟨sols.map fun sol => Eval.bindTo v sol (value sol.get), ?_, ?_, ?_⟩
  · unfold Update.Engine.evalPattern at hsols ⊢
    rw [Eval.evalPattern_extend, hsols, ok_bind, ← mapM_ok]
    refine mapM_congr_left fun sol _ => ?_
    rw [he]
    rfl
  · intro sol hsol
    obtain ⟨sol', hsol', rfl⟩ := mem_map.mp hsol
    unfold Eval.bindTo
    split
    · split
      · exact hp sol' hsol'
      · exact (hp sol' hsol').insert v _
    · exact hp sol' hsol'
  · ext ξ
    constructor
    · rintro ⟨_, hout, rfl⟩
      obtain ⟨sol, hsol, rfl⟩ := mem_map.mp hout
      exact ⟨sol.get, ⟨sol, hsol, rfl⟩, (Eval.get_bindTo v sol _).symm⟩
    · rintro ⟨_, ⟨sol, hsol, rfl⟩, rfl⟩
      exact ⟨_, mem_map_of_mem hsol, Eval.get_bindTo v sol _⟩

end Operators

/-! ## Headers -/

section Headers

variable {sol sol' : Solution} {t : Term}

theorem proper_evalPatterns {ds : Dataset} {options : QueryOptions} {graph : GraphSelector}
    {patterns : List TriplePattern} {sols out : List Solution} (h : ∀ sol ∈ sols, sol.Proper)
    (hr : evalPatterns ds options graph patterns sols = .ok out) : ∀ sol ∈ out, sol.Proper :=
  Solution.kept_proper.evalPatterns (fun v _ => Set.mem_univ v) h hr

theorem proper_matchTermPattern {tp : TermPattern} (h : sol.Proper)
    (hb : Path.matchTermPattern tp t sol = some sol') : sol'.Proper := by
  cases tp with
  | var v => exact Solution.kept_proper.bindVariable h (Set.mem_univ _) hb
  | blankNode b => exact Solution.kept_proper.bindVariable h (Set.mem_univ _) hb
  | namedNode n => exact kept_guard h hb
  | literal l => exact kept_guard h hb
  | triple s p o => cases hb

end Headers

end Nova
