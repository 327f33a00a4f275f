import Nova.Louds.Runs
import Nova.Louds.Source
import Nova.Query.Meaning
import Nova.Query.Scope

/-!
# Full-text filters

A filter that is one call of a full-text function is pushed into the BGP under it: the
index is searched first, under the predicate of the variable, and each hit is put in the
place of the variable. Anywhere else the same call is tested row by row, by a search of
the whole index. Both searches return no more than `defaultTextSearchLimit` hits.

`pushed_rows_iff`: where the BGP and its instances are answered right, the two
ways give the same rows just when both searches find the same of the literals that the
rows bind, as they do where the limit cuts nothing off. A literal that only the search of
the whole index misses is found by the pushed filter alone.
-/

namespace Nova

open Nova.Lib List

open QueryError (ofEval ofPanic)

namespace Eval

/-- `DEFAULT_TEXT_SEARCH_LIMIT`. -/
def defaultTextSearchLimit : Nat := 10000

/-! ## What a BGP holds -/

open Classical in
/-- The number of ways to choose, for each pattern, a selected quad that is its instance. -/
noncomputable def timesMatched (S : Finset Quad) (graph : GraphSelector) : List TriplePattern → Mapping → Nat
  | [], _ => 1
  | tp :: rest, μ => ((selected S graph).filter (tp.Matches μ)).card * timesMatched S graph rest μ

open Classical in
/-- The BGP is answered with its solutions, each as often as the selected graphs hold it. -/
def AnswersRight (ds : Dataset) (options : QueryOptions) (S : Finset Quad) (graph : GraphSelector)
    (patterns : List TriplePattern) : Prop :=
  ∃ sols, evalBgp ds options patterns graph = .ok sols ∧
    ∀ μ, copies sols μ = if HasDomain μ (bgpVars patterns) then timesMatched S graph patterns μ else 0

section Meaning

variable {S : Finset Quad} {graph : GraphSelector} {patterns : List TriplePattern} {μ : Mapping}

theorem timesMatched_ne_zero : timesMatched S graph patterns μ ≠ 0 ↔
    ∀ tp ∈ patterns, ∃ q ∈ selected S graph, tp.Matches μ q := by
  classical
  induction patterns with
  | nil => simp [timesMatched]
  | cons tp rest ih =>
    rw [timesMatched, Nat.mul_ne_zero_iff, ih, forall_mem_cons, Finset.card_ne_zero]
    refine and_congr_left fun _ => ?_
    constructor
    · rintro ⟨q, hq⟩
      exact ⟨q, (Finset.mem_filter.mp hq).1, (Finset.mem_filter.mp hq).2⟩
    · rintro ⟨q, hq, hm⟩
      exact ⟨q, Finset.mem_filter.mpr ⟨hq, hm⟩⟩

theorem timesMatched_map {f : TriplePattern → TriplePattern} {ν : Mapping}
    (h : ∀ tp ∈ patterns, ∀ q, (f tp).Matches ν q ↔ tp.Matches μ q) :
    timesMatched S graph (patterns.map f) ν = timesMatched S graph patterns μ := by
  classical
  induction patterns with
  | nil => rfl
  | cons tp rest ih =>
    obtain ⟨htp, hrest⟩ := forall_mem_cons.mp h
    rw [map_cons, timesMatched, timesMatched, ih hrest]
    congr 2
    exact Finset.filter_congr fun q _ => htp q

theorem solves_iff : Solves S graph patterns μ ↔
    HasDomain μ (bgpVars patterns) ∧ timesMatched S graph patterns μ ≠ 0 := by
  rw [timesMatched_ne_zero]
  exact Iff.rfl

/-- Where nothing is read past a predicate, what fits is an instance. -/
theorem timesFitted_eq_timesMatched : ∀ {patterns : List TriplePattern} {before : List Variable},
    ¬Misread before patterns μ → timesFitted S graph before patterns μ = timesMatched S graph patterns μ
  | [], _, _ => rfl
  | tp :: rest, before, h => by
    classical
    obtain ⟨hfirst, hrest⟩ := not_or.mp h
    rw [timesFitted, timesMatched, timesFitted_eq_timesMatched hrest, fitting]
    congr 2
    exact Finset.filter_congr fun q _ => ⟨fun hf => hf.matches hfirst, fun hm => hm.fits before⟩

theorem answersRight_nested {st : QuadStore} {Known : Term → Prop} (h : Serves st S Known)
    (hoff : !st.supportsLftj || st.lftjHasDelta) (hmis : NoMisread S graph patterns)
    (hquoted : ∀ tp ∈ patterns, tp.isQuoted = true → ∀ t, Askable Known t) :
    AnswersRight (storeDataset st) .new S graph patterns := by
  classical
  obtain ⟨sols, hsols, hcount⟩ := nested_count h patterns graph hquoted
  refine ⟨sols, ?_, fun μ => ?_⟩
  · have hjoin : Lftj.evalBgpLftj (storeDataset st) patterns graph = .ok none := if_pos hoff
    rw [evalBgp, hjoin]
    exact hsols
  · rw [hcount]
    by_cases hdom : HasDomain μ (bgpVars patterns)
    · rw [if_pos hdom, if_pos hdom]
      by_cases hfits : FitsAll S graph [] patterns μ
      · exact timesFitted_eq_timesMatched (hmis μ hdom hfits)
      · -- what is an instance fits
        have hfitted : timesFitted S graph [] patterns μ = 0 := by
          by_contra hne
          exact hfits (timesFitted_ne_zero.mp hne)
        rw [hfitted]
        by_contra hne
        have hmatches := timesMatched_ne_zero.mp (Ne.symm hne)
        exact hne (hfitted.symm.trans (timesFitted_eq_timesMatched (not_misread_of_matches hmatches)))
    · rw [if_neg hdom, if_neg hdom]

end Meaning

/-! ## Counting rows -/

section Counting

theorem copies_append (sols sols' : List Solution) (μ : Mapping) :
    copies (sols ++ sols') μ = copies sols μ + copies sols' μ := by
  classical
  rw [copies, copies, copies, map_append, count_append]

theorem copies_ne_zero {sols : List Solution} {μ : Mapping} : copies sols μ ≠ 0 ↔ ∃ sol ∈ sols, sol.get = μ := by
  classical
  rw [copies, ← Nat.pos_iff_ne_zero, count_pos_iff, mem_map]

theorem perm_iff_copies {sols sols' : List Solution} :
    (sols.map Solution.get).Perm (sols'.map Solution.get) ↔ ∀ μ, copies sols μ = copies sols' μ := by
  classical
  exact perm_iff_count

open Classical in
theorem copies_filterMap {f : Solution → Option Solution} {c : Prop} {μ ν : Mapping} {sols : List Solution}
    (h : ∀ sol ∈ sols, (f sol).map Solution.get = some μ ↔ c ∧ sol.get = ν) :
    copies (sols.filterMap f) μ = if c then copies sols ν else 0 := by
  induction sols with
  | nil =>
    split
    · rfl
    · rfl
  | cons sol sols ih =>
    obtain ⟨hsol, hsols⟩ := forall_mem_cons.mp h
    have hcons : copies (sol :: sols) ν = copies [sol] ν + copies sols ν := copies_append [sol] sols ν
    have hone : copies [sol] ν = if sol.get = ν then 1 else 0 := by
      rw [copies, map_singleton, count_singleton]
      simp only [beq_iff_eq]
    have hfirst : copies ([sol].filterMap f) μ = if c ∧ sol.get = ν then 1 else 0 := by
      simp only [← hsol]
      cases hf : f sol with
      | none =>
        rw [filterMap_cons_none hf, filterMap_nil, Option.map_none, if_neg (by simp)]
        rfl
      | some row =>
        rw [filterMap_cons_some hf, filterMap_nil, copies, map_singleton, count_singleton]
        simp only [beq_iff_eq, Option.map_some, Option.some.injEq]
    have happend : (sol :: sols).filterMap f = [sol].filterMap f ++ sols.filterMap f := by
      rw [← filterMap_append]
      rfl
    rw [happend, copies_append, hfirst, ih hsols, hcons, hone]
    by_cases hc : c
    · simp only [hc, true_and, if_true]
    · simp only [hc, false_and, if_false]

end Counting

/-! ## A hit in the place of the variable -/

section Bound

variable {v : Variable} {t : Term} {μ : Mapping}

theorem matches_termPatternOf (ht : Term.isLiteral t = true) (u : Term) :
    (termPatternOf t).Matches μ u ↔ u = t := by
  cases t with
  | literal l => exact Iff.rfl
  | namedNode n => cases ht
  | blankNode b => cases ht
  | triple s p o => cases ht

theorem matches_substituteVarInTermPattern (ht : Term.isLiteral t = true) (hv : μ v = some t) (tp : TermPattern) :
    ∀ u, (substituteVarInTermPattern v t tp).Matches μ u ↔ tp.Matches μ u := by
  induction tp with
  | namedNode n => exact fun u => Iff.rfl
  | literal l => exact fun u => Iff.rfl
  | blankNode b => exact fun u => Iff.rfl
  | var w =>
    intro u
    rw [substituteVarInTermPattern]
    split
    · next heq =>
      rw [matches_termPatternOf ht, TermPattern.Matches, heq, hv, Option.some.injEq]
      exact eq_comm
    · exact Iff.rfl
  | triple s p o ihs iho =>
    intro u
    cases u with
    | triple s' p' o' => exact and_congr (ihs _) (and_congr_right fun _ => iho _)
    | namedNode n => exact Iff.rfl
    | blankNode b => exact Iff.rfl
    | literal l => exact Iff.rfl

theorem matches_substituteVarInTriplePattern (ht : Term.isLiteral t = true) (hv : μ v = some t)
    (tp : TriplePattern)
    (q : Quad) : (substituteVarInTriplePattern v t tp).Matches μ q ↔ tp.Matches μ q :=
  and_congr (matches_substituteVarInTermPattern ht hv tp.subject _)
    (and_congr_right fun _ => matches_substituteVarInTermPattern ht hv tp.object _)

variable {options : EvalOptions} {ds : Dataset} {S : Finset Quad} {ag : GraphSelector}
    {patterns : List TriplePattern}

theorem AnswersRight.hasDomain {query : QueryOptions} (h : AnswersRight ds query S ag patterns) :
    ∃ sols, evalBgp ds query patterns ag = .ok sols ∧ (∀ sol ∈ sols, HasDomain sol.get (bgpVars patterns)) ∧
      ∀ μ, HasDomain μ (bgpVars patterns) → copies sols μ = timesMatched S ag patterns μ := by
  obtain ⟨sols, hsols, hcount⟩ := h
  refine ⟨sols, hsols, fun sol hsol => ?_, fun μ hμ => by rw [hcount, if_pos hμ]⟩
  by_contra hno
  have hzero := hcount sol.get
  rw [if_neg hno] at hzero
  exact copies_ne_zero.mpr ⟨sol, hsol, rfl⟩ hzero

/-- A row of the BGP with a hit in the place of the variable. -/
def bindHit (v : Variable) (t : Term) (sol : Solution) : Option Solution :=
  match sol.get v with
  | none => some (sol.insert v t)
  | some bound => if bound = t then some sol else none

/-- Of the variables `V` all but the one are left, and that one may be. -/
theorem bindHit_iff {sol : Solution} {V W : List Variable} (hrow : HasDomain sol.get W) (hv : v ∈ V)
    (hsub : ∀ w ∈ W, w ∈ V) (hsup : ∀ w ∈ V, w ≠ v → w ∈ W) :
    (bindHit v t sol).map Solution.get = some μ ↔ (μ v = some t ∧ HasDomain μ V) ∧ sol.get = restrict W μ := by
  unfold bindHit
  cases hb : sol.get v with
  | none =>
    -- the row is the mapping without the variable
    have hlost : v ∉ W := fun hmem => by
      have hbound := (hrow v).mpr hmem
      rw [hb] at hbound
      cases hbound
    rw [Option.map_some, Option.some.injEq]
    constructor
    · rintro rfl
      refine ⟨⟨by rw [Solution.get_insert, if_pos rfl], fun w => ?_⟩, funext fun w => ?_⟩
      · rw [Solution.get_insert]
        split
        · next heq => exact iff_of_true rfl (heq ▸ hv)
        · next hne => exact (hrow w).trans ⟨hsub w, fun hw => hsup w hw hne⟩
      · by_cases hw : w ∈ W
        · rw [restrict_apply_of_mem hw, Solution.get_insert, if_neg]
          rintro rfl
          exact hlost hw
        · rw [restrict_eq_none hw]
          exact Option.not_isSome_iff_eq_none.mp fun hsome => hw ((hrow w).mp hsome)
    · rintro ⟨⟨hμ, hdom⟩, hget⟩
      funext w
      rw [Solution.get_insert]
      split
      · next heq => rw [heq, hμ]
      · next hne =>
        rw [hget]
        by_cases hw : w ∈ W
        · exact restrict_apply_of_mem hw μ
        · rw [restrict_eq_none hw]
          exact (Option.not_isSome_iff_eq_none.mp fun hsome => hw (hsup w ((hdom w).mp hsome) hne)).symm
  | some bound =>
    -- the variable also stands where no term is put, and the row has to agree
    have hkept : v ∈ W := (hrow v).mp (by rw [hb]; rfl)
    have hvars : ∀ w, w ∈ W ↔ w ∈ V := by
      refine fun w => ⟨hsub w, fun hw => ?_⟩
      by_cases hne : w = v
      · exact hne ▸ hkept
      · exact hsup w hw hne
    dsimp only
    split
    · next heq =>
      rw [Option.map_some, Option.some.injEq]
      constructor
      · rintro rfl
        exact ⟨⟨by rw [hb, heq], fun w => (hrow w).trans (hvars w)⟩, (restrict_of_hasDomain hrow).symm⟩
      · rintro ⟨⟨-, hdom⟩, hget⟩
        rw [hget]
        exact restrict_of_hasDomain fun w => (hdom w).trans (hvars w).symm
    · next hne =>
      refine iff_of_false nofun ?_
      rintro ⟨⟨hμ, -⟩, hget⟩
      rw [hget, restrict_apply_of_mem hkept, hμ] at hb
      exact hne (Option.some.inj hb).symm

open Classical in
theorem copies_evalBgpWithBoundVar (ht : Term.isLiteral t = true) (hv : v ∈ bgpVars patterns)
    (h : AnswersRight ds options.query S ag (patterns.map (substituteVarInTriplePattern v t))) :
    ∃ rows, evalBgpWithBoundVar options ds patterns v t ag = .ok rows ∧ ∀ μ, copies rows μ =
      if μ v = some t ∧ HasDomain μ (bgpVars patterns) then timesMatched S ag patterns μ else 0 := by
  obtain ⟨sols, hsols, hdom, hcount⟩ := h.hasDomain
  obtain ⟨hsub, hsup⟩ := vars_substituteVarInTriplePattern (v := v) ht patterns
  refine ⟨sols.filterMap (bindHit v t), by rw [evalBgpWithBoundVar, hsols]; rfl, fun μ => ?_⟩
  rw [copies_filterMap fun sol hsol => bindHit_iff (hdom sol hsol) hv hsub hsup]
  split
  · next hc =>
    have hpart : HasDomain (restrict (bgpVars (patterns.map (substituteVarInTriplePattern v t))) μ)
        (bgpVars (patterns.map (substituteVarInTriplePattern v t))) :=
      hasDomain_restrict fun w hw => (hc.2 w).mpr (hsub w hw)
    rw [hcount _ hpart]
    refine timesMatched_map fun tp htp q => ?_
    rw [← matches_substituteVarInTriplePattern ht hc.1 tp q]
    refine TriplePattern.matches_congr fun w hw => restrict_apply_of_mem ?_ μ
    exact mem_flatMap.mpr ⟨_, mem_map_of_mem htp, hw⟩
  · rfl

end Bound

/-! ## The two ways to filter -/

/-- Ids and terms name each other. Asking for a term returns, unless it is a quoted triple. -/
structure NamesTerms (ds : Dataset) : Prop where
  interns : ∀ t, t.isTriple = false → ∃ id, ds.lftjInternTerm t = .ok id
  decodes : ∀ id, ∃ t, ds.lftjDecodeTerm id = .ok t
  names : ∀ t id, ds.lftjInternTerm t = .ok (some id) ↔ ds.lftjDecodeTerm id = .ok (some t)

/-- The value is a literal that is among the hits. -/
def Found (ds : Dataset) (hits : List Nat) (value : Option Term) : Prop :=
  ∃ t id, value = some t ∧ Term.isLiteral t = true ∧ ds.lftjInternTerm t = .ok (some id) ∧ id ∈ hits

/-- The rows of the BGP that pass the scalar test. -/
def scalarRows (options : EvalOptions) (ds : Dataset) (patterns : List TriplePattern)
    (v : Variable) (query : String)
    (mode : TextFn) (ag : GraphSelector) : Except QueryError (List Solution) := do
  let sols ← ofEval (evalBgp ds options.query patterns ag)
  sols.filterM fun sol => do
    return decide ((← evalTextScalar options ds (sol.get v) (some query) mode) = some (boolTerm true))

variable {predicateId : Option Nat} {query : String}

section Filters

variable {options : EvalOptions} {ds : Dataset} {S : Finset Quad} {ag : GraphSelector}
    {patterns : List TriplePattern}
  {v : Variable} {search : String → Option Nat → List Nat}

theorem not_isTriple_of_isLiteral {t : Term} (ht : Term.isLiteral t = true) : t.isTriple = false := by
  cases t with
  | triple s p o => cases ht
  | _ => rfl

theorem evalTextScalar_iff (hnames : NamesTerms ds) (hsearch : options.textSearch = some search)
    (value : Option Term)
    (query : String) (mode : TextFn) : ∃ r, evalTextScalar options ds value (some query) mode = .ok r ∧
      (r = some (boolTerm true) ↔ Found ds (search (mode.effectiveQuery query) none) value) := by
  unfold evalTextScalar
  rw [hsearch]
  cases value with
  | none => exact ⟨none, rfl, iff_of_false nofun fun ⟨t, _, h, _⟩ => by cases h⟩
  | some t =>
    dsimp only
    by_cases ht : Term.isLiteral t = true
    · obtain ⟨found, hfound⟩ := hnames.interns t (not_isTriple_of_isLiteral ht)
      rw [ht, hfound]
      cases found with
      | none =>
        refine ⟨none, rfl, iff_of_false nofun ?_⟩
        rintro ⟨u, id, hu, -, hid, -⟩
        cases hu
        rw [hfound] at hid
        cases hid
      | some id =>
        refine ⟨_, rfl, ?_⟩
        constructor
        · intro h
          have hin : decide (id ∈ search (mode.effectiveQuery query) none) = true :=
            boolTerm_injective (Option.some.inj h)
          exact ⟨t, id, rfl, ht, hfound, of_decide_eq_true hin⟩
        · rintro ⟨u, id', hu, -, hid, hin⟩
          cases hu
          rw [hfound] at hid
          cases hid
          rw [decide_eq_true hin]
    · refine ⟨some (boolTerm false), by rw [Bool.not_eq_true] at ht; rw [ht]; rfl, ?_⟩
      refine iff_of_false (fun h => absurd (boolTerm_injective (Option.some.inj h)) (by decide)) ?_
      rintro ⟨u, id, hu, hlit, -⟩
      cases hu
      exact ht hlit

open Classical in
theorem copies_scalarRows (hnames : NamesTerms ds) (hsearch : options.textSearch = some search)
    (h : AnswersRight ds options.query S ag patterns) (query : String) (mode : TextFn) :
    ∃ rows, scalarRows options ds patterns v query mode ag = .ok rows ∧ ∀ μ, copies rows μ =
      if Found ds (search (mode.effectiveQuery query) none) (μ v) ∧ HasDomain μ (bgpVars patterns)
      then timesMatched S ag patterns μ else 0 := by
  obtain ⟨sols, hsols, hcount⟩ := h
  have htest : ∀ sol : Solution, (do
      return decide ((← evalTextScalar options ds (sol.get v) (some query) mode) = some (boolTerm true))) =
      (.ok (decide (Found ds (search (mode.effectiveQuery query) none)
        (sol.get v))) : Except QueryError Bool) := by
    intro sol
    obtain ⟨r, hr, hiff⟩ := evalTextScalar_iff hnames hsearch (sol.get v) query mode
    rw [hr]
    exact congrArg Except.ok (decide_eq_decide.mpr hiff)
  refine ⟨sols.filter fun sol =>
    decide (Found ds (search (mode.effectiveQuery query) none) (sol.get v)), ?_, fun μ => ?_⟩
  · rw [scalarRows, hsols]
    simp only [htest]
    exact filterM_ok _ sols
  · rw [← filterMap_eq_filter, copies_filterMap (c := Found ds (search (mode.effectiveQuery query) none) (μ v))
      (ν := μ), hcount, ite_and]
    intro sol _
    rw [Option.map_eq_some_iff]
    simp only [Option.guard_eq_some_iff, decide_eq_true_eq]
    constructor
    · rintro ⟨row, ⟨rfl, hfound⟩, rfl⟩
      exact ⟨hfound, rfl⟩
    · rintro ⟨hfound, rfl⟩
      exact ⟨sol, ⟨rfl, hfound⟩, rfl⟩

theorem found_cons_of_ne (hnames : NamesTerms ds) {id : Nat} {rest : List Nat} {value : Option Term}
    (h : ∀ t, value = some t → ds.lftjDecodeTerm id ≠ .ok (some t)) :
    Found ds (id :: rest) value ↔ Found ds rest value := by
  refine exists_congr fun t => exists_congr fun id' => and_congr_right fun ht => and_congr_right fun _ =>
    and_congr_right fun hintern => ?_
  rw [mem_cons, or_iff_right]
  rintro rfl
  exact h t ht ((hnames.names t id').mp hintern)

open Classical in
/-- The hits one by one: only one of them is the term of the variable. -/
theorem copies_evalHits (hnames : NamesTerms ds) (hv : v ∈ bgpVars patterns)
    (hright : ∀ t, Term.isLiteral t = true →
      AnswersRight ds options.query S ag (patterns.map (substituteVarInTriplePattern v t))) :
    ∀ {ids : List Nat}, ids.Nodup →
      (∀ id ∈ ids, ∀ t, ds.lftjDecodeTerm id = .ok (some t) → Term.isLiteral t = true) →
    ∃ rows, evalHits options ds patterns v ag ids = .ok rows ∧ ∀ μ, copies rows μ =
      if Found ds ids (μ v) ∧ HasDomain μ (bgpVars patterns) then timesMatched S ag patterns μ else 0
  | [], _, _ => by
    refine ⟨[], rfl, fun μ => ?_⟩
    rw [if_neg fun h => by obtain ⟨⟨t, id, -, -, -, hid⟩, -⟩ := h; exact absurd hid not_mem_nil]
    rfl
  | id :: rest, hnodup, hlit => by
    obtain ⟨hnew, hnodup⟩ := nodup_cons.mp hnodup
    obtain ⟨hid, hrest⟩ := forall_mem_cons.mp hlit
    obtain ⟨next, hnext, hcount⟩ := copies_evalHits hnames hv hright hnodup hrest
    obtain ⟨decoded, hdecoded⟩ := hnames.decodes id
    rw [evalHits, hdecoded]
    cases decoded with
    | none =>
      -- an id without a term adds no row
      refine ⟨next, hnext, fun μ => ?_⟩
      rw [hcount, found_cons_of_ne hnames fun t _ ht => ?_]
      rw [hdecoded] at ht
      cases ht
    | some t =>
      have ht := hid t hdecoded
      obtain ⟨now, hnow, hbound⟩ := copies_evalBgpWithBoundVar ht hv (hright t ht)
      have hok : ofPanic (.ok (some t)) = (.ok (some t) : Except QueryError (Option Term)) := rfl
      refine ⟨now ++ next, by simp only [hok, ok_bind, hnow, hnext]; rfl, fun μ => ?_⟩
      rw [copies_append, hbound, hcount]
      by_cases hdom : HasDomain μ (bgpVars patterns)
      · simp only [hdom, and_true]
        by_cases hμ : μ v = some t
        · -- no later hit is this term
          have hfound : Found ds (id :: rest) (μ v) :=
            ⟨t, id, hμ, ht, (hnames.names t id).mpr hdecoded, mem_cons_self⟩
          have hlater : ¬Found ds rest (μ v) := by
            rintro ⟨u, id', hu, -, hintern, hin⟩
            rw [hμ] at hu
            cases hu
            rw [(hnames.names t id).mpr hdecoded] at hintern
            cases hintern
            exact hnew hin
          rw [if_pos hμ, if_neg hlater, if_pos hfound, Nat.add_zero]
        · rw [if_neg hμ, Nat.zero_add, found_cons_of_ne hnames fun u hu hdecode => ?_]
          rw [hdecoded] at hdecode
          cases hdecode
          exact hμ hu
      · simp only [hdom, and_false, if_false]

/-- The predicate that is searched is one of the variable. -/
theorem textPredicateId_spec (hnames : NamesTerms ds) (v : Variable) : ∀ patterns : List TriplePattern,
    ∃ predicateId, textPredicateId ds v patterns = .ok predicateId ∧ ∀ id, predicateId = some id →
      ∃ tp ∈ patterns, ∃ p, tp.object = .var v ∧ tp.predicate = .namedNode p ∧
        ds.lftjInternTerm (.namedNode p) = .ok (some id)
  | [] => ⟨none, rfl, nofun⟩
  | tp :: rest => by
    obtain ⟨predicateId, hrest, hspec⟩ := textPredicateId_spec hnames v rest
    have hlater : ∀ id, predicateId = some id → ∃ tp' ∈ tp :: rest, ∃ p, tp'.object = .var v ∧
        tp'.predicate = .namedNode p ∧ ds.lftjInternTerm (.namedNode p) = .ok (some id) := by
      intro id hid
      obtain ⟨tp', htp', hp⟩ := hspec id hid
      exact ⟨tp', mem_cons_of_mem tp htp', hp⟩
    rw [textPredicateId]
    split
    · next hobject =>
      split
      · next p hp =>
        obtain ⟨found, hfound⟩ := hnames.interns (.namedNode p) rfl
        rw [hfound]
        cases found with
        | none => exact ⟨predicateId, hrest, hlater⟩
        | some id =>
          refine ⟨some id, rfl, fun id' hid' => ?_⟩
          cases hid'
          exact ⟨tp, mem_cons_self, p, hobject, hp, hfound⟩
      · exact ⟨predicateId, hrest, hlater⟩
    · exact ⟨predicateId, hrest, hlater⟩

open Classical in
theorem copies_pushdown (hnames : NamesTerms ds) (hsearch : options.textSearch = some search) {expr : Expression}
    {mode : TextFn} (hcall : textSearchCall expr = some (v, query, mode))
    (hany : (patterns.any fun tp => tp.object = .var v) = true)
    (hpredicate : textPredicateId ds v patterns = .ok predicateId)
    (hlit : ∀ id ∈ search (mode.effectiveQuery query) predicateId, ∀ t,
      ds.lftjDecodeTerm id = .ok (some t) → Term.isLiteral t = true) (hright : ∀ t, Term.isLiteral t = true →
      AnswersRight ds options.query S ag (patterns.map (substituteVarInTriplePattern v t))) :
    ∃ rows, tryTextSearchPushdown options ds expr (.bgp patterns) ag = .ok (some rows) ∧ ∀ μ, copies rows μ =
      if Found ds (search (mode.effectiveQuery query) predicateId) (μ v) ∧ HasDomain μ (bgpVars patterns)
      then timesMatched S ag patterns μ else 0 := by
  have hv : v ∈ bgpVars patterns := by
    obtain ⟨tp, htp, hobject⟩ := any_eq_true.mp hany
    refine mem_flatMap.mpr ⟨tp, htp, ?_⟩
    rw [TriplePattern.vars, of_decide_eq_true hobject]
    exact mem_append_right _ mem_cons_self
  obtain ⟨rows, hrows, hcount⟩ := copies_evalHits hnames hv hright
    (nodup_firsts (search (mode.effectiveQuery query) predicateId)) fun id hid => hlit id (mem_firsts.mp hid)
  refine ⟨rows, ?_, fun μ => ?_⟩
  · unfold tryTextSearchPushdown
    simp only [hsearch, hcall, hpredicate, ok_bind, hany, if_true, hrows]
    rfl
  · have hfound : Found ds (firsts (search (mode.effectiveQuery query) predicateId)) (μ v) ↔
        Found ds (search (mode.effectiveQuery query) predicateId) (μ v) := by
      simp only [Found, mem_firsts]
    simp only [hcount, hfound]

end Filters

/-! ## The index -/

/-- The documents of a text index, one for each quad with its predicate and its object, and
the objects that a query matches. -/
structure TextIndex where
  documents : List (Nat × Nat)
  hit : String → Nat → Bool

/-- The document is asked for. -/
def TextIndex.wants (hit : String → Nat → Bool) (query : String) (predicate : Option Nat) (document : Nat × Nat) :
    Bool :=
  hit query document.2 && predicate.all fun p => document.1 = p

def TextIndex.asked (index : TextIndex) (query : String) (predicate : Option Nat) : List (Nat × Nat) :=
  index.documents.filter (wants index.hit query predicate)

/-- A search answers right up to a limit: it finds documents that are asked for, each once,
and leaves out no more than does not fit. -/
structure SearchesUpTo (limit : Nat) (index : TextIndex) (search : String → Option Nat → List Nat) : Prop where
  subperm : ∀ query predicate, (search query predicate).Subperm ((index.asked query predicate).map Prod.snd)
  length_eq : ∀ query predicate, (search query predicate).length = min limit (index.asked query predicate).length

/-- Each literal of the store is entered under its predicate, and only literals are. -/
structure UpToDate (index : TextIndex) (ds : Dataset) (S : Finset Quad) : Prop where
  entered : ∀ q ∈ S, Term.isLiteral q.object = true →
    ∀ p o, ds.lftjInternTerm (.namedNode q.predicate) = .ok (some p) →
    ds.lftjInternTerm q.object = .ok (some o) → (p, o) ∈ index.documents
  literals : ∀ document ∈ index.documents, ∀ t, ds.lftjDecodeTerm document.2 = .ok (some t) →
    Term.isLiteral t = true

theorem SearchesUpTo.sound {limit : Nat} {index : TextIndex} {search : String → Option Nat → List Nat}
    (h : SearchesUpTo limit index search) {predicate : Option Nat} {id : Nat}
    (hid : id ∈ search query predicate) : ∃ document ∈ index.asked query predicate, document.2 = id :=
  mem_map.mp ((h.subperm query predicate).subset hid)

theorem SearchesUpTo.full {limit : Nat} {index : TextIndex} {search : String → Option Nat → List Nat}
    (h : SearchesUpTo limit index search) {predicate : Option Nat}
    (hfew : (index.asked query predicate).length ≤ limit) {document : Nat × Nat}
    (hdocument : document ∈ index.asked query predicate) : document.2 ∈ search query predicate := by
  have hlength := h.length_eq query predicate
  rw [Nat.min_eq_right hfew] at hlength
  have hperm := (h.subperm query predicate).perm_of_length_le (by rw [length_map, hlength])
  exact hperm.mem_iff.mpr (mem_map_of_mem hdocument)

/-- The first documents of a ranking. -/
def rankedSearch (limit : Nat) (index : TextIndex) (query : String) (predicate : Option Nat) : List Nat :=
  ((index.asked query predicate).map Prod.snd).take limit

theorem searchesUpTo_ranked (limit : Nat) (index : TextIndex) : SearchesUpTo limit index
    (rankedSearch limit index) where
  subperm query predicate := (take_sublist limit _).subperm
  length_eq query predicate := by rw [rankedSearch, List.length_take, length_map]

section Index

variable {options : EvalOptions} {ds : Dataset} {S : Finset Quad} {ag : GraphSelector}
    {patterns : List TriplePattern}
  {v : Variable} {search : String → Option Nat → List Nat} {index : TextIndex} {limit : Nat}

/-- Of the literals that the solutions bind to the variable, the two searches find the same. -/
def FoundAlike (ds : Dataset) (S : Finset Quad) (ag : GraphSelector) (patterns : List TriplePattern) (v : Variable)
    (here everywhere : List Nat) : Prop :=
  ∀ μ, Solves S ag patterns μ → (Found ds here (μ v) ↔ Found ds everywhere (μ v))

/-- Where the limit cuts nothing off, the search under a predicate of the variable finds
the objects of that predicate. -/
theorem foundAlike_of_few (hnames : NamesTerms ds) (hindex : UpToDate index ds S)
    (hsearch : SearchesUpTo limit index search)
    (hpredicate : textPredicateId ds v patterns = .ok predicateId) (query : String)
    (hfew : (index.asked query none).length ≤ limit) :
    FoundAlike ds S ag patterns v (search query predicateId) (search query none) := by
  intro μ hμ
  obtain ⟨found, hfound, hspec⟩ := textPredicateId_spec hnames v patterns
  rw [hpredicate] at hfound
  cases hfound
  cases predicateId with
  | none => exact Iff.rfl
  | some p =>
    have hsub : (index.asked query (some p)).Sublist (index.asked query none) := by
      refine monotone_filter_right _ fun document hwants => ?_
      rw [TextIndex.wants, Bool.and_eq_true] at hwants ⊢
      exact ⟨hwants.1, rfl⟩
    obtain ⟨tp, htp, n, hobject, hn, hp⟩ := hspec p rfl
    obtain ⟨q, hq, -, hpred, hobj⟩ := hμ.2 tp htp
    rw [hn] at hpred
    rw [hobject] at hobj
    refine exists_congr fun t => exists_congr fun id => and_congr_right fun ht => and_congr_right fun hlit =>
      and_congr_right fun hintern => ⟨fun hin => ?_, fun hin => ?_⟩
    · obtain ⟨document, hdocument, rfl⟩ := hsearch.sound hin
      exact hsearch.full hfew (hsub.subset hdocument)
    · -- the literal is the object of a quad with this predicate, whose document is asked for
      have hobj : q.object = t := Option.some.inj (hobj.symm.trans ht)
      have hentered : (p, id) ∈ index.documents := by
        refine hindex.entered q (Finset.mem_filter.mp hq).1 (by rw [hobj, hlit]) p id ?_ (by rw [hobj, hintern])
        rw [hpred, hp]
      obtain ⟨document, hdocument, rfl⟩ := hsearch.sound hin
      have hhit := (Bool.and_eq_true _ _).mp (mem_filter.mp hdocument).2
      have hasked : (p, document.2) ∈ index.asked query (some p) := by
        refine mem_filter.mpr ⟨hentered, ?_⟩
        rw [TextIndex.wants, Bool.and_eq_true]
        exact ⟨hhit.1, decide_eq_true rfl⟩
      have hfound : (p, document.2).2 ∈ search query (some p) := hsearch.full (hsub.length_le.trans hfew) hasked
      exact hfound

/-! ## Pushed and tested row by row -/

/-- The pushed filter gives the rows that pass the test. -/
def SameRows (pushed : Except QueryError (Option (List Solution)))
    (tested : Except QueryError (List Solution)) : Prop :=
  ∃ rows rows', pushed = .ok (some rows) ∧ tested = .ok rows' ∧
    (rows.map Solution.get).Perm (rows'.map Solution.get)

/-- The pushdown gives the rows of the filter just when its search finds as much. -/
theorem sameRows_iff (hnames : NamesTerms ds) (hindex : UpToDate index ds S)
    (hsearch : SearchesUpTo limit index search)
    (hoptions : options.textSearch = some search) {expr : Expression} {mode : TextFn}
    (hcall : textSearchCall expr = some (v, query, mode))
    (hany : (patterns.any fun tp => tp.object = .var v) = true)
    (hright : AnswersRight ds options.query S ag patterns) (hbound : ∀ t, Term.isLiteral t = true →
      AnswersRight ds options.query S ag (patterns.map (substituteVarInTriplePattern v t)))
    (hpredicate : textPredicateId ds v patterns = .ok predicateId) :
    SameRows (tryTextSearchPushdown options ds expr (.bgp patterns) ag)
        (scalarRows options ds patterns v query mode ag) ↔
      FoundAlike ds S ag patterns v (search (mode.effectiveQuery query) predicateId)
        (search (mode.effectiveQuery query) none) := by
  classical
  have hlit : ∀ id ∈ search (mode.effectiveQuery query) predicateId, ∀ t,
      ds.lftjDecodeTerm id = .ok (some t) → Term.isLiteral t = true := by
    intro id hid t ht
    obtain ⟨document, hdocument, rfl⟩ := hsearch.sound hid
    exact hindex.literals document (mem_filter.mp hdocument).1 t ht
  obtain ⟨rows, hrows, hcount⟩ := copies_pushdown hnames hoptions hcall hany hpredicate hlit hbound
  obtain ⟨rows', hrows', hcount'⟩ := copies_scalarRows (v := v) hnames hoptions hright query mode
  have hsame : SameRows (tryTextSearchPushdown options ds expr (.bgp patterns) ag)
      (scalarRows options ds patterns v query mode ag) ↔ ∀ μ, copies rows μ = copies rows' μ := by
    rw [← perm_iff_copies, hrows, hrows']
    constructor
    · rintro ⟨_, _, h, h', hperm⟩
      cases h
      cases h'
      exact hperm
    · exact fun hperm => ⟨rows, rows', rfl, rfl, hperm⟩
  rw [hsame]
  simp only [hcount, hcount']
  constructor
  · intro h μ hμ
    obtain ⟨hdom, hne⟩ := solves_iff.mp hμ
    have heq := h μ
    simp only [hdom, and_true] at heq
    -- a solution is counted where it is found
    by_cases hhere : Found ds (search (mode.effectiveQuery query) predicateId) (μ v)
    · refine iff_of_true hhere ?_
      by_contra hno
      rw [if_pos hhere, if_neg hno] at heq
      exact hne heq
    · refine iff_of_false hhere fun hthere => ?_
      rw [if_neg hhere, if_pos hthere] at heq
      exact hne heq.symm
  · intro h μ
    by_cases hμ : Solves S ag patterns μ
    · simp only [h μ hμ]
    · have hzero : HasDomain μ (bgpVars patterns) → timesMatched S ag patterns μ = 0 := by
        intro hdom
        by_contra hne
        exact hμ (solves_iff.mpr ⟨hdom, hne⟩)
      have hnone : ∀ c : Prop, (if c ∧
          HasDomain μ (bgpVars patterns) then timesMatched S ag patterns μ else 0) = 0 := by
        intro c
        split
        · next hc => exact hzero hc.2
        · rfl
      rw [hnone, hnone]

/-- A filter over an answered BGP is pushed with the same rows just when the limit cuts the
literals of its solutions off in both searches or in neither; so it is where nothing is cut
off. -/
theorem pushed_rows_iff (hnames : NamesTerms ds) (hindex : UpToDate index ds S)
    (hsearch : SearchesUpTo defaultTextSearchLimit index search) (hoptions : options.textSearch = some search)
    {expr : Expression} {query : String} {mode : TextFn} (hcall : textSearchCall expr = some (v, query, mode))
    (hany : (patterns.any fun tp => tp.object = .var v) = true)
    (hright : AnswersRight ds options.query S ag patterns)
    (hbound : ∀ t, Term.isLiteral t = true →
      AnswersRight ds options.query S ag (patterns.map (substituteVarInTriplePattern v t))) :
    ∃ predicateId, textPredicateId ds v patterns = .ok predicateId ∧
      (SameRows (tryTextSearchPushdown options ds expr (.bgp patterns) ag)
          (scalarRows options ds patterns v query mode ag) ↔
        FoundAlike ds S ag patterns v (search (mode.effectiveQuery query) predicateId)
          (search (mode.effectiveQuery query) none)) ∧
      ((index.asked (mode.effectiveQuery query) none).length ≤ defaultTextSearchLimit →
        SameRows (tryTextSearchPushdown options ds expr (.bgp patterns) ag)
          (scalarRows options ds patterns v query mode ag)) := by
  obtain ⟨predicateId, hpredicate, -⟩ := textPredicateId_spec hnames v patterns
  have hiff := sameRows_iff hnames hindex hsearch hoptions hcall hany hright hbound hpredicate
  refine ⟨predicateId, hpredicate, hiff, fun hfew => hiff.mpr ?_⟩
  exact foundAlike_of_few hnames hindex hsearch hpredicate _ hfew

end Index

/-! ## A store of many literals -/

/-- The literal `aa..a`. -/
def runOf (n : Nat) : Term := .literal (.string (String.ofList (List.replicate n 'a')))

/-- One object of `p`, the empty text, and `n` objects of `q`. -/
def crowdedQuads (n : Nat) : List Quad :=
  ⟨.namedNode ⟨"s"⟩, ⟨"p"⟩, runOf 0, .defaultGraph⟩ ::
    (List.range n).map fun i => ⟨.namedNode ⟨"s"⟩, ⟨"q"⟩, runOf (i + 1), .defaultGraph⟩

theorem runOf_injective : Function.Injective runOf := by
  intro m n h
  have hchars : List.replicate m 'a' = List.replicate n 'a' := by
    simpa using congrArg String.toList (Literal.string.inj (Term.literal.inj h))
  simpa using congrArg List.length hchars

def crowdedStore (n : Nat) : MemoryStore where
  quads := crowdedQuads n
  namedGraphIris := []
  nodup := by
    refine List.nodup_cons.mpr ⟨fun hmem => ?_, ?_⟩
    · obtain ⟨i, -, heq⟩ := List.mem_map.mp hmem
      have hiri : "q" = "p" := NamedNode.mk.inj (congrArg Quad.predicate heq)
      exact absurd hiri (by decide)
    · refine List.Nodup.map (fun i j heq => ?_) List.nodup_range
      have hobject := congrArg Quad.object heq
      exact Nat.succ_injective (runOf_injective hobject)

/-- `p` is 0 and `q` is 1; the texts come after them, by their lengths. -/
def crowdedIntern : Term → Option Nat
  | .namedNode n => if n.iri = "p" then some 0 else if n.iri = "q" then some 1 else none
  | .literal (.string s) => if s = String.ofList (List.replicate s.length 'a') then some (s.length + 2) else none
  | _ => none

def crowdedDecode : Nat → Option Term
  | 0 => some (.namedNode ⟨"p"⟩)
  | 1 => some (.namedNode ⟨"q"⟩)
  | n + 2 => some (runOf n)

/-- The store with ids, before its first compaction. -/
def crowdedDataset (n : Nat) : Dataset :=
  storeDataset { (crowdedStore n).quadStore with
    lftjInternTerm := fun t => .ok (crowdedIntern t)
    lftjDecodeTerm := fun id => .ok (crowdedDecode id) }

/-- The objects of `q` rank higher. -/
def crowdedIndex (n : Nat) : TextIndex where
  documents := (List.range n).map (fun i => (1, i + 3)) ++ [(0, 2)]
  hit _ _ := true

def crowdedOptions (n : Nat) : EvalOptions :=
  ⟨.new, false, none, some (rankedSearch defaultTextSearchLimit (crowdedIndex n))⟩

/-- `text:query(?o, "a*")`. -/
def textFilter : Expression :=
  .functionCall (.custom ⟨textNs ++ "query"⟩) [.var ⟨"o"⟩, .literal (.string "a*")]

def objectOfP : TriplePattern := ⟨.namedNode ⟨"s"⟩, .namedNode ⟨"p"⟩, .var ⟨"o"⟩⟩

section Crowded

variable (n : Nat)

theorem crowdedIntern_runOf (k : Nat) : crowdedIntern (runOf k) = some (k + 2) := by
  have hlength : (String.ofList (List.replicate k 'a')).length = k := by simp
  rw [runOf, crowdedIntern, hlength, if_pos rfl]

theorem crowdedIntern_iff (t : Term) (id : Nat) : crowdedIntern t = some id ↔ crowdedDecode id = some t := by
  constructor
  · intro h
    cases t with
    | namedNode m =>
      rw [crowdedIntern] at h
      split at h
      · next hp =>
        cases h
        rw [crowdedDecode, ← hp]
      · split at h
        · next hq =>
          cases h
          rw [crowdedDecode, ← hq]
        · cases h
    | blankNode b => cases h
    | triple s p o => cases h
    | literal l =>
      cases l with
      | string s =>
        rw [crowdedIntern] at h
        split at h
        · next hs =>
          cases h
          rw [crowdedDecode, runOf, ← hs]
        · cases h
      | languageTagged s lang => cases h
      | directional s lang dir => cases h
      | typed s dt hdt => cases h
  · intro h
    match id with
    | 0 =>
      cases h
      rfl
    | 1 =>
      cases h
      rfl
    | k + 2 =>
      cases h
      exact crowdedIntern_runOf k

theorem crowded_names : NamesTerms (crowdedDataset n) where
  interns t _ := ⟨crowdedIntern t, rfl⟩
  decodes id := ⟨crowdedDecode id, rfl⟩
  names t id := by
    have hintern : (crowdedDataset n).lftjInternTerm t = .ok (crowdedIntern t) := rfl
    have hdecode : (crowdedDataset n).lftjDecodeTerm id = .ok (crowdedDecode id) := rfl
    rw [hintern, hdecode, Except.ok.injEq, Except.ok.injEq]
    exact crowdedIntern_iff t id

theorem crowded_upToDate : UpToDate (crowdedIndex n) (crowdedDataset n) (crowdedQuads n).toFinset where
  entered q hq _ p o hp ho := by
    have ho : crowdedIntern q.object = some o := Except.ok.inj ho
    rcases mem_cons.mp (mem_toFinset.mp hq) with rfl | hmem
    · rw [crowdedIntern_runOf] at ho
      cases hp
      cases ho
      exact mem_append_right _ mem_cons_self
    · obtain ⟨i, hi, rfl⟩ := mem_map.mp hmem
      rw [crowdedIntern_runOf] at ho
      cases hp
      cases ho
      exact mem_append_left _ (mem_map_of_mem hi)
  literals document hdocument t ht := by
    have htext : ∃ k, document.2 = k + 2 := by
      rcases mem_append.mp hdocument with hmem | hmem
      · obtain ⟨i, -, rfl⟩ := mem_map.mp hmem
        exact ⟨i + 1, rfl⟩
      · rw [mem_singleton.mp hmem]
        exact ⟨0, rfl⟩
    obtain ⟨k, hk⟩ := htext
    have ht : crowdedDecode document.2 = some t := Except.ok.inj ht
    rw [hk, crowdedDecode] at ht
    cases ht
    rfl

/-- Named predicates are not read past. -/
theorem not_misread_of_named {μ : Mapping} : ∀ {patterns : List TriplePattern} {before : List Variable},
    (∀ tp ∈ patterns, ∃ p, tp.predicate = .namedNode p) → ¬Misread before patterns μ
  | [], _, _ => nofun
  | tp :: rest, before, h => by
    obtain ⟨⟨p, hp⟩, hrest⟩ := forall_mem_cons.mp h
    rintro (⟨v, t, hv, -⟩ | hmis)
    · rw [hp] at hv
      cases hv
    · exact not_misread_of_named hrest hmis

theorem crowded_answersRight {patterns : List TriplePattern}
    (h : ∀ tp ∈ patterns, ∃ p, tp.predicate = .namedNode p) :
    AnswersRight (crowdedDataset n) .new (crowdedQuads n).toFinset .default patterns := by
  have hserves := (crowdedStore n).serves
  exact answersRight_nested ⟨hserves.answers, hserves.stored⟩ rfl (fun μ _ _ => not_misread_of_named h)
    fun _ _ _ _ _ => trivial

theorem objectOfP_right : AnswersRight (crowdedDataset n) (crowdedOptions n).query
    (crowdedQuads n).toFinset .default
    [objectOfP] := by
  refine crowded_answersRight n fun tp htp => ?_
  rw [mem_singleton.mp htp]
  exact ⟨_, rfl⟩

theorem objectOfP_bound_right (t : Term) : AnswersRight (crowdedDataset n) (crowdedOptions n).query
    (crowdedQuads n).toFinset .default ([objectOfP].map (substituteVarInTriplePattern ⟨"o"⟩ t)) := by
  refine crowded_answersRight n fun tp htp => ?_
  rw [mem_singleton.mp htp]
  exact ⟨_, rfl⟩

theorem crowded_predicateId : textPredicateId (crowdedDataset n) ⟨"o"⟩ [objectOfP] = .ok (some 0) := rfl

theorem asked_p (query : String) : (crowdedIndex n).asked query (some 0) = [(0, 2)] := by
  have hq : ((List.range n).map fun i =>
      (1, i + 3)).filter (TextIndex.wants (crowdedIndex n).hit query (some 0)) = [] := by
    refine filter_eq_nil_iff.mpr fun document hdocument => ?_
    obtain ⟨i, -, rfl⟩ := mem_map.mp hdocument
    nofun
  rw [TextIndex.asked, crowdedIndex, filter_append]
  exact congrArg (· ++ [(0, 2)]) hq

/-- Where the objects of `q` take the limit up, the object of `p` is cut off. -/
theorem rankedSearch_crowded (query : String) :
    rankedSearch n (crowdedIndex n) query none = (List.range n).map fun i => i + 3 := by
  have hasked : (crowdedIndex n).asked query none = (crowdedIndex n).documents :=
    filter_eq_self.mpr fun _ _ => rfl
  rw [rankedSearch, hasked, crowdedIndex, map_append, map_map]
  exact take_left' (by rw [length_map, length_range])

/-- The row of `s p ?o`. -/
def emptyText : Mapping := fun w => if w = ⟨"o"⟩ then some (runOf 0) else none

theorem emptyText_solves : Solves (crowdedQuads n).toFinset .default [objectOfP] emptyText := by
  refine ⟨fun w => ?_, fun tp htp => ?_⟩
  · have hvars : bgpVars [objectOfP] = [⟨"o"⟩] := rfl
    rw [hvars, mem_singleton, emptyText]
    split
    · next hw => exact iff_of_true rfl hw
    · next hw => exact iff_of_false nofun hw
  · rw [mem_singleton.mp htp]
    refine ⟨⟨.namedNode ⟨"s"⟩, ⟨"p"⟩, runOf 0, .defaultGraph⟩, ?_, rfl, rfl, rfl⟩
    exact Finset.mem_filter.mpr ⟨mem_toFinset.mpr mem_cons_self, rfl⟩

/-- The search under `p` finds the empty text, and the search of the whole index does not. -/
theorem crowded_not_same (hn : defaultTextSearchLimit = n) :
    ¬SameRows (tryTextSearchPushdown (crowdedOptions n) (crowdedDataset n) textFilter (.bgp [objectOfP]) .default)
      (scalarRows (crowdedOptions n) (crowdedDataset n) [objectOfP] ⟨"o"⟩ "a*" .query .default) := by
  have hcall : textSearchCall textFilter = some (⟨"o"⟩, "a*", .query) := by decide
  have hany : ([objectOfP].any fun tp => tp.object = .var ⟨"o"⟩) = true := by decide
  have hsearch := searchesUpTo_ranked defaultTextSearchLimit (crowdedIndex n)
  rw [sameRows_iff (crowded_names n) (crowded_upToDate n) hsearch rfl hcall hany (objectOfP_right n)
    (fun t _ => objectOfP_bound_right n t) (crowded_predicateId n)]
  intro halike
  have htext : emptyText ⟨"o"⟩ = some (runOf 0) := if_pos rfl
  have hid : (crowdedDataset n).lftjInternTerm (runOf 0) = .ok (some 2) :=
    congrArg Except.ok (crowdedIntern_runOf 0)
  have hhere : 2 ∈ rankedSearch defaultTextSearchLimit (crowdedIndex n) "a*" (some 0) := by
    rw [rankedSearch, asked_p]
    exact mem_cons_self
  obtain ⟨t, id, ht, -, hintern, hin⟩ :=
    (halike emptyText (emptyText_solves n)).mp ⟨runOf 0, 2, htext, rfl, hid, hhere⟩
  cases ht
  cases hintern
  have hthere : 2 ∈ rankedSearch defaultTextSearchLimit (crowdedIndex n) "a*" none := hin
  rw [hn, rankedSearch_crowded] at hthere
  obtain ⟨i, -, hi⟩ := mem_map.mp hthere
  omega

end Crowded

/-! ## The LOUDS store -/

/-- In the LOUDS store ids and terms name each other. -/
theorem namesTerms_louds {D : Type} {A : DictApi D} {Knows : D → Names → Prop} {CompactOk : Names → Prop}
    (I : Implements A Knows CompactOk) {n : Names} {s : LoudsStore D} (h : s.Inv Knows n)
    (shapes : GraphRing → PhysicalShape → Option (List (List Nat))) :
    NamesTerms (storeDataset (LoudsStore.quadStore A shapes s)) := by
  have hintern : ∀ t, (storeDataset (LoudsStore.quadStore A shapes s)).lftjInternTerm t =
      (n.getId t).map fun id => id.map TermId.asU64 := by
    intro t
    show (do return (← A.getId s.dict t).map TermId.asU64 : Except Panic (Option Nat)) = _
    rw [I.getId _ _ _ h.knows]
    rfl
  have hdecode : ∀ id, (storeDataset (LoudsStore.quadStore A shapes s)).lftjDecodeTerm id =
      .ok ((TermId.new id).toOption.bind n.term) := by
    intro id
    show (LoudsStore.quadStore A shapes s).lftjDecodeTerm id = _
    simp only [LoudsStore.quadStore]
    rcases TermId.new id with e | tid
    · rfl
    · obtain ⟨d, harc, -⟩ := I.getTermArc s.dict n tid h.knows
      simp only [harc]
      rfl
  refine ⟨fun t ht => ?_, fun id => ⟨_, hdecode id⟩, fun t id => ?_⟩
  · rcases n.getId_cases t with hr | ⟨hnone, -, p, hr⟩
    · exact ⟨_, by rw [hintern, hr]; rfl⟩
    · rw [Names.getId, hnone, ht] at hr
      cases hr
  · have hterm : (TermId.new id).toOption.bind n.term = some t ↔
      ∃ tid, n.termId t = some tid ∧ tid.asU64 = id := by
      constructor
      · intro hid
        obtain ⟨tid, hnew, hname⟩ := Option.bind_eq_some_iff.mp hid
        rcases hok : TermId.new id with e | tid'
        · rw [hok] at hnew
          cases hnew
        · rw [hok] at hnew
          cases hnew
          exact ⟨tid, Names.termId_eq_some.mpr hname, TermId.new_eq_ok hok⟩
      · rintro ⟨tid, hname, rfl⟩
        rw [TermId.new_asU64]
        exact Names.termId_eq_some.mp hname
    rw [hintern, hdecode, Except.ok.injEq, hterm]
    rcases n.getId_cases t with hr | ⟨hnone, -, p, hr⟩
    · rw [hr]
      simp [Except.map]
    · rw [hr, hnone]
      refine iff_of_false (fun hok => by cases hok) ?_
      rintro ⟨_, hid, -⟩
      cases hid

section Texts

open LoudsStore Dictionary DictCompact

/-- A literal that has been compacted, and a link of another predicate that is pending. -/
def textCalls : List Call :=
  [.insert (sampleQuad "a"), .compact,
    .insert ⟨.namedNode ⟨"http://ex/s"⟩, ⟨"http://ex/q"⟩, .namedNode ⟨"http://ex/o"⟩, .defaultGraph⟩]

def textDataset : Dataset :=
  storeDataset (quadStore (api sourceBlockSize) (fun _ _ => none)
    (Machine.run (call (api sourceBlockSize)) (openNew sourceBlockSize none) textCalls).2)

def textQuads : Finset Quad := (textCalls.flatMap Call.writes).foldl Spec.applyPlain ∅

/-- The compaction has entered the one literal. -/
def textIndex : TextIndex := ⟨[(1, 2)], fun _ _ => true⟩

def textOptions : EvalOptions := ⟨.new, false, none, some (rankedSearch defaultTextSearchLimit textIndex)⟩

/-- `<s> <p> ?o`. -/
def sampleObjects : TriplePattern := ⟨.namedNode ⟨"http://ex/s"⟩, .namedNode ⟨"http://ex/p"⟩, .var ⟨"o"⟩⟩

theorem textCalls_holds : Holds (Dictionary.Knows sourceBlockSize)
    (Machine.run (call (api sourceBlockSize)) (openNew sourceBlockSize none) textCalls).2
    (Machine.run Spec.call .empty textCalls).2 := by
  have hmeets : Machine.Meets (call (api sourceBlockSize)) (fun s c =>
      Machine.BatchMeets (applyOne (api sourceBlockSize)) (fun s w => WriteOk s.dict w) s c.writes ∧
        (stepCompactsAt (api sourceBlockSize) s (.call c)).all (fitsBlock sourceBlockSize) = true)
      (openNew sourceBlockSize none) textCalls := by
    decide +kernel
  exact (run_holds (by decide) none (hmeets.imp fun s c hc => callOk_of_fitsBlock hc)).2

theorem text_answersRight {patterns : List TriplePattern} (h : ∀ tp ∈ patterns, tp.isQuoted = false ∧
    ∃ p, tp.predicate = .namedNode p) : AnswersRight textDataset .new textQuads .default patterns := by
  obtain ⟨n, hinv, hlive⟩ := textCalls_holds.live_iff
  have hquads : (Machine.run Spec.call .empty textCalls).2.quads = textQuads := by decide +kernel
  rw [hquads] at hlive
  refine answersRight_nested (serves (fun _ _ => none) (implements (by decide)) hinv fun q => (hlive q).symm)
    (by decide +kernel) (fun μ _ _ => not_misread_of_named fun tp htp => (h tp htp).2) ?_
  intro tp htp hquoted
  rw [(h tp htp).1] at hquoted
  cases hquoted

theorem text_upToDate : UpToDate textIndex textDataset textQuads where
  entered := by
    have hids : ∀ q ∈ textQuads, Term.isLiteral q.object = true →
        textDataset.lftjInternTerm (.namedNode q.predicate) = .ok (some 1) ∧
          textDataset.lftjInternTerm q.object = .ok (some 2) := by
      decide +kernel
    intro q hq hlit p o hp ho
    obtain ⟨hp', ho'⟩ := hids q hq hlit
    rw [hp'] at hp
    rw [ho'] at ho
    cases hp
    cases ho
    exact mem_cons_self
  literals document hdocument t ht := by
    have hlit : (textDataset.lftjDecodeTerm 2).map (Option.all Term.isLiteral) = .ok true := by decide +kernel
    rw [mem_singleton.mp hdocument] at ht
    rw [ht] at hlit
    exact Except.ok.inj hlit

/-- Fewer hits than the limit. -/
theorem pushed_rows_few :
    SameRows (tryTextSearchPushdown textOptions textDataset textFilter (.bgp [sampleObjects]) .default)
      (scalarRows textOptions textDataset [sampleObjects] ⟨"o"⟩ "a*" .query .default) := by
  have hcall : textSearchCall textFilter = some (⟨"o"⟩, "a*", .query) := by decide
  have hany : ([sampleObjects].any fun tp => tp.object = .var ⟨"o"⟩) = true := by decide
  obtain ⟨n, hinv, -⟩ := textCalls_holds.live_iff
  have hnames : NamesTerms textDataset := namesTerms_louds (implements (by decide)) hinv _
  have hright : AnswersRight textDataset textOptions.query textQuads .default [sampleObjects] :=
    text_answersRight (by simp [sampleObjects, TriplePattern.isQuoted, TermPattern.isQuoted])
  obtain ⟨_, _, _, hfew⟩ := pushed_rows_iff hnames text_upToDate (searchesUpTo_ranked _ _) rfl hcall hany hright
    fun t ht => text_answersRight (by
      cases t <;> simp_all [sampleObjects, substituteVarInTriplePattern, substituteVarInTermPattern,
        termPatternOf, TriplePattern.isQuoted, TermPattern.isQuoted, Term.isLiteral])
  exact hfew (by decide)

end Texts

/-- As many objects of `q` as the limit has places, ranked before the object of `p`: the
pushed filter finds it, and the test does not. -/
theorem pushed_rows_crowded :
    SearchesUpTo defaultTextSearchLimit (crowdedIndex defaultTextSearchLimit)
        (rankedSearch defaultTextSearchLimit (crowdedIndex defaultTextSearchLimit)) ∧
      UpToDate (crowdedIndex defaultTextSearchLimit) (crowdedDataset defaultTextSearchLimit)
        (crowdedQuads defaultTextSearchLimit).toFinset ∧
      textSearchCall textFilter = some (⟨"o"⟩, "a*", .query) ∧
      ¬SameRows
        (tryTextSearchPushdown (crowdedOptions defaultTextSearchLimit)
          (crowdedDataset defaultTextSearchLimit) textFilter
          (.bgp [objectOfP]) .default)
        (scalarRows (crowdedOptions defaultTextSearchLimit) (crowdedDataset defaultTextSearchLimit) [objectOfP] ⟨"o"⟩ "a*"
          .query .default) := by
  refine ⟨searchesUpTo_ranked _ _, crowded_upToDate _, by decide, ?_⟩
  exact crowded_not_same _ rfl

end Eval

end Nova
