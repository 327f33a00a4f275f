import Nova.Query.Eval
import Nova.Query.PathMeaning

/-!
# Blank node labels in a group

In a group graph pattern a blank node label stands for one variable. The matchers of
the BGP, plain and for quoted triples, use `__bn_<label>` (`evalBgpNested_asVars`);
the matcher of paths uses `__bnp_<label>`. Labels of triple patterns and labels of
path patterns are therefore joined among themselves, but not with each other.

`oneVariable` is the group in which the ends of paths use the variable of the triple
patterns. Where no label stands both in a triple pattern and in a path pattern the
two groups have the same solutions, up to the names of the variables of labels:
`labels_act_as_variables`.
-/

namespace Nova

open Nova.Lib List Solution

/-! ## Renamed solutions -/

variable {sol : Solution} {W : Set Variable} {v : Variable} {r : Variable → Variable}

namespace Solution

def rename (r : Variable → Variable) (sol : Solution) : Solution where
  vars := sol.vars.map r
  values := sol.values
  length_eq := by rw [List.length_map, sol.length_eq]

/-- The header has these variables only. -/
def Within (sol : Solution) (W : Set Variable) : Prop := ∀ v ∈ sol.vars, v ∈ W

theorem within_new (W : Set Variable) : new.Within W := nofun

theorem Within.mono {W' : Set Variable} (h : sol.Within W) (hsub : W ⊆ W') :
    sol.Within W' := fun v hv => hsub (h v hv)

theorem Within.insert (h : sol.Within W) (hv : v ∈ W) (t : Term) : (sol.insert v t).Within W := by
  intro w hw
  unfold Solution.insert at hw
  split at hw
  · exact h w hw
  · rcases mem_append.mp hw with hw | hw
    · exact h w hw
    · rw [mem_singleton.mp hw]
      exact hv

theorem Within.iter (h : sol.Within W) : ∀ cell ∈ sol.iter, cell.1 ∈ W := by
  intro cell hcell
  rcases mem_filterMap.mp hcell with ⟨⟨v, t⟩, hz, heq⟩
  rcases Option.map_eq_some_iff.mp heq with ⟨u, _, rfl⟩
  exact h v (of_mem_zip hz).1

theorem rename_eq_self (h : ∀ v ∈ sol.vars, r v = v) : sol.rename r = sol := by
  rcases sol with ⟨vars, values, hlen⟩
  simp only [rename, mk.injEq, and_true]
  exact (map_congr_left h).trans (map_id' vars)

theorem rename_rename (r r' : Variable → Variable) (sol : Solution) :
    (sol.rename r).rename r' = sol.rename (r' ∘ r) := by
  simp [rename]

@[simp] theorem rename_new (r : Variable → Variable) : new.rename r = new := rfl

section Injective

variable {r : Variable → Variable} {W : Set Variable} (hr : Set.InjOn r W)

include hr

theorem positionIn_map {vars : List Variable} (hvars : ∀ v ∈ vars, v ∈ W) (hv : v ∈ W) :
    positionIn (vars.map r) (r v) = positionIn vars v := by
  induction vars with
  | nil => rfl
  | cons w vars ih =>
    rcases forall_mem_cons.mp hvars with ⟨hw, hrest⟩
    have hiff : r w = r v ↔ w = v := ⟨fun heq => hr hw hv heq, fun heq => by rw [heq]⟩
    have ih := ih hrest
    unfold positionIn at ih ⊢
    rw [map_cons, findIdx?_cons, findIdx?_cons, ih]
    simp only [hiff]

theorem get_rename (h : sol.Within W) (hv : v ∈ W) : (sol.rename r).get (r v) = sol.get v := by
  unfold get
  rw [show (sol.rename r).vars = sol.vars.map r from rfl, positionIn_map hr h hv]
  rfl

theorem rename_insert (h : sol.Within W) (hv : v ∈ W) (t : Term) :
    (sol.rename r).insert (r v) t = (sol.insert v t).rename r := by
  have hpos : positionIn (sol.rename r).vars (r v) = positionIn sol.vars v := positionIn_map hr h hv
  unfold insert
  cases hp : positionIn sol.vars v with
  | some i =>
    rw [hp] at hpos
    simp only [hpos]
    rfl
  | none =>
    rw [hp] at hpos
    simp only [hpos]
    simp [rename]

omit hr in
theorem iter_rename (sol : Solution) :
    (sol.rename r).iter = sol.iter.map fun cell => (r cell.1, cell.2) := by
  unfold iter rename
  rw [map_filterMap, zip_map_left, filterMap_map]
  refine filterMap_congr fun cell _ => ?_
  simp only [Function.comp_apply, Prod.map_fst, Prod.map_snd, id_eq, Option.map_map]
  rfl

theorem foldl_insert_rename : ∀ {cells : List (Variable × Term)} {sol : Solution}, sol.Within W →
    (∀ cell ∈ cells, cell.1 ∈ W) →
    (cells.map fun cell => (r cell.1, cell.2)).foldl (fun m cell => m.insert cell.1 cell.2) (sol.rename r) =
      (cells.foldl (fun m cell => m.insert cell.1 cell.2) sol).rename r := by
  intro cells
  induction cells with
  | nil => exact fun _ _ => rfl
  | cons cell cells ih =>
    intro sol h hcells
    have hcell := hcells cell mem_cons_self
    rw [map_cons, foldl_cons, foldl_cons, rename_insert hr h hcell]
    exact ih (h.insert hcell _) fun c hc => hcells c (mem_cons_of_mem _ hc)

theorem rename_injOn : Set.InjOn (rename r) {sol | sol.Within W} := by
  intro a ha b hb heq
  have : Nonempty Variable := ⟨⟨""⟩⟩
  have hback : ∀ sol : Solution, sol.Within W → (sol.rename r).rename (Function.invFunOn r W) = sol := by
    intro sol hsol
    rw [rename_rename]
    exact rename_eq_self fun v hv => hr.leftInvOn_invFunOn (hsol v hv)
  rw [← hback a ha, heq, hback b hb]

theorem mergeCompatible_rename {other : Solution} (h : sol.Within W) (h' : other.Within W) :
    (sol.rename r).mergeCompatible (other.rename r) = (sol.mergeCompatible other).map (rename r) := by
  unfold mergeCompatible
  have hagree : ((other.rename r).iter.all fun cell => ((sol.rename r).get cell.1).all fun t => t = cell.2) =
      other.iter.all fun cell => (sol.get cell.1).all fun t => t = cell.2 := by
    rw [iter_rename, all_map, Bool.eq_iff_iff, all_eq_true, all_eq_true]
    refine forall₂_congr fun cell hcell => ?_
    rw [Function.comp_apply, get_rename hr h (h'.iter cell hcell)]
  rw [hagree]
  by_cases hall : (other.iter.all fun cell => (sol.get cell.1).all fun t => t = cell.2) = true
  · rw [if_pos hall, if_pos hall, iter_rename, foldl_insert_rename hr h h'.iter]
    rfl
  · rw [if_neg hall, if_neg hall]
    rfl

end Injective

theorem kept_within : Kept W (Solution.Within · W) := fun h hv t => h.insert hv t

theorem within_mergeCompatible {other merged : Solution} (h : sol.Within W)
    (h' : other.Within W) (hm : sol.mergeCompatible other = some merged) : merged.Within W :=
  kept_within.mergeCompatible h h'.iter hm

end Solution

/-! ## The headers of the solutions of a BGP -/

variable {sol' : Solution}

variable {tp : TermPattern}
variable {graph : GraphSelector} {ds : Dataset}

variable {patterns : List TriplePattern}

variable {sols : List Solution}

namespace Lftj

theorem within_collectJoinVars (patterns : List TriplePattern) :
    ∀ v ∈ collectJoinVars patterns, v ∈ bgpVars patterns := by
  intro v hv
  rcases mem_flatMap.mp (mem_firsts.mp hv) with ⟨tp, htp, hv⟩
  refine mem_flatMap.mpr ⟨tp, htp, ?_⟩
  rcases tp with ⟨s, p, o⟩
  rcases mem_append.mp hv with hv | hv
  · rcases mem_append.mp hv with hv | hv
    · refine mem_append_left _ (mem_append_left _ ?_)
      cases s with
      | var w => exact hv
      | _ => cases hv
    · exact mem_append_left _ (mem_append_right _ hv)
  · refine mem_append_right _ ?_
    cases o with
    | var w => exact hv
    | _ => cases hv

variable {joinVars : List Variable}

theorem emitRow_vars {bindings : Bindings}
    (h : emitRow ds joinVars bindings = .ok sol) : sol.vars = joinVars := by
  rcases bind_ok h with ⟨values, _, hr⟩
  cases hr
  rfl

theorem emitCorners_vars {plan : Shapes.ShapePlan} {ids : List Nat}
    (h : emitCorners ds joinVars plan ids = .ok (some sol)) : sol.vars = joinVars := by
  unfold emitCorners at h
  split at h
  · cases h
  · rcases bind_ok h with ⟨row, hrow, h⟩
    rcases bind_ok h with ⟨decoded, _, h⟩
    split at h
    · cases h
      exact emitRow_vars hrow
    · cases h

theorem evalShape_vars
    {plan : Shapes.ShapePlan} (h : evalShape ds joinVars graph plan = .ok sols) :
    ∀ sol ∈ sols, sol.vars = joinVars := by
  intro sol hsol
  rcases bind_ok h with ⟨rows, hrows, hr⟩
  cases hr
  rcases mem_filterMap.mp hsol with ⟨row, hrow, rfl⟩
  rcases (mapM_ok_inv hrows).2 _ hrow with ⟨ids, _, hids⟩
  exact emitCorners_vars hids

theorem evalBgpLftjGraph_vars
    (h : evalBgpLftjGraph ds patterns graph = .ok (some sols)) :
    ∀ sol ∈ sols, sol.vars = collectJoinVars patterns := by
  intro sol hsol
  unfold evalBgpLftjGraph at h
  split at h
  · next hempty =>
    cases h
    rw [mem_singleton.mp hsol, List.isEmpty_iff.mp hempty]
    rfl
  · dsimp only at h
    split at h
    · cases h
    · cases h
      exact absurd hsol not_mem_nil
    · cases h
    · split at h
      -- a shape
      · exact evalShape_vars (ok_of_mapError (ok_of_map (Option.some_injective _) h)) sol hsol
      -- the generic join
      · rcases (mapM_ok_inv (ok_of_mapError (ok_of_map (Option.some_injective _) h))).2 _ hsol with
          ⟨bindings, _, hrow⟩
        exact emitRow_vars hrow

/-- What holds of the solutions over each graph holds of those over several. -/
theorem evalGraphs_forall {Q : Solution → Prop}
    (hgraph : ∀ graph sols, evalBgpLftjGraph ds patterns graph = .ok (some sols) → ∀ sol ∈ sols, Q sol) :
    ∀ {graphs : List GraphSelector} {sols : List Solution}, evalGraphs ds patterns graphs = .ok (some sols) →
      ∀ sol ∈ sols, Q sol := by
  intro graphs
  induction graphs with
  | nil =>
    intro sols h sol hsol
    cases h
    exact absurd hsol not_mem_nil
  | cons graph rest ih =>
    intro sols h sol hsol
    rcases bind_ok h with ⟨now, hnow, h⟩
    cases now with
    | none => cases h
    | some now =>
      rcases bind_ok h with ⟨next, hnext, h⟩
      cases next with
      | none => cases h
      | some next =>
        cases h
        rcases mem_append.mp hsol with hsol | hsol
        · exact hgraph graph now hnow sol hsol
        · exact ih hnext sol hsol

theorem evalBgpLftj_forall {Q : Solution → Prop}
    (hgraph : ∀ graph sols, evalBgpLftjGraph ds patterns graph = .ok (some sols) → ∀ sol ∈ sols, Q sol)
    (h : evalBgpLftj ds patterns graph = .ok (some sols)) : ∀ sol ∈ sols, Q sol := by
  have hmulti : ∀ includeDefault, evalBgpLftjMultiGraph ds patterns includeDefault = .ok (some sols) →
      ∀ sol ∈ sols, Q sol := by
    intro includeDefault h
    unfold evalBgpLftjMultiGraph at h
    split at h
    · cases h
    · cases h
    · exact evalGraphs_forall hgraph h
  unfold evalBgpLftj at h
  split at h
  · cases h
  · cases graph with
    | default => exact hgraph _ _ h
    | named g => exact hgraph _ _ h
    | anyNamed => exact hmulti false h
    | union => exact hmulti true h
    | unionOf gs => cases h

theorem evalBgpLftj_vars (h : evalBgpLftj ds patterns graph = .ok (some sols)) :
    ∀ sol ∈ sols, sol.vars = collectJoinVars patterns :=
  evalBgpLftj_forall (fun _ _ hgraph => evalBgpLftjGraph_vars hgraph) h

end Lftj

theorem within_evalBgp {options : QueryOptions} (h : evalBgp ds options patterns graph = .ok sols) :
    ∀ sol ∈ sols, sol.Within {v | v ∈ bgpVars patterns} := by
  rcases bind_ok h with ⟨joined, hjoined, h⟩
  cases joined with
  | some found =>
    cases h
    intro sol hsol v hv
    rw [Lftj.evalBgpLftj_vars hjoined sol hsol] at hv
    exact Lftj.within_collectJoinVars patterns v hv
  | none =>
    refine kept_within.evalPatterns (fun v hv => hv) ?_ h
    intro sol hsol
    rw [mem_singleton.mp hsol]
    exact within_new _

/-! ## Labels and their variables -/

/-- The blank node labels of a pattern. -/
def TermPattern.labels : TermPattern → List BlankNode
  | .blankNode b => [b]
  | .triple s _ o => s.labels ++ o.labels
  | _ => []

/-- The variables of a pattern that are written as such. -/
def TermPattern.ordinaryVars : TermPattern → List Variable
  | .var v => [v]
  | .triple s p o => s.ordinaryVars ++ p.vars ++ o.ordinaryVars
  | _ => []

/-- The pattern with the variable of each label in its place. -/
def TermPattern.asVars : TermPattern → TermPattern
  | .blankNode b => .var (bnodeVar b)
  | .triple s p o => .triple s.asVars p o.asVars
  | tp => tp

namespace TriplePattern

def labels (tp : TriplePattern) : List BlankNode := tp.subject.labels ++ tp.object.labels

def ordinaryVars (tp : TriplePattern) : List Variable :=
  tp.subject.ordinaryVars ++ tp.predicate.vars ++ tp.object.ordinaryVars

def asVars (tp : TriplePattern) : TriplePattern := ⟨tp.subject.asVars, tp.predicate, tp.object.asVars⟩

end TriplePattern

theorem TermPattern.mem_vars (hv : v ∈ tp.vars) : v ∈ tp.ordinaryVars ∨ ∃ b ∈ tp.labels, v = bnodeVar b := by
  induction tp with
  | namedNode n => exact absurd hv not_mem_nil
  | literal l => exact absurd hv not_mem_nil
  | blankNode b => exact .inr ⟨b, mem_cons_self, mem_singleton.mp hv⟩
  | var w => exact .inl hv
  | triple s p o ihs iho =>
    simp only [TermPattern.vars, ordinaryVars, labels, mem_append] at hv ⊢
    rcases hv with (hv | hv) | hv
    · rcases ihs hv with h | ⟨b, hb, rfl⟩
      · exact .inl (.inl (.inl h))
      · exact .inr ⟨b, .inl hb, rfl⟩
    · exact .inl (.inl (.inr hv))
    · rcases iho hv with h | ⟨b, hb, rfl⟩
      · exact .inl (.inr h)
      · exact .inr ⟨b, .inr hb, rfl⟩

theorem TriplePattern.mem_vars {tp : TriplePattern} (hv : v ∈ tp.vars) :
    v ∈ tp.ordinaryVars ∨ ∃ b ∈ tp.labels, v = bnodeVar b := by
  simp only [TriplePattern.vars, ordinaryVars, labels, mem_append] at hv ⊢
  rcases hv with (hv | hv) | hv
  · rcases TermPattern.mem_vars hv with h | ⟨b, hb, rfl⟩
    · exact .inl (.inl (.inl h))
    · exact .inr ⟨b, .inl hb, rfl⟩
  · exact .inl (.inl (.inr hv))
  · rcases TermPattern.mem_vars hv with h | ⟨b, hb, rfl⟩
    · exact .inl (.inr h)
    · exact .inr ⟨b, .inr hb, rfl⟩

/-! ## Triple patterns

The binders of the BGP treat a label as they treat its variable. -/

theorem termPatternWithSol_asVars (tp : TermPattern) (sol : Solution) :
    termPatternWithSol tp.asVars sol = termPatternWithSol tp sol := by
  cases tp <;> rfl

theorem bindTermPattern_asVars (tp : TermPattern) :
    ∀ sol t, bindTermPattern sol tp.asVars t = bindTermPattern sol tp t := by
  induction tp with
  | triple s p o ihs iho =>
    intro sol t
    cases t with
    | triple s' p' o' => simp only [TermPattern.asVars, bindTermPattern, ihs, iho]
    | _ => rfl
  | _ => exact fun _ _ => rfl

theorem bindQuoted_asVars (sol : Solution) (tp : TermPattern) (t : Term) :
    bindQuoted sol tp.asVars t = bindQuoted sol tp t := by
  cases tp with
  | triple s p o => exact bindTermPattern_asVars (.triple s p o) sol t
  | _ => rfl

theorem extendAll_asVars (ds : Dataset) (graph : GraphSelector) (tp : TriplePattern) (sols : List Solution) :
    extendAll ds graph tp.asVars sols = extendAll ds graph tp sols := by
  have hone : extendSolution ds graph tp.asVars = extendSolution ds graph tp := by
    funext sol
    have hlookup : lookupPattern tp.asVars sol graph = lookupPattern tp sol graph := by
      simp only [lookupPattern, TriplePattern.asVars, termPatternWithSol_asVars]
    have hbind : bindMatch tp.asVars sol = bindMatch tp sol := by
      funext q
      simp only [bindMatch, TriplePattern.asVars, termPatternWithSol_asVars, bindQuoted_asVars]
    rw [extendSolution, extendSolution, hlookup, hbind]
  induction sols with
  | nil => rfl
  | cons sol rest ih => rw [extendAll, extendAll, hone, ih]

theorem evalBgpNested_asVars (ds : Dataset) (options : QueryOptions) (patterns : List TriplePattern)
    (graph : GraphSelector) :
    evalBgpNested ds options (patterns.map TriplePattern.asVars) graph = evalBgpNested ds options patterns graph := by
  unfold evalBgpNested
  generalize [Solution.new] = sols
  induction patterns generalizing sols with
  | nil => rfl
  | cons tp rest ih =>
    rw [map_cons, evalPatterns, evalPatterns, extendAll_asVars]
    simp only [ih]

/-! ## Path patterns -/

theorem bindVariable_rename (hr : Set.InjOn r W) (h : sol.Within W) (hv : v ∈ W) (t : Term) :
    bindVariable (sol.rename r) (r v) t = (bindVariable sol v t).map (Solution.rename r) := by
  unfold bindVariable
  rw [get_rename hr h hv]
  cases sol.get v with
  | none => exact congrArg some (rename_insert hr h hv t)
  | some existing =>
    dsimp only
    split <;> rfl

variable {s o : TermPattern}

namespace Path

/-- The label at an end; a quoted triple there matches nothing. -/
def endLabels : TermPattern → List BlankNode
  | .blankNode b => [b]
  | _ => []

def endOrdinaryVars : TermPattern → List Variable
  | .var v => [v]
  | _ => []

/-- The variables that the matcher of paths binds. -/
def endVars (tp : TermPattern) : List Variable := endOrdinaryVars tp ++ (endLabels tp).map bnodePathVar

/-- The renaming takes the variable that the matcher of paths has for an end to the
one of the triple patterns. -/
def Unifies (r : Variable → Variable) (tp : TermPattern) : Prop :=
  (∀ v ∈ endOrdinaryVars tp, r v = v) ∧ ∀ b ∈ endLabels tp, r (bnodePathVar b) = bnodeVar b

section Rename

variable {r : Variable → Variable} {W : Set Variable}

theorem within_matchTermPattern (hv : ∀ v ∈ endVars tp, v ∈ W)
    {t : Term} (h : sol.Within W) (hm : matchTermPattern tp t sol = some sol') : sol'.Within W := by
  cases tp with
  | namedNode n => exact kept_guard (P := (Solution.Within · W)) h hm
  | literal l => exact kept_guard (P := (Solution.Within · W)) h hm
  | blankNode b => exact kept_within.bindVariable h (hv _ mem_cons_self) hm
  | var v => exact kept_within.bindVariable h (hv _ mem_cons_self) hm
  | triple s p o => cases hm

theorem within_matchPair (hs : ∀ v ∈ endVars s, v ∈ W) (ho : ∀ v ∈ endVars o, v ∈ W)
    {pair : TermPair} (hm : matchPair s o pair = some sol) : sol.Within W := by
  rcases Option.bind_eq_some_iff.mp hm with ⟨first, hfirst, hm⟩
  exact within_matchTermPattern ho (within_matchTermPattern hs (within_new W) hfirst) hm

variable (hr : Set.InjOn r W)

include hr

theorem matchTermPattern_rename (hv : ∀ v ∈ endVars tp, v ∈ W) (hu : Unifies r tp)
    (h : sol.Within W) (t : Term) :
    matchTermPattern tp.asVars t (sol.rename r) = (matchTermPattern tp t sol).map (Solution.rename r) := by
  cases tp with
  | namedNode n =>
    simp only [matchTermPattern, TermPattern.asVars]
    split <;> rfl
  | literal l =>
    simp only [matchTermPattern, TermPattern.asVars]
    split <;> rfl
  | blankNode b =>
    have hb := bindVariable_rename hr h (hv _ mem_cons_self) t
    rw [hu.2 b mem_cons_self] at hb
    exact hb
  | var v =>
    have hb := bindVariable_rename hr h (hv _ mem_cons_self) t
    rw [hu.1 v mem_cons_self] at hb
    exact hb
  | triple s p o => rfl

theorem matchPair_rename (hs : ∀ v ∈ endVars s, v ∈ W) (ho : ∀ v ∈ endVars o, v ∈ W)
    (hus : Unifies r s) (huo : Unifies r o) (pair : TermPair) :
    matchPair s.asVars o.asVars pair = (matchPair s o pair).map (Solution.rename r) := by
  have hnew := matchTermPattern_rename hr hs hus (within_new W) pair.1
  rw [rename_new] at hnew
  unfold matchPair
  rw [hnew]
  cases hm : matchTermPattern s pair.1 .new with
  | none => rfl
  | some sol =>
    exact matchTermPattern_rename hr ho huo (within_matchTermPattern hs (within_new W) hm) pair.2

end Rename

theorem boundEnd_asVars (tp : TermPattern) : boundEnd tp.asVars = boundEnd tp := by
  cases tp <;> rfl

theorem evalPathPairs_asVars (fp : Term → Nat) (display : Term → String) (fuel : Nat) (ds : Dataset)
    (ag : GraphSelector) (s : TermPattern) (path : PropertyPathExpression) (o : TermPattern) :
    evalPathPairs fp display fuel ds ag s.asVars path o.asVars =
      evalPathPairs fp display fuel ds ag s path o := by
  have hbound : tryBoundPathRing fuel ds ag s.asVars path o.asVars = tryBoundPathRing fuel ds ag s path o := by
    simp only [tryBoundPathRing, boundEnd_asVars]
  have hrpq : tryRpqProductAutomaton fuel ds ag s.asVars path o.asVars =
      tryRpqProductAutomaton fuel ds ag s path o := by
    simp only [tryRpqProductAutomaton, boundEnd_asVars]
  have hends : identityOfEnds display path s.asVars o.asVars = identityOfEnds display path s o := by
    unfold identityOfEnds
    rw [boundEnd_asVars, boundEnd_asVars]
  simp only [evalPathPairs, evalPathGeneric, hbound, hrpq, hends]

end Path

theorem firstsBy_map {α β κ : Type} [DecidableEq κ] {f : α → β} {key : α → κ} {key' : β → κ} :
    ∀ {xs seen : List α}, (∀ a ∈ xs, ∀ b ∈ seen ++ xs, key' (f a) = key' (f b) ↔ key a = key b) →
    firstsBy key' (seen.map (key' ∘ f)) (xs.map f) = (firstsBy key (seen.map key) xs).map f := by
  intro xs
  induction xs with
  | nil => exact fun _ => rfl
  | cons x xs ih =>
    intro seen h
    have hmem : key' (f x) ∈ seen.map (key' ∘ f) ↔ key x ∈ seen.map key := by
      simp only [mem_map, Function.comp_apply]
      refine exists_congr fun b => and_congr_right fun hb => ?_
      have hx := h x mem_cons_self b (mem_append_left _ hb)
      rw [eq_comm, hx, eq_comm]
    rw [map_cons, firstsBy, firstsBy]
    by_cases hx : key x ∈ seen.map key
    · rw [if_pos hx, if_pos (hmem.mpr hx)]
      refine ih fun a ha b hb => h a (mem_cons_of_mem x ha) b ?_
      rcases mem_append.mp hb with hb | hb
      · exact mem_append_left _ hb
      · exact mem_append_right _ (mem_cons_of_mem x hb)
    · rw [if_neg hx, if_neg fun hk => hx (hmem.mp hk), map_cons]
      refine congrArg (f x :: ·) ?_
      have hrest : ∀ a ∈ xs, ∀ b ∈ (x :: seen) ++ xs, key' (f a) = key' (f b) ↔ key a = key b := by
        intro a ha b hb
        refine h a (mem_cons_of_mem x ha) b ?_
        rcases mem_append.mp hb with hb | hb
        · rcases mem_cons.mp hb with rfl | hb
          · exact mem_append_right _ mem_cons_self
          · exact mem_append_left _ hb
        · exact mem_append_right _ (mem_cons_of_mem x hb)
      exact ih hrest

/-! ## Groups -/

namespace GraphPattern

/-- Triple patterns and path patterns, joined in any order: the scope of a label. -/
inductive IsGroup : GraphPattern → Prop where
  | bgp (patterns : List TriplePattern) : IsGroup (.bgp patterns)
  | path (s : TermPattern) (e : PropertyPathExpression) (o : TermPattern) : IsGroup (.path s e o)
  | join {left right : GraphPattern} : IsGroup left → IsGroup right → IsGroup (.join left right)

/-- The BGPs of a group. -/
def bgps : GraphPattern → List (List TriplePattern)
  | .bgp patterns => [patterns]
  | .join left right => left.bgps ++ right.bgps
  | _ => []

/-- The labels of the triple patterns of a group. -/
def tripleLabels : GraphPattern → List BlankNode
  | .bgp patterns => patterns.flatMap TriplePattern.labels
  | .join left right => left.tripleLabels ++ right.tripleLabels
  | _ => []

/-- The labels at the ends of the paths of a group. -/
def pathLabels : GraphPattern → List BlankNode
  | .path s _ o => Path.endLabels s ++ Path.endLabels o
  | .join left right => left.pathLabels ++ right.pathLabels
  | _ => []

def ordinaryVars : GraphPattern → List Variable
  | .bgp patterns => patterns.flatMap TriplePattern.ordinaryVars
  | .path s _ o => Path.endOrdinaryVars s ++ Path.endOrdinaryVars o
  | .join left right => left.ordinaryVars ++ right.ordinaryVars
  | _ => []

/-- The group in which a label at the end of a path is the variable that it is in a
triple pattern. -/
def oneVariable : GraphPattern → GraphPattern
  | .path s e o => .path s.asVars e o.asVars
  | .join left right => .join left.oneVariable right.oneVariable
  | P => P

/-- The variables of the labels at the ends of paths, renamed to those of the triple
patterns. -/
def unify (P : GraphPattern) (v : Variable) : Variable :=
  match P.pathLabels.find? fun b => Path.bnodePathVar b = v with
  | some b => bnodeVar b
  | none => v

end GraphPattern

namespace Eval

section

variable (scalars : Scalars) (options : EvalOptions) (fuel : Nat) (ds : Dataset)

/-- The solutions of a path before those of the same key are dropped. -/
def pathCandidates (ag : GraphSelector) (s : TermPattern) (e : PropertyPathExpression) (o : TermPattern) :
    List Solution :=
  match Path.evalPathPairs scalars.fp scalars.display fuel ds ag s e o with
  | .ok pairs => pairs.filterMap (Path.matchPair s o)
  | .error _ => []

/-- The keys of the solutions of each path are those of different solutions. -/
def KeysApart (ag : GraphSelector) : GraphPattern → Prop
  | .path s e o => ∀ a ∈ pathCandidates scalars fuel ds ag s e o, ∀ b ∈ pathCandidates scalars fuel ds ag s e o,
      scalars.solutionKey a = scalars.solutionKey b → a = b
  | .join left right => KeysApart ag left ∧ KeysApart ag right
  | _ => True

/-- A label is one variable throughout the group: in its BGPs, and in its BGPs and
paths together. -/
def LabelsActAsVariables (P : GraphPattern) (ag : GraphSelector) : Prop :=
  (∀ patterns ∈ P.bgps, evalBgpNested ds options.query (patterns.map TriplePattern.asVars) ag =
    evalBgpNested ds options.query patterns ag) ∧
  evalPattern scalars options fuel ds P.oneVariable ag =
    (evalPattern scalars options fuel ds P ag).map (List.map (Solution.rename P.unify))

end

theorem bnodeVar_injective : Function.Injective bnodeVar := by
  intro a b h
  rcases a with ⟨a⟩
  rcases b with ⟨b⟩
  have h : "__bn_" ++ a = "__bn_" ++ b := congrArg Variable.name h
  rw [(String.append_right_inj _).mp h]

theorem bnodePathVar_ne_bnodeVar (a b : BlankNode) : Path.bnodePathVar a ≠ bnodeVar b := by
  intro h
  have h : "__bnp_" ++ a.id = "__bn_" ++ b.id := congrArg Variable.name h
  have h := congrArg (fun t : String => t.toList[4]?) h
  simp at h

/-! ## The renaming of a group -/

section Group

variable {P : GraphPattern}

theorem unify_bnodePathVar {b : BlankNode} (hb : b ∈ P.pathLabels) : P.unify
    (Path.bnodePathVar b) = bnodeVar b := by
  unfold GraphPattern.unify
  cases hf : P.pathLabels.find? fun b' => Path.bnodePathVar b' = Path.bnodePathVar b with
  | none =>
    have hno := List.find?_eq_none.mp hf b hb
    simp at hno
  | some b' =>
    have heq : Path.bnodePathVar b' = Path.bnodePathVar b := by simpa using find?_some hf
    have hid : "__bnp_" ++ b'.id = "__bnp_" ++ b.id := congrArg Variable.name heq
    have hid := (String.append_right_inj _).mp hid
    show bnodeVar b' = bnodeVar b
    rw [bnodeVar, bnodeVar, hid]

theorem unify_eq_self (hv : ∀ b ∈ P.pathLabels, Path.bnodePathVar b ≠ v) : P.unify v = v := by
  unfold GraphPattern.unify
  cases hf : P.pathLabels.find? fun b => Path.bnodePathVar b = v with
  | none => rfl
  | some b =>
    have heq : Path.bnodePathVar b = v := by simpa using find?_some hf
    exact absurd heq (hv b (mem_of_find?_eq_some hf))

/-- The variables that are bound in a group. -/
def GroupVar (P : GraphPattern) (v : Variable) : Prop :=
  v ∈ P.ordinaryVars ∨ (∃ b ∈ P.tripleLabels, v = bnodeVar b) ∨ ∃ b ∈ P.pathLabels, v = Path.bnodePathVar b

/-- No label is in a triple pattern and in a path, and no variable has the name of one
that stands for a label of a path. -/
structure LabelsApart (P : GraphPattern) : Prop where
  labels : ∀ b ∈ P.pathLabels, b ∉ P.tripleLabels
  vars : ∀ b ∈ P.pathLabels, bnodeVar b ∉ P.ordinaryVars ∧ Path.bnodePathVar b ∉ P.ordinaryVars

theorem LabelsApart.ordinary (h : LabelsApart P) (hv : v ∈ P.ordinaryVars) : P.unify v = v := by
  apply unify_eq_self
  rintro b hb rfl
  exact (h.vars b hb).2 hv

theorem unify_bnodeVar (b : BlankNode) : P.unify (bnodeVar b) = bnodeVar b :=
  unify_eq_self fun a _ => bnodePathVar_ne_bnodeVar a b

theorem LabelsApart.injOn (h : LabelsApart P) : Set.InjOn P.unify {v | GroupVar P v} := by
  -- a variable that is not renamed is none that another is renamed to
  have hfresh : ∀ b ∈ P.pathLabels, ∀ v, v ∈ P.ordinaryVars ∨ (∃ b ∈ P.tripleLabels, v = bnodeVar b) →
      P.unify v = v ∧ v ≠ bnodeVar b := by
    rintro b hb v (hv | ⟨b', hb', rfl⟩)
    · refine ⟨h.ordinary hv, ?_⟩
      rintro rfl
      exact (h.vars b hb).1 hv
    · refine ⟨unify_bnodeVar b', fun heq => ?_⟩
      rw [bnodeVar_injective heq] at hb'
      exact h.labels b hb hb'
  have hkept : ∀ v, v ∈ P.ordinaryVars ∨ (∃ b ∈ P.tripleLabels, v = bnodeVar b) → P.unify v = v := by
    rintro v (hv | ⟨b', _, rfl⟩)
    · exact h.ordinary hv
    · exact unify_bnodeVar b'
  intro v hv w hw heq
  rcases or_assoc.mpr hv with hv | ⟨b, hb, rfl⟩
  · rcases or_assoc.mpr hw with hw | ⟨c, hc, rfl⟩
    · rw [hkept v hv, hkept w hw] at heq
      exact heq
    · rw [hkept v hv, unify_bnodePathVar hc] at heq
      exact absurd heq (hfresh c hc v hv).2
  · rcases or_assoc.mpr hw with hw | ⟨c, hc, rfl⟩
    · rw [hkept w hw, unify_bnodePathVar hb] at heq
      exact absurd heq.symm (hfresh b hb w hw).2
    · rw [unify_bnodePathVar hb, unify_bnodePathVar hc] at heq
      rw [bnodeVar_injective heq]

end Group

/-! ## The solutions of a group -/

section Run

variable {scalars : Scalars} {options : EvalOptions} {fuel : Nat} {ds : Dataset} {ag : GraphSelector}

theorem GroupVar.left {left right : GraphPattern} (h : GroupVar left v) : GroupVar (.join left right) v := by
  rcases h with h | ⟨b, hb, rfl⟩ | ⟨b, hb, rfl⟩
  · exact .inl (mem_append_left _ h)
  · exact .inr (.inl ⟨b, mem_append_left _ hb, rfl⟩)
  · exact .inr (.inr ⟨b, mem_append_left _ hb, rfl⟩)

theorem GroupVar.right {left right : GraphPattern} (h : GroupVar right v) :
    GroupVar (.join left right) v := by
  rcases h with h | ⟨b, hb, rfl⟩ | ⟨b, hb, rfl⟩
  · exact .inl (mem_append_right _ h)
  · exact .inr (.inl ⟨b, mem_append_right _ hb, rfl⟩)
  · exact .inr (.inr ⟨b, mem_append_right _ hb, rfl⟩)

theorem groupVar_of_mem_bgpVars (hv : v ∈ bgpVars patterns) : GroupVar (.bgp patterns) v := by
  rcases mem_flatMap.mp hv with ⟨tp, htp, hv⟩
  rcases TriplePattern.mem_vars hv with hv | ⟨b, hb, rfl⟩
  · exact .inl (mem_flatMap.mpr ⟨tp, htp, hv⟩)
  · exact .inr (.inl ⟨b, mem_flatMap.mpr ⟨tp, htp, hb⟩, rfl⟩)

theorem groupVar_of_mem_endVars {e : PropertyPathExpression}
    (hv : v ∈ Path.endVars s ∨ v ∈ Path.endVars o) : GroupVar (.path s e o) v := by
  rcases hv with hv | hv
  · rcases mem_append.mp hv with hv | hv
    · exact .inl (mem_append_left _ hv)
    · rcases mem_map.mp hv with ⟨b, hb, rfl⟩
      exact .inr (.inr ⟨b, mem_append_left _ hb, rfl⟩)
  · rcases mem_append.mp hv with hv | hv
    · exact .inl (mem_append_right _ hv)
    · rcases mem_map.mp hv with ⟨b, hb, rfl⟩
      exact .inr (.inr ⟨b, mem_append_right _ hb, rfl⟩)

theorem within_evalPattern {P : GraphPattern} (hg : P.IsGroup) : ∀ {sols : List Solution},
    evalPattern scalars options fuel ds P ag = .ok sols → ∀ sol ∈ sols, sol.Within {v | GroupVar P v} := by
  induction hg with
  | bgp patterns =>
    intro sols h sol hsol
    exact (within_evalBgp (ok_of_mapError h) sol hsol).mono fun v => groupVar_of_mem_bgpVars
  | path s e o =>
    intro sols h sol hsol
    rcases bind_ok (ok_of_mapError h) with ⟨pairs, _, hr⟩
    cases hr
    rcases mem_filterMap.mp (mem_of_mem_firstsBy hsol).1 with ⟨pair, _, hm⟩
    exact Path.within_matchPair (fun v hv => groupVar_of_mem_endVars (.inl hv))
      (fun v hv => groupVar_of_mem_endVars (.inr hv)) hm
  | @join left right _ _ ihl ihr =>
    intro sols h sol hsol
    rcases bind_ok h with ⟨ls, hls, h⟩
    rcases bind_ok h with ⟨rs, hrs, h⟩
    cases h
    rcases mem_flatMap.mp hsol with ⟨l, hl, hsol⟩
    rcases mem_filterMap.mp hsol with ⟨r, hr, hm⟩
    exact within_mergeCompatible ((ihl hls l hl).mono fun v => .left)
      ((ihr hrs r hr).mono fun v => .right) hm

theorem joinSolutions_rename (hr : Set.InjOn r W)
    {ls rs : List Solution} (hls : ∀ sol ∈ ls, sol.Within W) (hrs : ∀ sol ∈ rs, sol.Within W) :
    joinSolutions (ls.map (Solution.rename r)) (rs.map (Solution.rename r)) =
      (joinSolutions ls rs).map (Solution.rename r) := by
  unfold joinSolutions
  rw [flatMap_map, map_flatMap]
  refine flatMap_congr fun l hl => ?_
  rw [filterMap_map, map_filterMap]
  refine filterMap_congr fun r hr' => ?_
  exact mergeCompatible_rename hr (hls l hl) (hrs r hr')

/-- The solutions of a path whose labels are the variables of the triple patterns. -/
theorem evalPath_rename (hr : Set.InjOn r W)
    {e : PropertyPathExpression} (hs : ∀ v ∈ Path.endVars s, v ∈ W) (ho : ∀ v ∈ Path.endVars o, v ∈ W)
    (hus : Path.Unifies r s) (huo : Path.Unifies r o) (hkeys : KeysApart scalars fuel ds ag (.path s e o))
    (hkeys' : KeysApart scalars fuel ds ag (.path s.asVars e o.asVars)) :
    Path.evalPath scalars.fp scalars.display scalars.solutionKey fuel ds ag s.asVars e o.asVars =
      (Path.evalPath scalars.fp scalars.display scalars.solutionKey fuel ds ag s e o).map
        (List.map (Solution.rename r)) := by
  have hmatch : ∀ pairs : List TermPair, pairs.filterMap (Path.matchPair s.asVars o.asVars) =
      (pairs.filterMap (Path.matchPair s o)).map (Solution.rename r) := by
    intro pairs
    rw [map_filterMap]
    exact filterMap_congr fun pair _ => Path.matchPair_rename hr hs ho hus huo pair
  simp only [KeysApart, pathCandidates, Path.evalPathPairs_asVars] at hkeys hkeys'
  unfold Path.evalPath
  rw [Path.evalPathPairs_asVars]
  cases hp : Path.evalPathPairs scalars.fp scalars.display fuel ds ag s e o with
  | error err => rfl
  | ok pairs =>
    rw [hp] at hkeys hkeys'
    simp only [hmatch] at hkeys'
    have hwithin : ∀ sol ∈ pairs.filterMap (Path.matchPair s o), sol.Within W := by
      intro sol hsol
      rcases mem_filterMap.mp hsol with ⟨pair, _, hm⟩
      exact Path.within_matchPair hs ho hm
    -- the same solutions are dropped, as the keys tell them apart on both sides
    have hkept : ∀ a ∈ pairs.filterMap (Path.matchPair s o), ∀ b ∈ [] ++ pairs.filterMap (Path.matchPair s o),
        scalars.solutionKey (a.rename r) = scalars.solutionKey (b.rename r) ↔
          scalars.solutionKey a = scalars.solutionKey b := by
      intro a ha b hb
      constructor
      · intro heq
        have heq := hkeys' _ (mem_map_of_mem ha) _ (mem_map_of_mem hb) heq
        rw [rename_injOn hr (hwithin a ha) (hwithin b hb) heq]
      · intro heq
        rw [hkeys a ha b hb heq]
    show Except.ok (firstsBy scalars.solutionKey [] (pairs.filterMap (Path.matchPair s.asVars o.asVars))) = _
    rw [hmatch]
    exact congrArg Except.ok (firstsBy_map hkept)

/-- A part of a group, under a renaming that unifies the labels of its paths with
those of triple patterns. -/
theorem evalPattern_oneVariable (hr : Set.InjOn r W)
    {P : GraphPattern} (hg : P.IsGroup) (hW : ∀ v, GroupVar P v → v ∈ W)
    (hord : ∀ v ∈ P.ordinaryVars, r v = v) (htriple : ∀ b ∈ P.tripleLabels, r (bnodeVar b) = bnodeVar b)
    (hpath : ∀ b ∈ P.pathLabels, r (Path.bnodePathVar b) = bnodeVar b)
    (hkeys : KeysApart scalars fuel ds ag P) (hkeys' : KeysApart scalars fuel ds ag P.oneVariable) :
    evalPattern scalars options fuel ds P.oneVariable ag =
      (evalPattern scalars options fuel ds P ag).map (List.map (Solution.rename r)) := by
  induction hg with
  | bgp patterns =>
    -- the renaming does not touch the variables of triple patterns
    have hfix : ∀ v ∈ bgpVars patterns, r v = v := by
      intro v hv
      rcases mem_flatMap.mp hv with ⟨tp, htp, hv⟩
      rcases TriplePattern.mem_vars hv with hv | ⟨b, hb, rfl⟩
      · exact hord v (mem_flatMap.mpr ⟨tp, htp, hv⟩)
      · exact htriple b (mem_flatMap.mpr ⟨tp, htp, hb⟩)
    rw [show (GraphPattern.bgp patterns).oneVariable = .bgp patterns from rfl, evalPattern]
    cases hev : evalBgp ds options.query patterns ag with
    | error e => rfl
    | ok sols =>
      have hsame : sols.map (Solution.rename r) = sols := by
        refine (map_congr_left fun sol hsol => ?_).trans (map_id sols)
        exact rename_eq_self fun v hv => hfix v (within_evalBgp hev sol hsol v hv)
      show Except.ok sols = Except.ok (sols.map (Solution.rename r))
      rw [hsame]
  | path s e o =>
    have hs : Path.Unifies r s := ⟨fun v hv => hord v (mem_append_left _ hv),
      fun b hb => hpath b (mem_append_left _ hb)⟩
    have ho : Path.Unifies r o := ⟨fun v hv => hord v (mem_append_right _ hv),
      fun b hb => hpath b (mem_append_right _ hb)⟩
    have hrun := evalPath_rename hr (fun v hv => hW v (groupVar_of_mem_endVars (.inl hv)))
      (fun v hv => hW v (groupVar_of_mem_endVars (.inr hv))) hs ho hkeys hkeys'
    rw [GraphPattern.oneVariable, evalPattern, evalPattern, hrun]
    cases Path.evalPath scalars.fp scalars.display scalars.solutionKey fuel ds ag s e o <;> rfl
  | @join left right hgl hgr ihl ihr =>
    have hl := ihl (fun v hv => hW v hv.left) (fun v hv => hord v (mem_append_left _ hv))
      (fun b hb => htriple b (mem_append_left _ hb)) (fun b hb => hpath b (mem_append_left _ hb))
      hkeys.1 hkeys'.1
    have hr' := ihr (fun v hv => hW v hv.right) (fun v hv => hord v (mem_append_right _ hv))
      (fun b hb => htriple b (mem_append_right _ hb)) (fun b hb => hpath b (mem_append_right _ hb))
      hkeys.2 hkeys'.2
    rw [GraphPattern.oneVariable, evalPattern, evalPattern, hl, hr']
    cases hls : evalPattern scalars options fuel ds left ag with
    | error e => rfl
    | ok ls =>
      cases hrs : evalPattern scalars options fuel ds right ag with
      | error e => rfl
      | ok rs =>
        have hjoin := joinSolutions_rename hr
          (fun sol hsol => (within_evalPattern hgl hls sol hsol).mono fun v hv => hW v hv.left)
          (fun sol hsol => (within_evalPattern hgr hrs sol hsol).mono fun v hv => hW v hv.right)
        exact congrArg Except.ok hjoin

end Run

/-- Where no label is shared by a triple pattern and a path, a label is one variable
throughout the group. -/
theorem labels_act_as_variables (scalars : Scalars) (options : EvalOptions) (fuel : Nat) (ds : Dataset)
    (ag : GraphSelector) (P : GraphPattern) (hg : P.IsGroup) (h : LabelsApart P)
    (hkeys : KeysApart scalars fuel ds ag P) (hkeys' : KeysApart scalars fuel ds ag P.oneVariable) :
    LabelsActAsVariables scalars options fuel ds P ag := by
  refine ⟨fun patterns _ => evalBgpNested_asVars ds options.query patterns ag, ?_⟩
  exact evalPattern_oneVariable h.injOn hg (fun _ hv => hv) (fun _ => h.ordinary) (fun b _ => unify_bnodeVar b)
    (fun _ => unify_bnodePathVar) hkeys hkeys'

/-! ## Two groups over one graph -/

/-- A hash of the cells of a solution. -/
def cellsKey (sol : Solution) : Nat :=
  sol.iter.foldl (fun h cell =>
    (cell.1.name.toList.map Char.toNat ++ [Path.chainFp cell.2]).foldl (fun h n => (31 * h + n) % 2 ^ 64) h) 0

/-- Texts and keys of IRIs; the group below uses no other function. -/
def iriScalars : Scalars where
  toEbv := fun _ => none
  binary := fun _ _ _ => none
  isDivisor := fun _ => false
  divide := fun _ _ => none
  rdfEqual := fun _ _ => none
  unaryPlus := fun _ => none
  unaryMinus := fun _ => none
  compare := fun _ _ => .eq
  call := fun _ _ _ => none
  aggregate := fun _ _ _ => none
  countSolutions := fun _ _ => none
  display := Path.chainDisplay
  fp := Path.chainFp
  solutionKey := cellsKey
  instantiate := fun _ _ => []

def plainOptions : EvalOptions := ⟨.new, false, none, none⟩

/-- `a p b`, `b q d` and `c q d`. -/
def labelStore : MemoryStore where
  quads := [⟨.namedNode ⟨"a"⟩, ⟨"p"⟩, .namedNode ⟨"b"⟩, .defaultGraph⟩,
    ⟨.namedNode ⟨"b"⟩, ⟨"q"⟩, .namedNode ⟨"d"⟩, .defaultGraph⟩,
    ⟨.namedNode ⟨"c"⟩, ⟨"q"⟩, .namedNode ⟨"d"⟩, .defaultGraph⟩]
  namedGraphIris := []
  nodup := by decide +kernel

/-- `?x p _:first . _:second q+ ?y`, as the parser splits `p/q+` if both labels are
the same. -/
def splitSequence (first second : String) : GraphPattern :=
  .join (.bgp [⟨.var ⟨"x"⟩, .namedNode ⟨"p"⟩, .blankNode ⟨first⟩⟩])
    (.path (.blankNode ⟨second⟩) (.oneOrMore (.namedNode ⟨"q"⟩)) (.var ⟨"y"⟩))

/-- The number of solutions. -/
def countOf (r : Except QueryError (List Solution)) : Option Nat := r.toOption.map List.length

/-- With two labels the halves are a product, and are meant to be one. -/
theorem labels_act_as_variables_product :
    LabelsActAsVariables iriScalars plainOptions 8 (storeDataset labelStore.quadStore) (splitSequence "m" "n")
        .default ∧
      countOf (evalPattern iriScalars plainOptions 8 (storeDataset labelStore.quadStore) (splitSequence "m" "n")
        .default) = some 2 := by
  refine ⟨labels_act_as_variables _ _ _ _ _ _ (.join (.bgp _) (.path _ _ _)) ⟨?_, ?_⟩ ?_ ?_, ?_⟩
  · decide +kernel
  · decide +kernel
  · refine ⟨trivial, ?_⟩
    rw [KeysApart]
    decide +kernel
  · refine ⟨trivial, ?_⟩
    rw [GraphPattern.oneVariable, KeysApart]
    decide +kernel
  · decide +kernel

/-- With one label the halves are a product too: `c q d` is joined with `a p b`. -/
theorem label_not_shared_by_path :
    countOf (evalPattern iriScalars plainOptions 8 (storeDataset labelStore.quadStore) (splitSequence "m" "m")
        .default) = some 2 ∧
      countOf (evalPattern iriScalars plainOptions 8 (storeDataset labelStore.quadStore)
        (splitSequence "m" "m").oneVariable .default) = some 1 ∧
      ¬LabelsActAsVariables iriScalars plainOptions 8 (storeDataset labelStore.quadStore) (splitSequence "m" "m")
        .default := by
  have hcode : countOf (evalPattern iriScalars plainOptions 8 (storeDataset labelStore.quadStore)
      (splitSequence "m" "m") .default) = some 2 := by
    decide +kernel
  have hmeant : countOf (evalPattern iriScalars plainOptions 8 (storeDataset labelStore.quadStore)
      (splitSequence "m" "m").oneVariable .default) = some 1 := by
    decide +kernel
  refine ⟨hcode, hmeant, fun h => ?_⟩
  rw [h.2] at hmeant
  revert hcode hmeant
  cases evalPattern iriScalars plainOptions 8 (storeDataset labelStore.quadStore) (splitSequence "m" "m") .default
  · exact fun hcode => absurd hcode (by simp [countOf, Except.toOption])
  · simp [countOf, Except.toOption, Except.map]
    omega

end Eval

end Nova
