import Nova.Lib.Leapfrog
import Nova.Lib.Sorted
import Nova.Query.Bgp
import Nova.Query.Shapes

/-!
# Basic graph patterns, by leapfrog triejoin

Over the index of a compacted store a BGP is evaluated on term ids: its patterns are
classified, and either a recognised shape is walked or the variables are eliminated
one by one, each by a leapfrog over the scans of the patterns that mention it. The
order of elimination is chosen anew at every step, by counts of the dataset.

The rows of ids are listed first and decoded afterwards; the source decodes a row as
it is found, which makes no difference as decoding reads the dictionary only.
Counters and cancellation are not modelled.
-/

namespace Nova

open Nova.Lib Nova.Lib.Leapfrog

def EvalError.ofPanic {α : Type} (r : Except Panic α) : Except EvalError α :=
  r.mapError fun p => .store (.panic p)

/-- `Solution::positional` over a header that the rows share. -/
def Solution.row (vars : List Variable) (value : Nat → Option Term) : Solution :=
  .positional vars ((List.range vars.length).map value) (by simp)

namespace Lftj

/-! ## Classified patterns -/

/-- `bindings`: the id of each variable that is bound. -/
abbrev Bindings := Nat → Option Nat

/-- `is_active_for_var`. -/
def isActiveForVar (v : Nat) (sp : PatternSpec) : Bool :=
  sp.s = .joinVar v || sp.p = .joinVar v || sp.o = .joinVar v

/-- `is_fully_ground`. -/
def isFullyGround (sp : PatternSpec) : Bool :=
  sp.s.asConst.isSome && sp.p.asConst.isSome && sp.o.asConst.isSome

def resolveField (bindings : Bindings) : FieldSpec → Option Nat
  | .const id => some id
  | .joinVar i => bindings i

/-- The arguments of a scan: the bound fields, and the one that is looked for. -/
structure Probe where
  s : Option Nat
  p : Option Nat
  o : Option Nat
  target : Nat
deriving DecidableEq, Repr

/-- `resolve_for_var`: the target is the first field that is the variable. -/
def resolveForVar (v : Nat) (bindings : Bindings) (sp : PatternSpec) : Probe where
  s := resolveField bindings sp.s
  p := resolveField bindings sp.p
  o := resolveField bindings sp.o
  target := if sp.s = .joinVar v then 0 else if sp.p = .joinVar v then 1 else 2

def extractVarsFromPattern (tp : TriplePattern) : List Variable :=
  let ofTerm : TermPattern → List Variable := fun
    | .var v => [v]
    | _ => []
  ofTerm tp.subject ++ tp.predicate.vars ++ ofTerm tp.object

/-- `collect_join_vars`: in the order of their first appearance. -/
def collectJoinVars (patterns : List TriplePattern) : List Variable :=
  firsts (patterns.flatMap extractVarsFromPattern)

/-- Why the classification ends: a panic, a constant that has no id or a ground pattern
that is no triple (`EmptyResult`), or a pattern that the join does not handle
(`Fallback`). -/
inductive Leave where
  | panic (p : Panic)
  | emptyResult
  | fallback
deriving DecidableEq, Repr

def internConst (ds : Dataset) (t : Term) : Except Leave FieldSpec :=
  match ds.lftjInternTerm t with
  | .error p => .error (.panic p)
  | .ok none => .error .emptyResult
  | .ok (some id) => .ok (.const id)

def classifyTermField (ds : Dataset) (joinVars : List Variable) : TermPattern → Except Leave FieldSpec
  | .var v => .ok (.joinVar (joinVars.idxOf v))
  | .namedNode n => internConst ds (.namedNode n)
  | .literal l => internConst ds (.literal l)
  | .blankNode _ => .error .fallback
  | .triple _ _ _ => .error .fallback

def classifyNnField (ds : Dataset) (joinVars : List Variable) : NamedNodePattern → Except Leave FieldSpec
  | .var v => .ok (.joinVar (joinVars.idxOf v))
  | .namedNode n => internConst ds (.namedNode n)

def patternHasBlankNodes (tp : TriplePattern) : Bool :=
  let isBlank : TermPattern → Bool := fun
    | .blankNode _ => true
    | _ => false
  isBlank tp.subject || isBlank tp.object

/-- `ground_term_pattern`, on a field that was classified as a constant. -/
def groundTermPattern : TermPattern → Except Leave Term
  | .namedNode n => .ok (.namedNode n)
  | .literal l => .ok (.literal l)
  | _ => .error (.panic (.unreachable "ground_term_pattern called on a non-constant field"))

def groundNnPattern : NamedNodePattern → Except Leave Term
  | .namedNode n => .ok (.namedNode n)
  | .var _ => .error (.panic (.unreachable "ground_nn_pattern called on a non-constant field"))

def graphNameForSelector : GraphSelector → Option GraphName
  | .default => some .defaultGraph
  | .named g => some g
  | _ => none

/-- A ground pattern takes part in no scan, so that its triple is looked up. -/
def checkGround (ds : Dataset) (graph : GraphSelector) (tp : TriplePattern) : Except Leave Unit := do
  match graphNameForSelector graph with
  | none => .error .fallback
  | some g =>
    let s ← groundTermPattern tp.subject
    let p ← groundNnPattern tp.predicate
    let o ← groundTermPattern tp.object
    match ds.containsQuad s p o g with
    | .ok true => .ok ()
    | .ok false => .error .emptyResult
    | .error (.err _) => .error .fallback
    | .error (.panic p) => .error (.panic p)

def buildSpec (ds : Dataset) (joinVars : List Variable) (graph : GraphSelector) (tp : TriplePattern) :
    Except Leave PatternSpec := do
  if patternHasBlankNodes tp then .error .fallback
  else
    let s ← classifyTermField ds joinVars tp.subject
    let p ← classifyNnField ds joinVars tp.predicate
    let o ← classifyTermField ds joinVars tp.object
    let spec : PatternSpec := ⟨s, p, o⟩
    if isFullyGround spec then
      checkGround ds graph tp
    return spec

/-! ## The generic join -/

def Probe.boundCount (probe : Probe) : Nat := [probe.s, probe.p, probe.o].countP Option.isSome

/-- The cost of a pattern for the next variable: its count, scaled down by what is
bound. -/
def effectiveCost (ds : Dataset) (graph : GraphSelector) (probe : Probe) : Nat :=
  let w := (ds.lftjRealCount probe.s probe.p probe.o probe.target graph).getD
    (ds.lftjEstimateCount probe.s probe.p probe.o probe.target graph)
  let denom := (probe.boundCount + 1) * (probe.boundCount + 1)
  w / denom + if w % denom ≠ 0 then 1 else 0

def weightOf (ds : Dataset) (specs : List PatternSpec) (graph : GraphSelector) (bindings : Bindings) (v : Nat) :
    Nat :=
  (specs.filter (isActiveForVar v)).foldl
    (fun weight sp => min weight (max (effectiveCost ds graph (resolveForVar v bindings sp)) 1)) u64Max

/-- `veo_sort`: the variables by weight, then by index. -/
def veoSort (ds : Dataset) (specs : List PatternSpec) (graph : GraphSelector) (bindings : Bindings)
    (unbound : List Nat) : List Nat :=
  let weight := weightOf ds specs graph bindings
  unbound.mergeSort fun v w => weight v < weight w || weight v = weight w && v ≤ w

def order (ds : Dataset) (specs : List PatternSpec) (graph : GraphSelector) (bindings : Bindings)
    (unbound : List Nat) : List Nat :=
  if ds.supportsVeoEstimates && unbound.length > 1 then veoSort ds specs graph bindings unbound else unbound

/-- `try_collapse_subject_object_intersect`: one scan in the place of several that
look for the object of different subjects. -/
def tryCollapse (ds : Dataset) (graph : GraphSelector) (resolved : List Probe) : Option Scan := do
  guard (resolved.length ≥ 2)
  guard (resolved.all fun probe => probe.target = 2 && probe.s.isSome && probe.o.isNone)
  let first ← resolved.head?
  guard (resolved.all fun probe => probe.p = first.p)
  let subjects := Sorted.ofList (resolved.filterMap Probe.s)
  guard (subjects.length ≥ 2)
  ds.lftjMultiSubjectObjectIntersect subjects first.p graph

/-- The subjects and the predicate of scans that may be taken together. -/
def collapseSubjects (resolved : List Probe) : Option (List Nat × Option Nat) := do
  guard (resolved.length ≥ 2)
  guard (resolved.all fun probe => probe.target = 2 && probe.s.isSome && probe.o.isNone)
  let first ← resolved.head?
  guard (resolved.all fun probe => probe.p = first.p)
  let subjects := Sorted.ofList (resolved.filterMap Probe.s)
  guard (subjects.length ≥ 2)
  some (subjects, first.p)

theorem tryCollapse_eq (ds : Dataset) (graph : GraphSelector) (resolved : List Probe) :
    tryCollapse ds graph resolved =
      (collapseSubjects resolved).bind fun found => ds.lftjMultiSubjectObjectIntersect found.1 found.2 graph := by
  simp only [tryCollapse, collapseSubjects, Option.bind_eq_bind, Option.bind_assoc, Option.bind_some]

/-- What the subjects and the predicate say of the scans. -/
theorem collapseSubjects_spec {resolved : List Probe} {subjects : List Nat} {predicate : Option Nat}
    (h : collapseSubjects resolved = some (subjects, predicate)) :
    2 ≤ subjects.length ∧ subjects.Pairwise (· < ·) ∧
      (∀ s, s ∈ subjects ↔ ∃ probe ∈ resolved, probe.s = some s) ∧
        ∀ probe ∈ resolved, ∃ s, probe = ⟨some s, predicate, none, 2⟩ := by
  simp only [collapseSubjects, Option.bind_eq_bind, Option.bind_eq_some_iff, Option.guard_eq_some', ge_iff_le,
    List.all_eq_true, Bool.and_eq_true, decide_eq_true_eq, Option.some.injEq, Prod.mk.injEq] at h
  obtain ⟨-, -, -, hshape, first, -, -, hpred, -, hlen, rfl, rfl⟩ := h
  refine ⟨hlen, Sorted.pairwise_ofList _, ?_, ?_⟩
  · intro s
    rw [Sorted.mem_ofList, List.mem_filterMap]
  · intro probe hprobe
    obtain ⟨⟨htarget, hs⟩, ho⟩ := hshape probe hprobe
    obtain ⟨s, hs⟩ := Option.isSome_iff_exists.mp hs
    refine ⟨s, ?_⟩
    rcases probe with ⟨ps, pp, po, pt⟩
    simp only [Option.isNone_iff_eq_none] at htarget hs ho
    have hp := hpred _ hprobe
    dsimp only at hp
    rw [htarget, hs, ho, hp]

/-- The scans of a step, or `none` if one is not to be had. -/
def openScans (ds : Dataset) (graph : GraphSelector) (resolved : List Probe) : Option (List Scan) :=
  match tryCollapse ds graph resolved with
  | some scan => some [scan]
  | none => resolved.mapM fun probe => ds.lftjJoinScan probe.s probe.p probe.o probe.target graph

/-- `lftj_step`: the complete bindings, for `n` variables that are still unbound. -/
def lftjStep (ds : Dataset) (specs : List PatternSpec) (graph : GraphSelector) :
    Nat → List Nat → Bindings → List Bindings
  | 0, _, bindings => [bindings]
  | n + 1, unbound, bindings =>
    match order ds specs graph bindings unbound with
    | [] => [bindings]
    | v :: rest =>
      let active := specs.filter (isActiveForVar v)
      if active.isEmpty then lftjStep ds specs graph n rest bindings
      else
        match openScans ds graph (active.map (resolveForVar v bindings)) with
        | none => []
        | some scans =>
          if scans.any List.isEmpty then []
          else leapfrog (fun val => lftjStep ds specs graph n rest (Function.update bindings v (some val)))
            (remaining scans + 1) scans

/-! ## Walks of the shapes -/

/-- The keys of a scan; in a walk a scan that is not to be had is an empty one. -/
def keys (ds : Dataset) (graph : GraphSelector) (s p o : Option Nat) (target : Nat) : List Nat :=
  (ds.lftjJoinScan s p o target graph).getD []

def subjectsOf (ds : Dataset) (graph : GraphSelector) (p : Nat) : List Nat := keys ds graph none (some p) none 0

def objectsOf (ds : Dataset) (graph : GraphSelector) (s p : Nat) : List Nat := keys ds graph
    (some s) (some p) none 2

/-- `eval_sp_expansion_walk`. -/
def spExpansionWalk (ds : Dataset) (graph : GraphSelector) (plan : Shapes.SpExpansionPlan) : List (List Nat) :=
  let expand := match ds.lftjPrepareSpObjectScan plan.pExpand graph with
    | some hop => fun s => (hop s).getD []
    | none => fun s => objectsOf ds graph s plan.pExpand
  (keys ds graph none (some plan.pFilter) (some plan.oFilter) 0).flatMap fun s => (expand s).map fun o => [s, o]

/-- `eval_two_hop_walk`. -/
def twoHopWalk (ds : Dataset) (graph : GraphSelector) (plan : Shapes.TwoHopPlan) : List (List Nat) :=
  (subjectsOf ds graph plan.p1).flatMap fun a =>
    (objectsOf ds graph a plan.p1).flatMap fun b =>
      (objectsOf ds graph b plan.p2).map fun c => [a, b, c]

/-- `eval_wedge_walk`; the closing corner is never one of the other two. -/
def wedgeWalk (ds : Dataset) (graph : GraphSelector) (plan : Shapes.WedgePlan) : List (List Nat) :=
  let p := plan.predicate
  (subjectsOf ds graph p).flatMap fun a =>
    (objectsOf ds graph a p).flatMap fun b =>
      let common := match ds.lftjMultiSubjectObjectIntersect [a, b] (some p) graph with
        | some scan => scan
        | none => (objectsOf ds graph a p).filter fun c => c ∈ objectsOf ds graph b p
      (common.filter fun c => c ≠ a && c ≠ b).map fun c => [a, b, c]

/-- `eval_directed_triangle_walk`; no two corners are the same. -/
def directedTriangleWalk (ds : Dataset) (graph : GraphSelector) (plan : Shapes.DirectedTrianglePlan) :
    List (List Nat) :=
  (subjectsOf ds graph plan.p1).flatMap fun a =>
    ((objectsOf ds graph a plan.p1).filter fun b => b ≠ a).flatMap fun b =>
      ((objectsOf ds graph b plan.p2).filter fun c => c ≠ a && c ≠ b &&
        (seek (objectsOf ds graph c plan.p3) a).head? = some a).map fun c => [a, b, c]

/-- `eval_k_chain_walk`. -/
def kChainWalk (ds : Dataset) (graph : GraphSelector) (plan : Shapes.KChainPlan) : List (List Nat) :=
  (subjectsOf ds graph plan.p1).flatMap fun a =>
    (objectsOf ds graph a plan.p1).flatMap fun b =>
      (objectsOf ds graph b plan.p2).flatMap fun c =>
        (objectsOf ds graph c plan.p3).map fun d => [a, b, c, d]

/-- `eval_star_walk`. -/
def starWalk (ds : Dataset) (graph : GraphSelector) (plan : Shapes.StarPlan) : List (List Nat) :=
  (subjectsOf ds graph plan.p1).flatMap fun s =>
    (objectsOf ds graph s plan.p1).flatMap fun o1 =>
      (objectsOf ds graph s plan.p2).flatMap fun o2 =>
        (objectsOf ds graph s plan.p3).map fun o3 => [s, o1, o2, o3]

def shapeWalk (ds : Dataset) (graph : GraphSelector) : Shapes.ShapePlan → List (List Nat)
  | .spExpansion plan => spExpansionWalk ds graph plan
  | .twoHop plan => twoHopWalk ds graph plan
  | .wedge plan => wedgeWalk ds graph plan
  | .directedTriangle plan => directedTriangleWalk ds graph plan
  | .kChain plan => kChainWalk ds graph plan
  | .star plan => starWalk ds graph plan

/-- The rows of ids: of the prepared shape, if the store has one, else of the walk. -/
def shapeRows (ds : Dataset) (graph : GraphSelector) (plan : Shapes.ShapePlan) : List (List Nat) :=
  (ds.lftjPrepareShape plan.toPhysical graph).getD (shapeWalk ds graph plan)

/-! ## Rows of terms -/

def decodeBinding (ds : Dataset) : Option Nat → Except Panic (Option Term)
  | none => .ok none
  | some id => ds.lftjDecodeTerm id

/-- The row of a complete binding. -/
def emitRow (ds : Dataset) (joinVars : List Variable) (bindings : Bindings) : Except Panic Solution := do
  let values ← (List.range joinVars.length).mapM fun i => decodeBinding ds (bindings i)
  return .row joinVars fun i => (values[i]?).join

/-- The corners of a shape bound to a row of ids. -/
def cornerBindings (corners ids : List Nat) : Bindings :=
  (corners.zip ids).foldl (fun bindings cell => Function.update bindings cell.1 (some cell.2)) fun _ => none

/-- A row whose ids have no terms is kept by an expansion and dropped by the others. -/
def keepsUndecoded : Shapes.ShapePlan → Bool
  | .spExpansion _ => true
  | _ => false

def emitCorners (ds : Dataset) (joinVars : List Variable) (plan : Shapes.ShapePlan) (ids : List Nat) :
    Except Panic (Option Solution) := do
  if ids.length < plan.corners.length then .error .outOfBounds
  else
    let row ← emitRow ds joinVars (cornerBindings plan.corners ids)
    let decoded ← plan.corners.mapM fun i => decodeBinding ds (cornerBindings plan.corners ids i)
    return if keepsUndecoded plan || decoded.all Option.isSome then some row else none

def evalShape (ds : Dataset) (joinVars : List Variable) (graph : GraphSelector) (plan : Shapes.ShapePlan) :
    Except Panic (List Solution) := do
  let rows ← (shapeRows ds graph plan).mapM (emitCorners ds joinVars plan)
  return rows.filterMap id

/-! ## The evaluation of a BGP -/

/-- The part of `eval_bgp_lftj` over one graph; `none` is the fallback. -/
def evalBgpLftjGraph (ds : Dataset) (patterns : List TriplePattern) (graph : GraphSelector) :
    Except EvalError (Option (List Solution)) :=
  if patterns.isEmpty then .ok (some [.new])
  else
    let joinVars := collectJoinVars patterns
    match patterns.mapM (buildSpec ds joinVars graph) with
    | .error (.panic p) => .error (.store (.panic p))
    | .error .emptyResult => .ok (some [])
    | .error .fallback => .ok none
    | .ok specs =>
      match Shapes.recognizeShape specs joinVars.length with
      | some plan => (EvalError.ofPanic (evalShape ds joinVars graph plan)).map some
      | none =>
        let unbound := List.range joinVars.length
        (EvalError.ofPanic ((lftjStep ds specs graph unbound.length unbound fun _ => none).mapM
          (emitRow ds joinVars))).map some

/-- The loop of `eval_bgp_lftj_multi_graph`: a fallback in one graph is one for all. -/
def evalGraphs (ds : Dataset) (patterns : List TriplePattern) :
    List GraphSelector → Except EvalError (Option (List Solution))
  | [] => .ok (some [])
  | graph :: rest => do
    match ← evalBgpLftjGraph ds patterns graph with
    | none => return none
    | some now =>
      match ← evalGraphs ds patterns rest with
      | none => return none
      | some next => return some (now ++ next)

/-- `eval_bgp_lftj_multi_graph`. -/
def evalBgpLftjMultiGraph (ds : Dataset) (patterns : List TriplePattern) (includeDefault : Bool) :
    Except EvalError (Option (List Solution)) :=
  match ds.namedGraphs with
  | .error (.panic p) => .error (.store (.panic p))
  | .error (.err _) => .ok none
  | .ok names =>
    let named := (names.filter fun g => g ≠ .defaultGraph).map GraphSelector.named
    evalGraphs ds patterns ((if includeDefault then [.default] else []) ++ named)

/-- `eval_bgp_lftj`: `none` if the join does not apply. -/
def evalBgpLftj (ds : Dataset) (patterns : List TriplePattern) (graph : GraphSelector) :
    Except EvalError (Option (List Solution)) :=
  if !ds.supportsLftj || ds.lftjHasDelta then .ok none
  else
    match graph with
    | .default => evalBgpLftjGraph ds patterns .default
    | .named g => evalBgpLftjGraph ds patterns (.named g)
    | .anyNamed => evalBgpLftjMultiGraph ds patterns false
    | .union => evalBgpLftjMultiGraph ds patterns true
    | .unionOf _ => .ok none

end Lftj

/-- `eval_bgp`: the join if it applies, else the nested loops. -/
def evalBgp (ds : Dataset) (options : QueryOptions) (patterns : List TriplePattern) (graph : GraphSelector) :
    Except EvalError (List Solution) := do
  match ← Lftj.evalBgpLftj ds patterns graph with
  | some sols => return sols
  | none => evalBgpNested ds options patterns graph

end Nova
