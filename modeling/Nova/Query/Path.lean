import Nova.Lib.Search
import Nova.Query.Dataset

/-!
# Property paths

`pathPairs` lists the pairs of terms that a path expression relates, operator by
operator; closures are searched node by node. A single predicate, and the closure
of one, are read off the index where that may be used.

Fingerprints (`term_fp`) and texts (`to_string`) of terms are parameters. A scan of
the index that is not to be had ends a fast path with `unavailable`, and the caller
goes on without it. The order in which a hash map lists its keys is left open by the
source, and is here the order of insertion. Cancellation is not modelled.
-/

namespace Nova

open Nova.Lib

inductive PropertyPathExpression where
  | namedNode (p : NamedNode)
  | reverse (e : PropertyPathExpression)
  | sequence (a b : PropertyPathExpression)
  | alternative (a b : PropertyPathExpression)
  | zeroOrMore (e : PropertyPathExpression)
  | oneOrMore (e : PropertyPathExpression)
  | zeroOrOne (e : PropertyPathExpression)
  | negatedPropertySet (ps : List NamedNode)
deriving DecidableEq, Repr

/-- Why a path does not give pairs. `unavailable` is the `None` of a fast path. -/
inductive PathError where
  | store (f : Fault)
  | unavailable
  | fuel
deriving DecidableEq, Repr

namespace PathError

def ofStore {α : Type} (r : Except Fault α) : Except PathError α := r.mapError .store

def ofPanic {α : Type} (r : Except Panic α) : Except PathError α := r.mapError fun p => .store (.panic p)

def ofOption {α : Type} : Option α → Except PathError α
  | some a => .ok a
  | none => .error .unavailable

/-- `if let Some(result) = fast { return result }`. -/
def orElse {α : Type} (fast slow : Except PathError α) : Except PathError α :=
  match fast with
  | .error .unavailable => slow
  | r => r

end PathError

open PathError

abbrev TermPair := Term × Term

/-- The elements whose keys are new, in order: a loop over `seen.insert(key)`. -/
def firstsBy {α κ : Type} [DecidableEq κ] (key : α → κ) : List κ → List α → List α
  | _, [] => []
  | seen, x :: xs =>
    if key x ∈ seen then firstsBy key seen xs else x :: firstsBy key (key x :: seen) xs

/-! ## Scans of the index -/

namespace Path

/-- The index is used: it has no delta, and the selector names one graph. -/
def usesRing (ds : Dataset) (ag : GraphSelector) : Bool :=
  ds.supportsLftj && !ds.lftjHasDelta &&
    match ag with
    | .default => true
    | .named _ => true
    | _ => false

def scan (ds : Dataset) (s p o : Option Nat) (target : Nat) (ag : GraphSelector) : Except PathError Scan :=
  ofOption (ds.lftjJoinScan s p o target ag)

def intern (ds : Dataset) (t : Term) : Except PathError Nat := do
  ofOption (← ofPanic (ds.lftjInternTerm t))

def decode (ds : Dataset) (id : Nat) : Except PathError (Option Term) := ofPanic (ds.lftjDecodeTerm id)

/-- The terms of a scan; an id without a term is passed over. -/
def decodeAll (ds : Dataset) : List Nat → Except PathError (List Term)
  | [] => .ok []
  | id :: ids => do
    let t ← decode ds id
    let ts ← decodeAll ds ids
    return t.toList ++ ts

/-- The loop of `ring_pairs_for_pred` over the subjects. -/
def ringPairsFrom (ds : Dataset) (pId : Nat) (ag : GraphSelector) : List Nat → Except PathError (List TermPair)
  | [] => .ok []
  | sId :: rest => do
    match ← decode ds sId with
    | none => ringPairsFrom ds pId ag rest
    | some s =>
      let objects ← decodeAll ds (← scan ds (some sId) (some pId) none 2 ag)
      let more ← ringPairsFrom ds pId ag rest
      return objects.map (fun o => (s, o)) ++ more

def ringPairsForPred (ds : Dataset) (p : NamedNode) (ag : GraphSelector) : Except PathError (List TermPair) := do
  let pId ← intern ds (.namedNode p)
  ringPairsFrom ds pId ag (← scan ds none (some pId) none 0 ag)

def ringSubjectsForPred (ds : Dataset) (pId : Nat) (ag : GraphSelector) : Except PathError (List Nat) :=
  scan ds none (some pId) none 0 ag

def ringAllNodeIds (ds : Dataset) (ag : GraphSelector) : Except PathError (List Nat) := do
  let subjects ← scan ds none none none 0 ag
  let objects ← scan ds none none none 2 ag
  return firsts (subjects ++ objects)

/-- The ids that the search from one start meets, in order: the start is among them
if an edge leads back to it. -/
def ringReached (fuel : Nat) (ds : Dataset) (pId : Nat) (ag : GraphSelector) (start : Nat) :
    Except PathError (List Nat) := do
  let successors := fun x => scan ds (some x) (some pId) none 2 ag
  let st ← Search.run id successors .fuel fuel ⟨[start], [start], []⟩
  return (← (start :: st.found).mapM successors).flatten

/-- `ring_bfs_transitive`. -/
def ringBfsTransitive (fuel : Nat) (ds : Dataset) (pId : Nat) (starts : List Nat) (includeIdentity : Bool)
    (ag : GraphSelector) : Except PathError (List TermPair) := do
  let reached ← starts.mapM fun start => do
    match ← decode ds start with
    | none => return []
    | some _ =>
      let ids ← ringReached fuel ds pId ag start
      return ((if includeIdentity then [start] else []) ++ ids).map fun id => (start, id)
  -- an id without a term is seen, and gives no pair
  let pairs ← (firsts reached.flatten).mapM fun pair => do
    match ← decode ds pair.1, ← decode ds pair.2 with
    | some s, some o => return [(s, o)]
    | _, _ => return []
  return pairs.flatten

def pathTransitiveRing (fuel : Nat) (ds : Dataset) (p : NamedNode) (ag : GraphSelector)
    (includeIdentity : Bool) : Except PathError (List TermPair) := do
  if usesRing ds ag then
    let pId ← intern ds (.namedNode p)
    let starts ← if includeIdentity then ringAllNodeIds ds ag else ringSubjectsForPred ds pId ag
    ringBfsTransitive fuel ds pId starts includeIdentity ag
  else .error .unavailable

/-! ## The generic evaluator -/

section

variable (fp : Term → Nat) (display : Term → String)

/-- Pairs whose fingerprints are new. -/
def dedupPairs (pairs : List TermPair) : List TermPair := firstsBy (Prod.map fp fp) [] pairs

def anyQuad (ag : GraphSelector) : QuadPattern := ⟨.wildcard, .wildcard, .wildcard, ag⟩

/-- `all_terms`: the subjects and objects of the graph, each text once. -/
def allTerms (ds : Dataset) (ag : GraphSelector) : Except PathError (List Term) := do
  let quads ← ofStore (ds.findQuads (anyQuad ag))
  return firstsBy display [] (quads.flatMap fun q => [q.subject, q.object])

/-- The neighbours of a term in the adjacency map. -/
def neighbors (direct : List TermPair) (x : Term) : List Term :=
  (direct.filter fun pair => pair.1 = x).map Prod.snd

/-- The pairs that the search from one start adds. -/
def reachedFrom (fuel : Nat) (direct : List TermPair) (includeIdentity : Bool) (start : Term) :
    Except PathError (List TermPair) := do
  let st ← Search.run fp (fun x => .ok (neighbors direct x)) .fuel fuel ⟨[fp start], [start], []⟩
  return ((if includeIdentity then [start] else []) ++ st.found).map fun y => (start, y)

/-- All nodes for `*`, the ends of the pairs for `+`. -/
def startNodes (ds : Dataset) (ag : GraphSelector) (direct : List TermPair) : Bool → Except PathError (List Term)
  | true => allTerms display ds ag
  | false => .ok (firsts (direct.flatMap fun pair => [pair.1, pair.2]))

/-- `path_transitive` without the index, over the pairs of the inner path. -/
def pathTransitiveGeneric (fuel : Nat) (ds : Dataset) (ag : GraphSelector)
    (direct : Except PathError (List TermPair)) (includeIdentity : Bool) : Except PathError (List TermPair) := do
  let direct ← direct
  let starts ← startNodes display ds ag direct includeIdentity
  return dedupPairs fp (← starts.mapM (reachedFrom fp fuel direct includeIdentity)).flatten

def pathTransitive (fuel : Nat) (ds : Dataset) (ag : GraphSelector) (inner : PropertyPathExpression)
    (direct : Except PathError (List TermPair)) (includeIdentity : Bool) : Except PathError (List TermPair) :=
  match inner with
  | .namedNode p => orElse (pathTransitiveRing fuel ds p ag includeIdentity)
      (pathTransitiveGeneric fp display fuel ds ag direct includeIdentity)
  | _ => pathTransitiveGeneric fp display fuel ds ag direct includeIdentity

def pathPairs (fuel : Nat) (ds : Dataset) (ag : GraphSelector) :
    PropertyPathExpression → Except PathError (List TermPair)
  | .namedNode p =>
    let generic := do
      let quads ← ofStore (ds.findQuads ⟨.wildcard, .bound (.namedNode p), .wildcard, ag⟩)
      return quads.map fun q => (q.subject, q.object)
    if usesRing ds ag then orElse (ringPairsForPred ds p ag) generic else generic
  | .reverse e => do
    let pairs ← pathPairs fuel ds ag e
    return pairs.map Prod.swap
  | .sequence a b => do
    let left ← pathPairs fuel ds ag a
    let right ← pathPairs fuel ds ag b
    return dedupPairs fp (left.flatMap fun pair => (neighbors right pair.2).map fun o => (pair.1, o))
  | .alternative a b => do
    let left ← pathPairs fuel ds ag a
    let right ← pathPairs fuel ds ag b
    return dedupPairs fp (left ++ right)
  | .zeroOrOne e => do
    let pairs ← pathPairs fuel ds ag e
    let nodes ← allTerms display ds ag
    return pairs ++ firstsBy (Prod.map fp fp) (pairs.map (Prod.map fp fp)) (nodes.map fun x => (x, x))
  | .zeroOrMore e => pathTransitive fp display fuel ds ag e (pathPairs fuel ds ag e) true
  | .oneOrMore e => pathTransitive fp display fuel ds ag e (pathPairs fuel ds ag e) false
  | .negatedPropertySet ps => do
    let quads ← ofStore (ds.findQuads (anyQuad ag))
    let kept := quads.filter fun q =>
      match q.predicate with
      | .namedNode p => !(p ∈ ps : Bool)
      | _ => true
    return dedupPairs fp (kept.map fun q => (q.subject, q.object))

end

end Path

end Nova
