import Nova.Query.Bgp
import Nova.Query.PathRing

/-!
# Property path patterns

`evalPath` evaluates a path between two term patterns: by the index, if an end is a
constant that the store knows or if the path is composed, else by the pairs of
`pathPairs`. Each pair that fits the ends gives a solution.

A blank node of an end is the variable `__bnp_<label>`, which is not the variable of
the same label in a triple pattern. Keys of solutions (`solution_key`) are a
parameter.
-/

namespace Nova

open Nova.Lib
open PathError (ofPanic ofOption orElse)

namespace Path

/-- The variable that stands for a blank node at the end of a path. -/
def bnodePathVar (b : BlankNode) : Variable := ⟨"__bnp_" ++ b.id⟩

/-- `match_term_pattern`. -/
def matchTermPattern (tp : TermPattern) (t : Term) (sol : Solution) : Option Solution :=
  match tp with
  | .var v => bindVariable sol v t
  | .namedNode n => if .namedNode n = t then some sol else none
  | .literal l => if .literal l = t then some sol else none
  | .blankNode b => bindVariable sol (bnodePathVar b) t
  | .triple _ _ _ => none

/-- The solution of a pair, if it fits the ends. -/
def matchPair (subject object : TermPattern) (pair : TermPair) : Option Solution := do
  matchTermPattern object pair.2 (← matchTermPattern subject pair.1 .new)

/-- The constant at an end. -/
def boundEnd : TermPattern → Option Term
  | .namedNode n => some (.namedNode n)
  | .literal l => some (.literal l)
  | _ => none

/-- The id of a constant; an open end has none. -/
def internEnd (ds : Dataset) : Option Term → Except PathError (Option Nat)
  | none => .ok none
  | some t => do return some (← intern ds t)

/-- The predicate of `p+` and `p*`, and whether the identity is part of it. -/
def closureOf : PropertyPathExpression → Option (NamedNode × Bool)
  | .oneOrMore (.namedNode p) => some (p, false)
  | .zeroOrMore (.namedNode p) => some (p, true)
  | _ => none

def tryBoundPathRing (fuel : Nat) (ds : Dataset) (ag : GraphSelector) (subject : TermPattern)
    (path : PropertyPathExpression) (object : TermPattern) : Except PathError (List TermPair) :=
  match closureOf path with
  | none => .error .unavailable
  | some (p, includeIdentity) => do
    if !usesRing ds ag || (boundEnd subject).isNone && (boundEnd object).isNone then .error .unavailable
    else
      let pId ← intern ds (.namedNode p)
      let source ← internEnd ds (boundEnd subject)
      let target ← internEnd ds (boundEnd object)
      ringBfsTransitiveBound fuel ds pId source target includeIdentity ag

def tryRpqProductAutomaton (fuel : Nat) (ds : Dataset) (ag : GraphSelector) (subject : TermPattern)
    (path : PropertyPathExpression) (object : TermPattern) : Except PathError (List TermPair) := do
  if !usesRing ds ag then .error .unavailable
  else
    let source ← internEnd ds (boundEnd subject)
    let target ← internEnd ds (boundEnd object)
    ringEvalRpq fuel ds path source target ag

section

variable (fp : Term → Nat) (display : Term → String) (solutionKey : Solution → Nat)

/-- The pair of a constant end with itself, where the path is `*` or `?` and the pair
is not yet among the others. -/
def identityOfEnds (path : PropertyPathExpression) (subject object : TermPattern) (pairs : List TermPair) :
    List TermPair :=
  let text := fun pair : TermPair => display pair.1 ++ "\x00" ++ display pair.2
  let ends := ((boundEnd subject).toList ++ (boundEnd object).toList).map fun t => (t, t)
  match path with
  | .zeroOrMore _ => ends.filter fun pair => text pair ∉ pairs.map text
  | .zeroOrOne _ => ends.filter fun pair => text pair ∉ pairs.map text
  | _ => []

/-- The part of `eval_path` that does not know the ends. -/
def evalPathGeneric (fuel : Nat) (ds : Dataset) (ag : GraphSelector) (subject : TermPattern)
    (path : PropertyPathExpression) (object : TermPattern) : Except PathError (List TermPair) := do
  let pairs ← pathPairs fp display fuel ds ag path
  return pairs ++ identityOfEnds display path subject object pairs

/-- The pairs of a path pattern, by the first evaluator that applies. -/
def evalPathPairs (fuel : Nat) (ds : Dataset) (ag : GraphSelector) (subject : TermPattern)
    (path : PropertyPathExpression) (object : TermPattern) : Except PathError (List TermPair) :=
  orElse (tryBoundPathRing fuel ds ag subject path object)
    (orElse (tryRpqProductAutomaton fuel ds ag subject path object)
      (evalPathGeneric fp display fuel ds ag subject path object))

def evalPath (fuel : Nat) (ds : Dataset) (ag : GraphSelector) (subject : TermPattern)
    (path : PropertyPathExpression) (object : TermPattern) : Except PathError (List Solution) := do
  let pairs ← evalPathPairs fp display fuel ds ag subject path object
  return firstsBy solutionKey [] (pairs.filterMap (matchPair subject object))

end

end Path

end Nova
