import Nova.Query.Path

/-!
# Property paths over the index

Two searches over term ids that do not list the pairs of every operator. A path
`p+` or `p*` with a constant end is searched from that end, or from both ends until
the searches meet. A composed path is compiled to an automaton, and the pairs of a
node and a state are searched.

A hash set of ids is a list here, in the order of insertion; the source leaves the
order open.
-/

namespace Nova

open Nova.Lib
open PathError (ofPanic ofOption)

namespace Path

/-! ## Closures with a bound end -/

/-- The neighbours along one predicate, forwards and backwards. -/
def successors (ds : Dataset) (pId : Nat) (ag : GraphSelector) (x : Nat) : Except PathError Scan :=
  scan ds (some x) (some pId) none 2 ag

def predecessors (ds : Dataset) (pId : Nat) (ag : GraphSelector) (x : Nat) : Except PathError Scan :=
  scan ds none (some pId) (some x) 0 ag

/-- The pairs of a list of ids with terms; an id without a term is passed over. -/
def decodedPairs (ds : Dataset) (pair : Term → TermPair) (ids : List Nat) : Except PathError (List TermPair) := do
  return (← decodeAll ds ids).map pair

/-- `ring_bfs_transitive_backward`. -/
def ringBfsTransitiveBackward (fuel : Nat) (ds : Dataset) (pId target : Nat) (includeIdentity : Bool)
    (ag : GraphSelector) : Except PathError (List TermPair) := do
  let targetTerm ← ofOption (← decode ds target)
  let st ← Search.run id (predecessors ds pId ag) .fuel fuel ⟨[target], [target], []⟩
  let pairs ← decodedPairs ds (fun s => (s, targetTerm)) st.found
  return (if includeIdentity then [(targetTerm, targetTerm)] else []) ++ pairs

/-- One side of a search from both ends. -/
structure Side where
  visited : List Nat
  frontier : List Nat

def Side.start (x : Nat) : Side := ⟨[x], [x]⟩

def Side.visit (side : Side) (x : Nat) : Side :=
  if x ∈ side.visited then side else ⟨x :: side.visited, side.frontier ++ [x]⟩

/-- Expands a layer; `none` as soon as it meets the other side. -/
def expandLayer (next : Nat → Except PathError Scan) (other : List Nat) :
    List Nat → Side → Except PathError (Option Side)
  | [], side => .ok (some side)
  | x :: layer, side => do
    let ys ← next x
    if ys.any fun y => y ∈ other then return none
    else expandLayer next other layer (ys.foldl Side.visit side)

def Side.expand (next : Nat → Except PathError Scan) (other : List Nat) (side : Side) :
    Except PathError (Option Side) :=
  expandLayer next other side.frontier { side with frontier := [] }

/-- A layer of each side, the one with the smaller frontier first; `none` if the sides
meet. -/
def expandBoth (ds : Dataset) (pId : Nat) (ag : GraphSelector) (fwd bwd : Side) :
    Except PathError (Option (Side × Side)) := do
  if fwd.frontier.length ≤ bwd.frontier.length then
    match ← fwd.expand (successors ds pId ag) bwd.visited with
    | none => return none
    | some fwd =>
      match ← bwd.expand (predecessors ds pId ag) fwd.visited with
      | none => return none
      | some bwd => return some (fwd, bwd)
  else
    match ← bwd.expand (predecessors ds pId ag) fwd.visited with
    | none => return none
    | some bwd =>
      match ← fwd.expand (successors ds pId ag) bwd.visited with
      | none => return none
      | some fwd => return some (fwd, bwd)

/-- The loop of `bidirectional_reachable`. -/
def bidirectionalLoop (ds : Dataset) (pId : Nat) (ag : GraphSelector) :
    Nat → Side → Side → Except PathError Bool
  | 0, _, _ => .error .fuel
  | fuel + 1, fwd, bwd => do
    if fwd.frontier.isEmpty && bwd.frontier.isEmpty then return false
    else
      match ← expandBoth ds pId ag fwd bwd with
      | none => return true
      | some (fwd, bwd) => bidirectionalLoop ds pId ag fuel fwd bwd

def bidirectionalReachable (fuel : Nat) (ds : Dataset) (pId source target : Nat) (ag : GraphSelector) :
    Except PathError Bool :=
  bidirectionalLoop ds pId ag fuel (.start source) (.start target)

/-- `ring_bfs_transitive_bound`. -/
def ringBfsTransitiveBound (fuel : Nat) (ds : Dataset) (pId : Nat) (source target : Option Nat)
    (includeIdentity : Bool) (ag : GraphSelector) : Except PathError (List TermPair) :=
  match source, target with
  | some s, some t => do
    if ← bidirectionalReachable fuel ds pId s t ag then
      return [(← ofOption (← decode ds s), ← ofOption (← decode ds t))]
    else if includeIdentity && s = t then
      let term ← ofOption (← decode ds s)
      return [(term, term)]
    else return []
  | some s, none => ringBfsTransitive fuel ds pId [s] includeIdentity ag
  | none, some t => ringBfsTransitiveBackward fuel ds pId t includeIdentity ag
  | none, none => .error .unavailable

/-! ## The automaton of a path -/

/-- `Edge`: a transition and the state that it leads to. -/
inductive Edge where
  | fwd (p : NamedNode) (next : Nat)
  | rev (p : NamedNode) (next : Nat)
  | negFwd (excluded : List NamedNode) (next : Nat)
  | negRev (excluded : List NamedNode) (next : Nat)
  | eps (next : Nat)
deriving DecidableEq, Repr

/-- A part of the automaton: its states are those from the first up to `next`, its
transitions are given with the states that they leave. -/
structure Fragment where
  start : Nat
  accept : Nat
  next : Nat
  edges : List (Nat × Edge)
deriving DecidableEq, Repr

/-- Two fresh states and the transition between them. -/
def leaf (n : Nat) (edge : Nat → Edge) : Fragment := ⟨n, n + 1, n + 2, [(n, edge (n + 1))]⟩

/-- `Nfa::compile`, where `n` is the first free state. -/
def compile : PropertyPathExpression → Nat → Except Panic Fragment
  | .namedNode p, n => .ok (leaf n (.fwd p))
  | .reverse (.namedNode p), n => .ok (leaf n (.rev p))
  | .reverse (.negatedPropertySet ps), n => .ok (leaf n (.negRev ps))
  | .reverse _, _ => .error (.unreachable "path must be pre-normalized via normalize_reverse")
  | .negatedPropertySet ps, n => .ok (leaf n (.negFwd ps))
  | .sequence a b, n => do
    let a ← compile a n
    let b ← compile b a.next
    return ⟨a.start, b.accept, b.next, a.edges ++ b.edges ++ [(a.accept, .eps b.start)]⟩
  | .alternative a b, n => do
    let a ← compile a (n + 2)
    let b ← compile b a.next
    return ⟨n, n + 1, b.next, a.edges ++ b.edges ++
      [(n, .eps a.start), (n, .eps b.start), (a.accept, .eps (n + 1)), (b.accept, .eps (n + 1))]⟩
  | .zeroOrMore e, n => do
    let i ← compile e (n + 2)
    return ⟨n, n + 1, i.next, i.edges ++
      [(n, .eps i.start), (n, .eps (n + 1)), (i.accept, .eps i.start), (i.accept, .eps (n + 1))]⟩
  | .oneOrMore e, n => do
    let i ← compile e (n + 2)
    return ⟨n, n + 1, i.next, i.edges ++
      [(n, .eps i.start), (i.accept, .eps i.start), (i.accept, .eps (n + 1))]⟩
  | .zeroOrOne e, n => do
    let i ← compile e (n + 2)
    return ⟨n, n + 1, i.next, i.edges ++
      [(n, .eps i.start), (n, .eps (n + 1)), (i.accept, .eps (n + 1))]⟩

/-- `normalize_reverse` of a path, or of its reverse: `Reverse` is pushed down to the
leaves. -/
def pushReverse : Bool → PropertyPathExpression → PropertyPathExpression
  | false, .namedNode p => .namedNode p
  | true, .namedNode p => .reverse (.namedNode p)
  | false, .negatedPropertySet ps => .negatedPropertySet ps
  | true, .negatedPropertySet ps => .reverse (.negatedPropertySet ps)
  | rev, .reverse e => pushReverse (!rev) e
  | false, .sequence a b => .sequence (pushReverse false a) (pushReverse false b)
  | true, .sequence a b => .sequence (pushReverse true b) (pushReverse true a)
  | rev, .alternative a b => .alternative (pushReverse rev a) (pushReverse rev b)
  | rev, .zeroOrMore e => .zeroOrMore (pushReverse rev e)
  | rev, .oneOrMore e => .oneOrMore (pushReverse rev e)
  | rev, .zeroOrOne e => .zeroOrOne (pushReverse rev e)

def normalizeReverse (e : PropertyPathExpression) : PropertyPathExpression := pushReverse false e

/-- `is_simple_predicate_path`. -/
def isSimplePredicatePath : PropertyPathExpression → Bool
  | .namedNode _ => true
  | .oneOrMore (.namedNode _) => true
  | .zeroOrMore (.namedNode _) => true
  | _ => false

/-! ## The search of pairs of a node and a state -/

/-- The transitions that leave a state. -/
def outgoing (edges : List (Nat × Edge)) (state : Nat) : List Edge :=
  (edges.filter fun e => e.1 = state).map Prod.snd

def epsTargets (edges : List (Nat × Edge)) (state : Nat) : List Nat :=
  (outgoing edges state).filterMap fun
    | .eps next => some next
    | _ => none

/-- `epsilon_closure` of one state. -/
def epsilonClosure (fuel : Nat) (edges : List (Nat × Edge)) (state : Nat) : Except PathError (List Nat) := do
  let st ← Search.run id (fun s => .ok (epsTargets edges s)) .fuel fuel ⟨[state], [state], []⟩
  return state :: st.found

def excludedIds (ds : Dataset) : List NamedNode → Except PathError (List Nat)
  | [] => .ok []
  | p :: ps => do
    let id ← ofPanic (ds.lftjInternTerm (.namedNode p))
    let ids ← excludedIds ds ps
    return id.toList ++ ids

/-- The nodes that one transition leads to, each with the next state. -/
def follow (ds : Dataset) (ag : GraphSelector) (node : Nat) : Edge → Except PathError (List (Nat × Nat))
  | .eps _ => .ok []
  | .fwd p next => do
    match ← ofPanic (ds.lftjInternTerm (.namedNode p)) with
    | none => return []
    | some pId => return (← successors ds pId ag node).map fun y => (y, next)
  | .rev p next => do
    match ← ofPanic (ds.lftjInternTerm (.namedNode p)) with
    | none => return []
    | some pId => return (← predecessors ds pId ag node).map fun y => (y, next)
  | .negFwd excluded next => do
    let ids ← excludedIds ds excluded
    let preds ← scan ds (some node) none none 1 ag
    let objects ← (preds.filter fun p => p ∉ ids).mapM fun p => successors ds p ag node
    return objects.flatten.map fun y => (y, next)
  | .negRev excluded next => do
    let ids ← excludedIds ds excluded
    let preds ← scan ds none none (some node) 1 ag
    let subjects ← (preds.filter fun p => p ∉ ids).mapM fun p => predecessors ds p ag node
    return subjects.flatten.map fun y => (y, next)

/-- A node in all states of the closure of one. -/
def inClosure (fuel : Nat) (edges : List (Nat × Edge)) (x : Nat × Nat) : Except PathError (List (Nat × Nat)) := do
  return (← epsilonClosure fuel edges x.2).map fun state => (x.1, state)

def productSuccessors (fuel : Nat) (ds : Dataset) (ag : GraphSelector) (edges : List (Nat × Edge))
    (x : Nat × Nat) : Except PathError (List (Nat × Nat)) := do
  let reached ← (outgoing edges x.2).mapM (follow ds ag x.1)
  return (← reached.flatten.mapM (inClosure fuel edges)).flatten

/-- `product_bfs`: the nodes reached in the accepting state. -/
def productBfs (fuel : Nat) (ds : Dataset) (ag : GraphSelector) (nfa : Fragment) (start : Nat) :
    Except PathError (List Nat) := do
  let starts ← inClosure fuel nfa.edges (start, nfa.start)
  let st ← Search.run id (productSuccessors fuel ds ag nfa.edges) .fuel fuel
    (Search.visitAll id ⟨[], [], []⟩ starts)
  return (st.found.filter fun x => x.2 = nfa.accept).map Prod.fst

/-- `ring_eval_rpq`. -/
def ringEvalRpq (fuel : Nat) (ds : Dataset) (path : PropertyPathExpression) (source target : Option Nat)
    (ag : GraphSelector) : Except PathError (List TermPair) := do
  if isSimplePredicatePath path then .error .unavailable
  else
    match source, target with
    | some s, t =>
      let nfa ← ofPanic (compile (normalizeReverse path) 0)
      let ids ← productBfs fuel ds ag nfa s
      let sTerm ← ofOption (← decode ds s)
      decodedPairs ds (fun o => (sTerm, o)) (ids.filter fun id => t.all fun t => id = t)
    | none, some t =>
      let nfa ← ofPanic (compile (normalizeReverse (.reverse path)) 0)
      let ids ← productBfs fuel ds ag nfa t
      let tTerm ← ofOption (← decode ds t)
      decodedPairs ds (fun s => (s, tTerm)) ids
    | none, none =>
      let nfa ← ofPanic (compile (normalizeReverse path) 0)
      let starts ← ringAllNodeIds ds ag
      let pairs ← starts.mapM fun s => do
        let ids ← productBfs fuel ds ag nfa s
        match ← decode ds s with
        | none => return []
        | some sTerm => decodedPairs ds (fun o => (sTerm, o)) ids
      return pairs.flatten

end Path

end Nova
