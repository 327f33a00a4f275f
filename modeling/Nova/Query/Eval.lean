import Nova.Query.EvalPath
import Nova.Query.Lftj

/-!
# Graph patterns

The recursive walk of the evaluator over the algebra: every operator, the
expressions with `EXISTS`, grouping, federated calls, and the full-text filter that
is pushed into a BGP. The active graph is handed down from the dataset clause and
replaced by `GRAPH` only.

What the functions on terms compute (`Scalars`) is a parameter: comparison,
arithmetic, the built-in functions and the aggregates; the comparison of terms is in
`Nova.Query.Compare`. So are the service handler,
the text index and the optimiser, which are not part of the source. Random and
clock-dependent functions are one fixed function here.

Solutions are sorted by keys that are computed beforehand, so that an expression
that panics is met even where no comparison would come to it. Groups are listed in
the order of their first solution; the source leaves this order open.
-/

namespace Nova

open Nova.Lib

/-! ## The algebra -/

/-- The built-in functions, and those that are named by an IRI. -/
inductive Function where
  | str | lang | langMatches | datatype | iri | bNode | strLang | strDt
  | isIri | isBlank | isLiteral | isNumeric
  | abs | ceil | floor | round | rand
  | concat | subStr | strLen | replace | uCase | lCase | encodeForUri | contains | strStarts | strEnds
  | strBefore | strAfter | regex
  | year | month | day | hours | minutes | seconds | timezone | tz | now
  | md5 | sha1 | sha256 | sha384 | sha512 | uuid | strUuid
  | triple | subject | predicate | object | isTriple | hasLang | hasLangDir | langDir | strLangDir
  | custom (name : NamedNode)
deriving DecidableEq, Repr

inductive AggregateFunction where
  | count | sum | avg | min | max | sample
  | groupConcat (separator : Option String)
  | custom (name : NamedNode)
deriving DecidableEq, Repr

inductive BinaryOp where
  | equal | sameTerm | greater | greaterOrEqual | less | lessOrEqual | add | subtract | multiply
deriving DecidableEq, Repr

mutual
inductive Expression where
  | namedNode (n : NamedNode)
  | literal (l : Literal)
  | var (v : Variable)
  | or (a b : Expression)
  | and (a b : Expression)
  | not (e : Expression)
  | binary (op : BinaryOp) (a b : Expression)
  | divide (a b : Expression)
  | inList (e : Expression) (list : List Expression)
  | unaryPlus (e : Expression)
  | unaryMinus (e : Expression)
  | exists (pattern : GraphPattern)
  | bound (v : Variable)
  | ite (cond thenE elseE : Expression)
  | coalesce (list : List Expression)
  | functionCall (func : Function) (args : List Expression)

inductive OrderExpression where
  | asc (e : Expression)
  | desc (e : Expression)

/-- An aggregate and the variable that it binds. -/
inductive Aggregate where
  | countSolutions (v : Variable) (distinct : Bool)
  | functionCall (v : Variable) (name : AggregateFunction) (e : Expression) (distinct : Bool)

inductive GraphPattern where
  | bgp (patterns : List TriplePattern)
  | path (subject : TermPattern) (path : PropertyPathExpression) (object : TermPattern)
  | join (left right : GraphPattern)
  | leftJoin (left right : GraphPattern) (expression : Option Expression)
  | lateral (left right : GraphPattern)
  | filter (expr : Expression) (inner : GraphPattern)
  | union (left right : GraphPattern)
  | graph (name : NamedNodePattern) (inner : GraphPattern)
  | extend (inner : GraphPattern) (v : Variable) (expression : Expression)
  | minus (left right : GraphPattern)
  | values (vars : List Variable) (bindings : List (List (Option Term)))
  | orderBy (inner : GraphPattern) (expression : List OrderExpression)
  | project (inner : GraphPattern) (vars : List Variable)
  | distinct (inner : GraphPattern)
  | reduced (inner : GraphPattern)
  | slice (inner : GraphPattern) (start : Nat) (length : Option Nat)
  | group (inner : GraphPattern) (vars : List Variable) (aggregates : List Aggregate)
  | service (name : NamedNodePattern) (inner : GraphPattern) (silent : Bool)
end

/-! ## What the evaluator is given -/

/-- The functions on terms and solutions. -/
structure Scalars where
  toEbv : Term → Option Bool
  binary : BinaryOp → Term → Term → Option Term
  /-- `term_as_f64` gives a number, and it is not zero. -/
  isDivisor : Term → Bool
  divide : Term → Term → Option Term
  rdfEqual : Term → Term → Option Bool
  unaryPlus : Term → Option Term
  unaryMinus : Term → Option Term
  /-- `compare_terms_opt`. -/
  compare : Option Term → Option Term → Ordering
  /-- `eval_fn`, without the full-text functions. -/
  call : Function → List (Option Term) → Solution → Option Term
  aggregate : AggregateFunction → Bool → List (Option Term) → Option Term
  countSolutions : Bool → List Solution → Option Term
  display : Term → String
  fp : Term → Nat
  solutionKey : Solution → Nat
  /-- The triples of a template, sorted by their texts, each once. -/
  instantiate : List TriplePattern → List Solution → List (Subject × NamedNode × Term)

structure EvalOptions where
  query : QueryOptions
  unionDefaultGraph : Bool
  /-- `ServiceHandler::handle`. -/
  serviceHandler : Option (NamedNode → GraphPattern → Except String (List Solution))
  /-- `TextSearch::search`: the objects that a query text hits, under a predicate. -/
  textSearch : Option (String → Option Nat → List Nat)

/-- Why an evaluation returns no solutions. -/
inductive QueryError where
  | eval (e : EvalError)
  | path (e : PathError)
  | service (message : String)
  | unsupported (message : String)
deriving DecidableEq, Repr

namespace QueryError

/-- A panic, or a search that goes on: no caller sees it as an `Err`. -/
def raised : QueryError → Bool
  | .eval (.store (.panic _)) => true
  | .path (.store (.panic _)) => true
  | .path .fuel => true
  | _ => false

def ofEval {α : Type} (r : Except EvalError α) : Except QueryError α := r.mapError .eval

def ofPath {α : Type} (r : Except PathError α) : Except QueryError α := r.mapError .path

def ofPanic {α : Type} (r : Except Panic α) : Except QueryError α :=
  r.mapError fun p => .eval (.store (.panic p))

/-- `.ok()`: an error is forgotten. -/
def toOption {α : Type} : Except QueryError α → Except QueryError (Option α)
  | .ok a => .ok (some a)
  | .error e => if e.raised then .error e else .ok none

end QueryError

open QueryError (ofEval ofPath ofPanic toOption)

namespace Eval

def xsdBoolean : NamedNode := ⟨"http://www.w3.org/2001/XMLSchema#boolean"⟩

def boolTerm (b : Bool) : Term := .literal (.newTypedLiteral (if b then "true" else "false") xsdBoolean)

/-! ## Operators on solutions -/

def joinSolutions (left right : List Solution) : List Solution :=
  left.flatMap fun l => right.filterMap l.mergeCompatible

/-- `minus_compatible`: a common variable, and no disagreement. -/
def minusCompatible (l r : Solution) : Bool :=
  (l.iter.any fun cell => (r.get cell.1).isSome) && l.iter.all fun cell => (r.get cell.1).all fun t => cell.2 = t

def valuesRow (vars : List Variable) (row : List (Option Term)) : Solution :=
  (vars.zip row).foldl (fun sol cell =>
    match cell.2 with
    | some t => sol.insert cell.1 t
    | none => sol) .new

/-- The groups, by the texts of the variables. -/
def groupsOf (display : Term → String) (vars : List Variable) (sols : List Solution) :
    List (List Solution) :=
  let key := fun sol : Solution => vars.map fun v => (sol.get v).map display
  let groups := (firsts (sols.map key)).map fun k => sols.filter fun sol => key sol = k
  if groups.isEmpty && vars.isEmpty then [[]] else groups

/-- The variables of a group, as its first solution has them. -/
def groupRow (vars : List Variable) : List Solution → Solution
  | [] => .new
  | first :: _ => vars.foldl (fun sol v =>
      match first.get v with
      | some t => sol.insert v t
      | none => sol) .new

/-- The order of two solutions, by their keys and directions. -/
def compareKeys (compare : Option Term → Option Term → Ordering) :
    List (Option Term × Bool) → List (Option Term × Bool) → Ordering
  | (a, asc) :: as, (b, _) :: bs =>
    match if asc then compare a b else (compare a b).swap with
    | .eq => compareKeys compare as bs
    | o => o
  | _, _ => .eq

/-- A solution of `GRAPH ?g`, joined with the name of the graph. -/
def joinGraphName (v : Variable) (n : NamedNode) (sol : Solution) : Option Solution :=
  match sol.get v with
  | none => some (sol.insert v (.namedNode n))
  | some t => if t = .namedNode n then some sol else none

/-! ## Full-text search -/

inductive TextFn where
  | query
  | contains
deriving DecidableEq, Repr

def textNs : String := "http://oxigraph-nova.dev/fn/text#"

/-- `text_function_local`. -/
def textFunctionLocal (n : NamedNode) : Option TextFn :=
  if n.iri = textNs ++ "query" then some .query
  else if n.iri = textNs ++ "contains" then some .contains
  else none

/-- A text with a backslash before each backslash and quote. -/
def escapeText (raw : String) : String :=
  String.ofList (raw.toList.flatMap fun c => if c = '\\' ∨ c = '"' then ['\\', c] else [c])

def TextFn.effectiveQuery : TextFn → String → String
  | .query, raw => raw
  | .contains, raw => "\"" ++ escapeText raw ++ "\""

/-- `text_search_call`. -/
def textSearchCall : Expression → Option (Variable × String × TextFn)
  | .functionCall (.custom n) [.var v, .literal l] => (textFunctionLocal n).map fun mode => (v, l.value, mode)
  | _ => none

def strVal : Term → Option String
  | .namedNode n => some n.iri
  | .literal l => some l.value
  | _ => none

def Term.isLiteral : Term → Bool
  | .literal _ => true
  | _ => false

/-- `eval_text_scalar`. -/
def evalTextScalar (options : EvalOptions) (ds : Dataset) (term : Option Term) (query : Option String)
    (mode : TextFn) : Except QueryError (Option Term) :=
  match options.textSearch, term, query with
  | some search, some t, some q => do
    if !Term.isLiteral t then return some (boolTerm false)
    else
      match ← ofPanic (ds.lftjInternTerm t) with
      | none => return none
      | some id => return some (boolTerm (id ∈ search (mode.effectiveQuery q) none))
  | _, _, _ => .ok none

def termPatternOf : Term → TermPattern
  | .namedNode n => .namedNode n
  | .blankNode b => .blankNode b
  | .literal l => .literal l
  | .triple s p o => .triple (match s with
      | .namedNode n => .namedNode n
      | .blankNode b => .blankNode b) (.namedNode p) (termPatternOf o)

/-- `substitute_var_in_term_pattern`. -/
def substituteVarInTermPattern (v : Variable) (t : Term) : TermPattern → TermPattern
  | .var w => if w = v then termPatternOf t else .var w
  | .triple s p o => .triple (substituteVarInTermPattern v t s) p (substituteVarInTermPattern v t o)
  | tp => tp

def substituteVarInTriplePattern (v : Variable) (t : Term) (tp : TriplePattern) : TriplePattern :=
  ⟨substituteVarInTermPattern v t tp.subject, tp.predicate, substituteVarInTermPattern v t tp.object⟩

/-- `eval_bgp_with_bound_var`. -/
def evalBgpWithBoundVar (options : EvalOptions) (ds : Dataset) (patterns : List TriplePattern) (v : Variable)
    (t : Term) (ag : GraphSelector) : Except QueryError (List Solution) := do
  let sols ← ofEval (evalBgp ds options.query (patterns.map (substituteVarInTriplePattern v t)) ag)
  return sols.filterMap fun sol =>
    match sol.get v with
    | none => some (sol.insert v t)
    | some bound => if bound = t then some sol else none

/-- The first predicate of the variable that has an id. -/
def textPredicateId (ds : Dataset) (v : Variable) : List TriplePattern → Except QueryError (Option Nat)
  | [] => .ok none
  | tp :: rest => do
    if tp.object = .var v then
      match tp.predicate with
      | .namedNode p =>
        match ← ofPanic (ds.lftjInternTerm (.namedNode p)) with
        | some id => return some id
        | none => textPredicateId ds v rest
      | .var _ => textPredicateId ds v rest
    else textPredicateId ds v rest

/-- The hits one by one: each is put in the place of the variable. -/
def evalHits (options : EvalOptions) (ds : Dataset) (patterns : List TriplePattern) (v : Variable)
    (ag : GraphSelector) : List Nat → Except QueryError (List Solution)
  | [] => .ok []
  | id :: rest => do
    match ← ofPanic (ds.lftjDecodeTerm id) with
    | none => evalHits options ds patterns v ag rest
    | some t =>
      let now ← evalBgpWithBoundVar options ds patterns v t ag
      let next ← evalHits options ds patterns v ag rest
      return now ++ next

/-- `try_text_search_pushdown`; `none` if there is nothing to push. -/
def tryTextSearchPushdown (options : EvalOptions) (ds : Dataset) (expr : Expression) (inner : GraphPattern)
    (ag : GraphSelector) : Except QueryError (Option (List Solution)) :=
  match options.textSearch, textSearchCall expr, inner with
  | some search, some (v, q, mode), .bgp patterns => do
    let predicateId ← textPredicateId ds v patterns
    if patterns.any fun tp => tp.object = .var v then
      return some (← evalHits options ds patterns v ag (firsts (search (mode.effectiveQuery q) predicateId)))
    else return none
  | _, _, _ => .ok none

/-! ## The walk -/

/-- `let a = ..?; let b = ..?;` -/
def bothThen (a b : Except QueryError (Option Term)) (f : Term → Term → Except QueryError (Option Term)) :
    Except QueryError (Option Term) := do
  match ← a with
  | none => return none
  | some av =>
    match ← b with
    | none => return none
    | some bv => f av bv

/-- The effective boolean value of an expression. -/
def ebvOf (scalars : Scalars) (a : Except QueryError (Option Term)) : Except QueryError (Option Bool) := do
  return (← a).bind scalars.toEbv

def orEbv : Option Bool → Option Bool → Option Bool
  | some true, _ => some true
  | _, some true => some true
  | some false, some false => some false
  | _, _ => none

def andEbv : Option Bool → Option Bool → Option Bool
  | some false, _ => some false
  | _, some false => some false
  | some true, some true => some true
  | _, _ => none

/-- The matches of one left solution, or the solution itself. -/
def leftJoinOne (right : List Solution) (passes : Solution → Except QueryError Bool) (l : Solution) :
    Except QueryError (List Solution) := do
  let joined ← (right.filterMap l.mergeCompatible).filterM passes
  return if joined.isEmpty then [l] else joined

/-- `eval_service`. -/
def evalService (options : EvalOptions) (name : NamedNodePattern) (inner : GraphPattern) :
    Except QueryError (List Solution) :=
  match options.serviceHandler, name with
  | none, _ => .error (.service "SERVICE (federated queries) not supported: no ServiceHandler configured (see QueryOptions::with_service_handler)")
  | some _, .var _ => .error (.service "SERVICE with a variable service name is not supported")
  | some handle, .namedNode n => (handle n inner).mapError .service

mutual
/-- `eval_pattern`. -/
def evalPattern (scalars : Scalars) (options : EvalOptions) (fuel : Nat) (ds : Dataset) :
    GraphPattern → GraphSelector → Except QueryError (List Solution)
  | .bgp patterns, ag => ofEval (evalBgp ds options.query patterns ag)
  | .path subject path object, ag =>
    ofPath (Path.evalPath scalars.fp scalars.display scalars.solutionKey fuel ds ag subject path object)
  | .join left right, ag => do
    let ls ← evalPattern scalars options fuel ds left ag
    let rs ← evalPattern scalars options fuel ds right ag
    return joinSolutions ls rs
  | .leftJoin left right expression, ag => do
    let ls ← evalPattern scalars options fuel ds left ag
    let rs ← evalPattern scalars options fuel ds right ag
    let joined ← ls.mapM (leftJoinOne rs fun sol => evalCondition scalars options fuel ds expression sol ag)
    return joined.flatten
  | .lateral left right, ag => do
    let ls ← evalPattern scalars options fuel ds left ag
    -- the right side is evaluated once for each left solution
    if ls.isEmpty then return []
    else
      let rs ← evalPattern scalars options fuel ds right ag
      return joinSolutions ls rs
  | .filter expr inner, ag => do
    match ← tryTextSearchPushdown options ds expr inner ag with
    | some sols => return sols
    | none =>
      let sols ← evalPattern scalars options fuel ds inner ag
      sols.filterM fun sol => do
        return (← ebvOf scalars (evalExpr scalars options fuel ds expr sol ag)).getD false
  | .union left right, ag => do
    let ls ← evalPattern scalars options fuel ds left ag
    let rs ← evalPattern scalars options fuel ds right ag
    return ls ++ rs
  | .graph (.namedNode n) inner, _ => evalPattern scalars options fuel ds inner (.named (.namedNode n))
  | .graph (.var v) inner, _ => do
    let names ← ofEval (ds.namedGraphs.mapError EvalError.store)
    let results ← names.mapM fun
      | .namedNode n => do
        let sols ← evalPattern scalars options fuel ds inner (.named (.namedNode n))
        return sols.filterMap (joinGraphName v n)
      | _ => .ok []
    return results.flatten
  | .extend inner v expression, ag => do
    let sols ← evalPattern scalars options fuel ds inner ag
    sols.mapM fun sol => do
      match ← evalExpr scalars options fuel ds expression sol ag with
      | some t => return if sol.contains v then sol else sol.insert v t
      | none => return sol
  | .minus left right, ag => do
    let ls ← evalPattern scalars options fuel ds left ag
    let rs ← evalPattern scalars options fuel ds right ag
    return ls.filter fun l => !rs.any (minusCompatible l)
  | .values vars bindings, _ => .ok (bindings.map (valuesRow vars))
  | .orderBy inner expression, ag => do
    let sols ← evalPattern scalars options fuel ds inner ag
    if sols.length < 2 then return sols
    else
      let keyed ← sols.mapM fun sol => do return (← orderKeys scalars options fuel ds expression sol ag, sol)
      return (keyed.mergeSort fun a b => compareKeys scalars.compare a.1 b.1 ≠ .gt).map Prod.snd
  | .project inner vars, ag => do
    let sols ← evalPattern scalars options fuel ds inner ag
    return sols.map fun sol => sol.project vars
  | .distinct inner, ag => do
    let sols ← evalPattern scalars options fuel ds inner ag
    return firstsBy scalars.solutionKey [] sols
  | .reduced inner, ag => evalPattern scalars options fuel ds inner ag
  | .slice inner start length, ag => do
    let sols ← evalPattern scalars options fuel ds inner ag
    return match length with
      | some n => (sols.drop start).take n
      | none => sols.drop start
  | .group inner vars aggregates, ag => do
    let sols ← evalPattern scalars options fuel ds inner ag
    (groupsOf scalars.display vars sols).mapM fun group =>
      evalAggregates scalars options fuel ds aggregates group (groupRow vars group) ag
  | .service name inner silent, _ =>
    match evalService options name inner with
    | .error e => if silent then .ok [] else .error e
    | .ok sols => .ok sols

/-- The condition of an optional part. -/
def evalCondition (scalars : Scalars) (options : EvalOptions) (fuel : Nat) (ds : Dataset) :
    Option Expression → Solution → GraphSelector → Except QueryError Bool
  | none, _, _ => .ok true
  | some e, sol, ag => do return (← ebvOf scalars (evalExpr scalars options fuel ds e sol ag)).getD false

/-- `eval_expr`: `none` is an error of the expression. -/
def evalExpr (scalars : Scalars) (options : EvalOptions) (fuel : Nat) (ds : Dataset) :
    Expression → Solution → GraphSelector → Except QueryError (Option Term)
  | .namedNode n, _, _ => .ok (some (.namedNode n))
  | .literal l, _, _ => .ok (some (.literal l))
  | .var v, sol, _ => .ok (sol.get v)
  | .or a b, sol, ag => do
    let ae ← ebvOf scalars (evalExpr scalars options fuel ds a sol ag)
    let be ← ebvOf scalars (evalExpr scalars options fuel ds b sol ag)
    return (orEbv ae be).map boolTerm
  | .and a b, sol, ag => do
    let ae ← ebvOf scalars (evalExpr scalars options fuel ds a sol ag)
    let be ← ebvOf scalars (evalExpr scalars options fuel ds b sol ag)
    return (andEbv ae be).map boolTerm
  | .not e, sol, ag => do
    let b ← ebvOf scalars (evalExpr scalars options fuel ds e sol ag)
    return b.map fun b => boolTerm (!b)
  | .binary op a b, sol, ag =>
    bothThen (evalExpr scalars options fuel ds a sol ag) (evalExpr scalars options fuel ds b sol ag)
      fun av bv => .ok (scalars.binary op av bv)
  | .divide a b, sol, ag => do
    -- the divisor first
    match ← evalExpr scalars options fuel ds b sol ag with
    | none => return none
    | some bv =>
      if !scalars.isDivisor bv then return none
      else return (← evalExpr scalars options fuel ds a sol ag).bind fun av => scalars.divide av bv
  | .inList e list, sol, ag => do
    match ← evalExpr scalars options fuel ds e sol ag with
    | none => return none
    | some t => evalIn scalars options fuel ds t false list sol ag
  | .unaryPlus e, sol, ag => do return (← evalExpr scalars options fuel ds e sol ag).bind scalars.unaryPlus
  | .unaryMinus e, sol, ag => do return (← evalExpr scalars options fuel ds e sol ag).bind scalars.unaryMinus
  | .exists pattern, sol, ag => do
    match ← toOption (evalPattern scalars options fuel ds pattern ag) with
    | none => return none
    | some candidates => return some (boolTerm (candidates.any fun c => (sol.mergeCompatible c).isSome))
  | .bound v, sol, _ => .ok (some (boolTerm (sol.contains v)))
  | .ite cond thenE elseE, sol, ag => do
    match ← ebvOf scalars (evalExpr scalars options fuel ds cond sol ag) with
    | some true => evalExpr scalars options fuel ds thenE sol ag
    | some false => evalExpr scalars options fuel ds elseE sol ag
    | none => return none
  | .coalesce list, sol, ag => evalCoalesce scalars options fuel ds list sol ag
  | .functionCall func args, sol, ag => do
    let values ← evalArgs scalars options fuel ds args sol ag
    match func with
    | .custom n =>
      match textFunctionLocal n with
      | some mode => evalTextScalar options ds (values[0]?).join (((values[1]?).join).bind strVal) mode
      | none => return scalars.call func values sol
    | _ => return scalars.call func values sol

/-- The loop of `IN`. -/
def evalIn (scalars : Scalars) (options : EvalOptions) (fuel : Nat) (ds : Dataset) (t : Term) (hadErr : Bool) :
    List Expression → Solution → GraphSelector → Except QueryError (Option Term)
  | [], _, _ => .ok (if hadErr then none else some (boolTerm false))
  | e :: rest, sol, ag => do
    match ← evalExpr scalars options fuel ds e sol ag with
    | none => evalIn scalars options fuel ds t true rest sol ag
    | some item =>
      if scalars.rdfEqual t item = some true then return some (boolTerm true)
      else evalIn scalars options fuel ds t hadErr rest sol ag

def evalCoalesce (scalars : Scalars) (options : EvalOptions) (fuel : Nat) (ds : Dataset) :
    List Expression → Solution → GraphSelector → Except QueryError (Option Term)
  | [], _, _ => .ok none
  | e :: rest, sol, ag => do
    match ← evalExpr scalars options fuel ds e sol ag with
    | some t => return some t
    | none => evalCoalesce scalars options fuel ds rest sol ag

def evalArgs (scalars : Scalars) (options : EvalOptions) (fuel : Nat) (ds : Dataset) :
    List Expression → Solution → GraphSelector → Except QueryError (List (Option Term))
  | [], _, _ => .ok []
  | e :: rest, sol, ag => do
    let t ← evalExpr scalars options fuel ds e sol ag
    let ts ← evalArgs scalars options fuel ds rest sol ag
    return t :: ts

def orderKeys (scalars : Scalars) (options : EvalOptions) (fuel : Nat) (ds : Dataset) :
    List OrderExpression → Solution → GraphSelector → Except QueryError (List (Option Term × Bool))
  | [], _, _ => .ok []
  | oe :: rest, sol, ag => do
    let key ← orderKey scalars options fuel ds oe sol ag
    let keys ← orderKeys scalars options fuel ds rest sol ag
    return key :: keys

/-- The value of an order expression, and whether it ascends. -/
def orderKey (scalars : Scalars) (options : EvalOptions) (fuel : Nat) (ds : Dataset) :
    OrderExpression → Solution → GraphSelector → Except QueryError (Option Term × Bool)
  | .asc e, sol, ag => do return (← evalExpr scalars options fuel ds e sol ag, true)
  | .desc e, sol, ag => do return (← evalExpr scalars options fuel ds e sol ag, false)

/-- The aggregates of one group, bound one after the other. -/
def evalAggregates (scalars : Scalars) (options : EvalOptions) (fuel : Nat) (ds : Dataset) :
    List Aggregate → List Solution → Solution → GraphSelector → Except QueryError Solution
  | [], _, row, _ => .ok row
  | agg :: rest, group, row, ag => do
    let row ← evalAggregate scalars options fuel ds agg group row ag
    evalAggregates scalars options fuel ds rest group row ag

def evalAggregate (scalars : Scalars) (options : EvalOptions) (fuel : Nat) (ds : Dataset) :
    Aggregate → List Solution → Solution → GraphSelector → Except QueryError Solution
  | .countSolutions v distinct, group, row, _ =>
    .ok (match scalars.countSolutions distinct group with
      | some t => row.insert v t
      | none => row)
  | .functionCall v name e distinct, group, row, ag => do
    let values ← group.mapM fun sol => evalExpr scalars options fuel ds e sol ag
    return match scalars.aggregate name distinct values with
      | some t => row.insert v t
      | none => row
end

/-! ## Queries -/

/-- `QueryDataset`: the graphs of `FROM` and of `FROM NAMED`. -/
structure QueryDataset where
  default : List NamedNode
  named : Option (List NamedNode)
deriving DecidableEq, Repr

inductive Query where
  | select (dataset : Option QueryDataset) (pattern : GraphPattern)
  | construct (dataset : Option QueryDataset) (template : List TriplePattern) (pattern : GraphPattern)
  | describe (dataset : Option QueryDataset) (pattern : GraphPattern)
  | ask (dataset : Option QueryDataset) (pattern : GraphPattern)

inductive QueryResult where
  | solutions (vars : List Variable) (sols : List Solution)
  | boolean (b : Bool)
  | triples (triples : List (Subject × NamedNode × Term))
deriving DecidableEq, Repr

/-- `dataset_clause_selector`; the graphs of `FROM NAMED` are not read. -/
def datasetClauseSelector (dataset : Option QueryDataset) (unionDefaultGraph : Bool) : GraphSelector :=
  match dataset with
  | none => if unionDefaultGraph then .union else .default
  | some ds => .unionOf (ds.default.map .namedNode)

/-- `contains_variable_graph`. -/
def containsVariableGraph : GraphPattern → Bool
  | .graph (.var _) _ => true
  | .graph (.namedNode _) inner => containsVariableGraph inner
  | .join left right => containsVariableGraph left || containsVariableGraph right
  | .union left right => containsVariableGraph left || containsVariableGraph right
  | .minus left right => containsVariableGraph left || containsVariableGraph right
  | .lateral left right => containsVariableGraph left || containsVariableGraph right
  | .leftJoin left right _ => containsVariableGraph left || containsVariableGraph right
  | .filter _ inner => containsVariableGraph inner
  | .extend inner _ _ => containsVariableGraph inner
  | .orderBy inner _ => containsVariableGraph inner
  | .project inner _ => containsVariableGraph inner
  | .distinct inner => containsVariableGraph inner
  | .reduced inner => containsVariableGraph inner
  | .slice inner _ _ => containsVariableGraph inner
  | .group inner _ _ => containsVariableGraph inner
  | .bgp _ => false
  | .path _ _ _ => false
  | .values _ _ => false
  | .service _ _ _ => false

/-- `optimize_pattern`, where `optimize` is the optimiser of the algebra. -/
def optimizePattern (optimize : GraphPattern → GraphPattern) (pattern : GraphPattern) : GraphPattern :=
  if containsVariableGraph pattern then pattern else optimize pattern

/-- `projected_variables` of a `SELECT`. -/
def extractProjectVars : GraphPattern → List Variable
  | .project _ vars => vars
  | .distinct inner => extractProjectVars inner
  | .reduced inner => extractProjectVars inner
  | .orderBy inner _ => extractProjectVars inner
  | .slice inner _ _ => extractProjectVars inner
  | _ => []

/-- The solutions of the pattern of a query. -/
def evalQueryPattern (scalars : Scalars) (options : EvalOptions) (optimize : GraphPattern → GraphPattern)
    (fuel : Nat) (ds : Dataset) (dataset : Option QueryDataset) (pattern : GraphPattern) :
    Except QueryError (List Solution) :=
  evalPattern scalars options fuel ds (optimizePattern optimize pattern)
    (datasetClauseSelector dataset options.unionDefaultGraph)

def evaluate (scalars : Scalars) (options : EvalOptions) (optimize : GraphPattern → GraphPattern) (fuel : Nat)
    (ds : Dataset) : Query → Except QueryError QueryResult
  | .select dataset pattern => do
    let sols ← evalQueryPattern scalars options optimize fuel ds dataset pattern
    return .solutions (extractProjectVars pattern) sols
  | .ask dataset pattern => do
    let sols ← evalQueryPattern scalars options optimize fuel ds dataset pattern
    return .boolean !sols.isEmpty
  | .construct dataset template pattern => do
    let sols ← evalQueryPattern scalars options optimize fuel ds dataset pattern
    return .triples (scalars.instantiate template sols)
  | .describe _ _ => .error (.unsupported "DESCRIBE evaluation not implemented")

end Eval

end Nova
