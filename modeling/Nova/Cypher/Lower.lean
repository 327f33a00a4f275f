import Nova.Cypher.Ast
import Nova.Query.Contract

/-!
# Lowering write statements

A write statement becomes a list of DELETE/INSERT operations. `MATCH` and `WHERE`
give the pattern that all of them start from; it is fixed before the first clause is
lowered (`lowerMatch`). A triple pattern that a clause's own expression adds to the
context afterwards stands in no operation.

A hash map is a list of entries here, the last one inserted first. Whether a name is
a variable name (`Variable::new`) is left open.
-/

namespace Nova

namespace Cypher

open Update (DeleteInsert GroundQuadPattern GroundTermPattern)

def labelNs : String := "http://oxigraph-nova.dev/cypher/label/"
def relNs : String := "http://oxigraph-nova.dev/cypher/rel/"
def propNs : String := "http://oxigraph-nova.dev/cypher/prop/"

def rdfType : NamedNode := ⟨"http://www.w3.org/1999/02/22-rdf-syntax-ns#type"⟩
def xsdInteger : NamedNode := ⟨"http://www.w3.org/2001/XMLSchema#integer"⟩
def xsdDouble : NamedNode := ⟨"http://www.w3.org/2001/XMLSchema#double"⟩

def labelIri (label : String) : NamedNode := ⟨labelNs ++ label⟩
def relIri (relType : String) : NamedNode := ⟨relNs ++ relType⟩
def propIri (prop : String) : NamedNode := ⟨propNs ++ prop⟩

/-- What a relationship variable stands for: the variable of the predicate, or the
type. -/
inductive RelBinding where
  | var (v : Variable)
  | const (n : NamedNode)
deriving DecidableEq, Repr

structure LowerCtx where
  nodeVars : List (String × Variable)
  relVars : List (String × RelBinding)
  relEndpoints : List (String × Variable × Variable)
  propVars : List ((String × String) × Variable)
  triples : List TriplePattern
  paths : List PathBetween
  anonCounter : Nat

namespace LowerCtx

/-- `LowerCtx::default`. -/
def new : LowerCtx := ⟨[], [], [], [], [], [], 0⟩

/-- The name of the `n`-th generated variable. -/
def generatedName (stem : String) (n : Nat) : String := "_" ++ stem ++ toString n

def freshVar (ctx : LowerCtx) (stem : String) : Variable × LowerCtx :=
  (⟨generatedName stem ctx.anonCounter⟩, { ctx with anonCounter := ctx.anonCounter + 1 })

def freshCreateBnode (ctx : LowerCtx) : BlankNode × LowerCtx :=
  (⟨"cyphercreate" ++ toString ctx.anonCounter⟩, { ctx with anonCounter := ctx.anonCounter + 1 })

def addTriples (ctx : LowerCtx) (tps : List TriplePattern) : LowerCtx :=
  { ctx with triples := ctx.triples ++ tps }

end LowerCtx

/-! ## Literals -/

def lowerLiteral : Literal → Except String Nova.Literal
  | .str s => .ok (.string s)
  | .int n => .ok (.newTypedLiteral (toString n) xsdInteger)
  | .float text => .ok (.newTypedLiteral text xsdDouble)
  | .bool b => .ok (.newTypedLiteral (if b then "true" else "false") Eval.xsdBoolean)
  | .null => .error "the `NULL` literal is not supported"

def lowerLiteralTerm (lit : Literal) : Except String TermPattern := do
  return .literal (← lowerLiteral lit)

/-! ## Patterns -/

section

variable (validName : String → Bool)

/-- `Variable::new`, with the error that the lowering makes of it. -/
def newVariable (name : String) : Except String Variable :=
  if validName name then .ok ⟨name⟩
  else .error ("invalid variable name `" ++ name ++ "`: The variable name is invalid")

/-- `node_var`: the variable of a named node. -/
def LowerCtx.nodeVar (ctx : LowerCtx) (name : String) : Except String (Variable × LowerCtx) :=
  match ctx.nodeVars.lookup name with
  | some v => .ok (v, ctx)
  | none => do
    let v ← newVariable validName name
    return (v, { ctx with nodeVars := (name, v) :: ctx.nodeVars })

def labelTriple (v : Variable) (label : String) : TriplePattern :=
  ⟨.var v, .namedNode rdfType, .namedNode (labelIri label)⟩

/-- The triple pattern of one entry of a property map. -/
def propertyTriple (subject : TermPattern) (entry : String × Literal) : Except String TriplePattern := do
  let term ← lowerLiteralTerm entry.2
  return ⟨subject, .namedNode (propIri entry.1), term⟩

/-- The variable of a node pattern; an anonymous node has a fresh one. -/
def LowerCtx.nodePatternVar (ctx : LowerCtx) : Option String → Except String (Variable × LowerCtx)
  | some name => ctx.nodeVar validName name
  | none => .ok (ctx.freshVar "node")

def lowerNodePattern (ctx : LowerCtx) (node : NodePattern) : Except String (Variable × LowerCtx) := do
  let (v, ctx) ← ctx.nodePatternVar validName node.var
  let properties ← node.properties.mapM (propertyTriple (.var v))
  return (v, ctx.addTriples (node.labels.map (labelTriple v) ++ properties))

/-- The ends of a relationship; without a direction it goes to the right. -/
def orient {α : Type} (direction : RelDirection) (start stop : α) : α × α :=
  match direction with
  | .right => (start, stop)
  | .either => (start, stop)
  | .left => (stop, start)

/-- The path of a variable-length relationship. -/
def lowerVarLength (rel : RelPattern) (varLength : VarLength) : Except String PropertyPathExpression := do
  if rel.var.isSome then .error "cannot bind a variable to a variable-length relationship path"
  else if !rel.properties.isEmpty then
    .error "relationship properties are not supported on a variable-length relationship path"
  else
    match rel.relType with
    | none => .error "variable-length relationships must specify a single relationship type (e.g. `-[:KNOWS*]->`)"
    | some relType =>
      if varLength.max.isSome then
        .error "bounded variable-length relationships (`*min..max` with an explicit max) are not supported — SPARQL property paths only support unbounded `*`/`+` repetition"
      else
        let iri := PropertyPathExpression.namedNode (relIri relType)
        match varLength.min with
        -- a bare `*` is one or more
        | none => .ok (.oneOrMore iri)
        | some 1 => .ok (.oneOrMore iri)
        | some 0 => .ok (.zeroOrMore iri)
        | some _ => .error "variable-length relationships with an explicit minimum > 1 and no maximum are not supported (only `*`, `*0..`, and `*1..`/`+` are supported)"

/-- The predicate of a single-hop relationship. -/
def lowerRelPredicate (ctx : LowerCtx) (rel : RelPattern) : Except String (NamedNodePattern × LowerCtx) :=
  match rel.relType, rel.var with
  | some relType, _ => .ok (.namedNode (relIri relType), ctx)
  | none, some name => do
    let v ← newVariable validName name
    return (.var v, ctx)
  | none, none =>
    let (v, ctx) := ctx.freshVar "rel"
    .ok (.var v, ctx)

/-- A named relationship, with the predicate and the ends it was matched from. -/
def LowerCtx.recordRel (ctx : LowerCtx) (name : Option String) (predicate : NamedNodePattern)
    (ends : Variable × Variable) : LowerCtx :=
  match name with
  | none => ctx
  | some name =>
    let binding := match predicate with
      | .namedNode n => RelBinding.const n
      | .var v => .var v
    { ctx with
      relVars := (name, binding) :: ctx.relVars
      relEndpoints := (name, ends) :: ctx.relEndpoints }

def lowerRelPattern (ctx : LowerCtx) (rel : RelPattern) (start stop : Variable) : Except String LowerCtx := do
  let (subject, object) := orient rel.direction start stop
  match rel.varLength with
  | some varLength =>
    let path ← lowerVarLength rel varLength
    return { ctx with paths := ctx.paths ++ [⟨subject, path, object⟩] }
  | none =>
    let (predicate, ctx) ← lowerRelPredicate validName ctx rel
    let ctx := ctx.recordRel rel.var predicate (subject, object)
    -- properties of a relationship annotate its quoted triple
    let annotations ← rel.properties.mapM (propertyTriple (.triple (.var subject) predicate (.var object)))
    return ctx.addTriples (⟨.var subject, predicate, .var object⟩ :: annotations)

/-- The hops of a pattern, from the node that `prev` stands for. -/
def lowerHops : LowerCtx → Variable → List (RelPattern × NodePattern) → Except String LowerCtx
  | ctx, _, [] => .ok ctx
  | ctx, prev, (rel, node) :: hops => do
    let (next, ctx) ← lowerNodePattern validName ctx node
    let ctx ← lowerRelPattern validName ctx rel prev next
    lowerHops ctx next hops

def lowerPattern (ctx : LowerCtx) (pattern : Pattern) : Except String LowerCtx := do
  let (prev, ctx) ← lowerNodePattern validName ctx pattern.start
  lowerHops validName ctx prev pattern.hops

end

/-! ## Expressions -/

def lowerVariableRef (ctx : LowerCtx) (name : String) : Except String Expression :=
  match ctx.nodeVars.lookup name with
  | some v => .ok (.var v)
  | none =>
    match ctx.relVars.lookup name with
    | some (.var v) => .ok (.var v)
    | some (.const n) => .ok (.namedNode n)
    | none => .error ("unknown variable `" ++ name ++ "` (not bound by the MATCH pattern)")

/-- The name of the variable that holds a property. -/
def columnName (name prop : String) : String := name ++ "_" ++ prop

def columnTriple (v : Variable) (prop : String) (column : Variable) : TriplePattern :=
  ⟨.var v, .namedNode (propIri prop), .var column⟩

def lowerPropertyRef (ctx : LowerCtx) (base : Expr) (prop : String) : Except String (Expression × LowerCtx) :=
  match base with
  | .var name =>
    if (ctx.relVars.lookup name).isSome then
      .error ("property access on relationship variable `" ++ name ++ "` is not supported (relationship properties have no RDF mapping — see crate docs)")
    else
      match ctx.nodeVars.lookup name with
      | none => .error ("unknown variable `" ++ name ++ "` (not bound by the MATCH pattern)")
      | some v =>
        match ctx.propVars.lookup (name, prop) with
        | some column => .ok (.var column, ctx)
        | none =>
          let column : Variable := ⟨columnName name prop⟩
          .ok (.var column,
            { ctx.addTriples [columnTriple v prop column] with
              propVars := ((name, prop), column) :: ctx.propVars })
  | _ => .error "chained property access (e.g. `a.b.c`) is not supported"

/-- Both operands, the left one first. -/
def lowerBoth (combine : Expression → Expression → Expression)
    (l r : LowerCtx → Except String (Expression × LowerCtx)) (ctx : LowerCtx) :
    Except String (Expression × LowerCtx) := do
  let (a, ctx) ← l ctx
  let (b, ctx) ← r ctx
  return (combine a b, ctx)

def lowerOne (wrap : Expression → Expression) (inner : LowerCtx → Except String (Expression × LowerCtx))
    (ctx : LowerCtx) : Except String (Expression × LowerCtx) := do
  let (a, ctx) ← inner ctx
  return (wrap a, ctx)

def lowerExpr : Expr → LowerCtx → Except String (Expression × LowerCtx)
  | .var name, ctx => do return (← lowerVariableRef ctx name, ctx)
  | .property base prop, ctx => lowerPropertyRef ctx base prop
  | .literal lit, ctx => do return (.literal (← lowerLiteral lit), ctx)
  | .and l r, ctx => lowerBoth .and (lowerExpr l) (lowerExpr r) ctx
  | .or l r, ctx => lowerBoth .or (lowerExpr l) (lowerExpr r) ctx
  | .not inner, ctx => lowerOne .not (lowerExpr inner) ctx
  | .eq l r, ctx => lowerBoth (.binary .equal) (lowerExpr l) (lowerExpr r) ctx
  -- there is no "not equal" in the algebra
  | .ne l r, ctx => lowerBoth (fun a b => .not (.binary .equal a b)) (lowerExpr l) (lowerExpr r) ctx
  | .lt l r, ctx => lowerBoth (.binary .less) (lowerExpr l) (lowerExpr r) ctx
  | .le l r, ctx => lowerBoth (.binary .lessOrEqual) (lowerExpr l) (lowerExpr r) ctx
  | .gt l r, ctx => lowerBoth (.binary .greater) (lowerExpr l) (lowerExpr r) ctx
  | .ge l r, ctx => lowerBoth (.binary .greaterOrEqual) (lowerExpr l) (lowerExpr r) ctx
  | .add l r, ctx => lowerBoth (.binary .add) (lowerExpr l) (lowerExpr r) ctx
  | .sub l r, ctx => lowerBoth (.binary .subtract) (lowerExpr l) (lowerExpr r) ctx
  | .mul l r, ctx => lowerBoth (.binary .multiply) (lowerExpr l) (lowerExpr r) ctx
  | .div l r, ctx => lowerBoth .divide (lowerExpr l) (lowerExpr r) ctx
  | .neg inner, ctx => lowerOne .unaryMinus (lowerExpr inner) ctx

/-! ## Write clauses -/

/-- The joined triples and paths of a context. -/
def LowerCtx.joined (ctx : LowerCtx) : GraphPattern :=
  ctx.paths.foldl (fun base path => .join base path.pattern) (.bgp ctx.triples)

def filtered (whereExpr : Option Expression) (joined : GraphPattern) : GraphPattern :=
  match whereExpr with
  | none => joined
  | some expr => .filter expr joined

/-- A quad of the default graph in an insert template. -/
def insertQuad (subject : TermPattern) (predicate : NamedNodePattern) (object : TermPattern) :
    Update.QuadPattern :=
  ⟨subject, predicate, object, .defaultGraph⟩

def deleteQuad (subject : GroundTermPattern) (predicate : NamedNodePattern) (object : GroundTermPattern) :
    GroundQuadPattern :=
  ⟨subject, predicate, object, .defaultGraph⟩

/-- The blank nodes that one `CREATE` has made for its variables. -/
abbrev CreateBnodes := List (String × BlankNode)

/-- The term that a node of a `CREATE` pattern stands for. -/
def createTerm (ctx : LowerCtx) (bnodes : CreateBnodes) : Option String → TermPattern × LowerCtx × CreateBnodes
  | some name =>
    match ctx.nodeVars.lookup name with
    | some v => (.var v, ctx, bnodes)
    | none =>
      match bnodes.lookup name with
      | some b => (.blankNode b, ctx, bnodes)
      | none =>
        let (b, ctx) := ctx.freshCreateBnode
        (.blankNode b, ctx, (name, b) :: bnodes)
  | none =>
    let (b, ctx) := ctx.freshCreateBnode
    (.blankNode b, ctx, bnodes)

def lowerCreateNode (ctx : LowerCtx) (bnodes : CreateBnodes) (node : NodePattern) :
    Except String (TermPattern × List Update.QuadPattern × LowerCtx × CreateBnodes) := do
  let (term, ctx, bnodes) := createTerm ctx bnodes node.var
  let properties ← node.properties.mapM fun (key, value) => do
    let valueTerm ← lowerLiteralTerm value
    return insertQuad term (.namedNode (propIri key)) valueTerm
  let labels := node.labels.map fun label => insertQuad term (.namedNode rdfType) (.namedNode (labelIri label))
  return (term, labels ++ properties, ctx, bnodes)

def lowerCreateRel (rel : RelPattern) (start stop : TermPattern) : Except String Update.QuadPattern :=
  if rel.varLength.isSome then .error "CREATE cannot create a variable-length relationship path"
  else if !rel.properties.isEmpty then
    .error "CREATE cannot set relationship properties — representing them requires              inserting a quad whose subject is a quoted triple (`<< ?from :TYPE ?to >> :prop              value`), which oxrdf 0.3 cannot express (oxrdf::Quad's subject field has no              Triple variant). Relationship properties on MATCH lower via the same              quoted-triple annotation syntax; see this crate's lower.rs module docs."
  else
    match rel.relType with
    | none => .error "CREATE relationships must specify a single relationship type (e.g. `-[:KNOWS]->`)"
    | some relType =>
      let (subject, object) := orient rel.direction start stop
      .ok (insertQuad subject (.namedNode (relIri relType)) object)

def lowerCreateHops : LowerCtx → CreateBnodes → TermPattern → List (RelPattern × NodePattern) →
    Except String (List Update.QuadPattern × LowerCtx)
  | ctx, _, _, [] => .ok ([], ctx)
  | ctx, bnodes, prev, (rel, node) :: hops => do
    let (next, quads, ctx, bnodes) ← lowerCreateNode ctx bnodes node
    let quad ← lowerCreateRel rel prev next
    let (rest, ctx) ← lowerCreateHops ctx bnodes next hops
    return (quads ++ quad :: rest, ctx)

def lowerCreate (ctx : LowerCtx) (pattern : Pattern) (base : GraphPattern) :
    Except String (DeleteInsert × LowerCtx) := do
  let (prev, quads, ctx, bnodes) ← lowerCreateNode ctx [] pattern.start
  let (rest, ctx) ← lowerCreateHops ctx bnodes prev pattern.hops
  return (⟨[], quads ++ rest, none, base⟩, ctx)

def lookupWrittenNodeVar (ctx : LowerCtx) (name clauseKw : String) : Except String Variable :=
  match ctx.nodeVars.lookup name with
  | some v => .ok v
  | none =>
    .error ("unknown variable `" ++ name ++ "` in " ++ clauseKw ++ " (not bound by a preceding MATCH — note that a variable introduced by an earlier CREATE in the same statement cannot be referenced this way; see crate docs)")

/-- The base pattern with the old value of a property, if there is one. -/
def withOld (base : GraphPattern) (v : Variable) (property : String) (old : Variable) : GraphPattern :=
  .leftJoin base (.bgp [columnTriple v property old]) none

def lowerSetProperty (ctx : LowerCtx) (name property : String) (value : Expr) (base : GraphPattern) :
    Except String (DeleteInsert × LowerCtx) := do
  let v ← lookupWrittenNodeVar ctx name "SET"
  let (old, ctx) := ctx.freshVar "set_old"
  let (valueExpr, ctx) ← lowerExpr value ctx
  let (new, ctx) := ctx.freshVar "set_val"
  let delete := [deleteQuad (.var v) (.namedNode (propIri property)) (.var old)]
  let insert := [insertQuad (.var v) (.namedNode (propIri property)) (.var new)]
  return (⟨delete, insert, none, .extend (withOld base v property old) new valueExpr⟩, ctx)

def lowerSetLabel (ctx : LowerCtx) (name label : String) (base : GraphPattern) : Except String DeleteInsert := do
  let v ← lookupWrittenNodeVar ctx name "SET"
  return ⟨[], [insertQuad (.var v) (.namedNode rdfType) (.namedNode (labelIri label))], none, base⟩

def lowerRemoveProperty (ctx : LowerCtx) (name property : String) (base : GraphPattern) :
    Except String (DeleteInsert × LowerCtx) := do
  let v ← lookupWrittenNodeVar ctx name "REMOVE"
  let (old, ctx) := ctx.freshVar "remove_old"
  let delete := [deleteQuad (.var v) (.namedNode (propIri property)) (.var old)]
  return (⟨delete, [], none, withOld base v property old⟩, ctx)

def lowerRemoveLabel (ctx : LowerCtx) (name label : String) (base : GraphPattern) :
    Except String DeleteInsert := do
  let v ← lookupWrittenNodeVar ctx name "REMOVE"
  return ⟨[deleteQuad (.var v) (.namedNode rdfType) (.namedNode (labelIri label))], [], none, base⟩

/-- The triple that a relationship variable was matched from. -/
def deleteRel (ends : Variable × Variable) (binding : RelBinding) (base : GraphPattern) : DeleteInsert :=
  let predicate := match binding with
    | .var v => NamedNodePattern.var v
    | .const n => .namedNode n
  ⟨[deleteQuad (.var ends.1) predicate (.var ends.2)], [], none, base⟩

/-- The triples with the node as subject, and those with the node as object. -/
def deleteNode (ctx : LowerCtx) (v : Variable) (base : GraphPattern) : List DeleteInsert × LowerCtx :=
  let (pred, ctx) := ctx.freshVar "del_p"
  let (obj, ctx) := ctx.freshVar "del_o"
  let subjectSide := GraphPattern.join base (.bgp [⟨.var v, .var pred, .var obj⟩])
  let (subj, ctx) := ctx.freshVar "del_s"
  let (pred2, ctx) := ctx.freshVar "del_p2"
  let objectSide := GraphPattern.join base (.bgp [⟨.var subj, .var pred2, .var v⟩])
  ([⟨[deleteQuad (.var v) (.var pred) (.var obj)], [], none, subjectSide⟩,
    ⟨[deleteQuad (.var subj) (.var pred2) (.var v)], [], none, objectSide⟩], ctx)

/-- `lower_delete`; a name with ends but no binding is `unreachable!` in the source. -/
def lowerDelete (base : GraphPattern) : LowerCtx → List String → Except String (List DeleteInsert × LowerCtx)
  | ctx, [] => .ok ([], ctx)
  | ctx, name :: names =>
    match ctx.relEndpoints.lookup name, ctx.relVars.lookup name with
    | some ends, some binding => do
      let (rest, ctx) ← lowerDelete base ctx names
      return (deleteRel ends binding base :: rest, ctx)
    | some _, none => .error "rel_endpoints and rel_vars are always populated together"
    | none, _ => do
      let v ← lookupWrittenNodeVar ctx name "DELETE"
      let (ops, ctx) := deleteNode ctx v base
      let (rest, ctx) ← lowerDelete base ctx names
      return (ops ++ rest, ctx)

def lowerWrite (base : GraphPattern) (ctx : LowerCtx) : WriteClause → Except String (List DeleteInsert × LowerCtx)
  | .create pattern => do
    let (op, ctx) ← lowerCreate ctx pattern base
    return ([op], ctx)
  | .setProperty name property value => do
    let (op, ctx) ← lowerSetProperty ctx name property value base
    return ([op], ctx)
  | .setLabel name label => do return ([← lowerSetLabel ctx name label base], ctx)
  | .delete names _ => lowerDelete base ctx names
  | .removeProperty name property => do
    let (op, ctx) ← lowerRemoveProperty ctx name property base
    return ([op], ctx)
  | .removeLabel name label => do return ([← lowerRemoveLabel ctx name label base], ctx)

def lowerWrites (base : GraphPattern) : LowerCtx → List WriteClause → Except String (List DeleteInsert)
  | _, [] => .ok []
  | ctx, write :: writes => do
    let (ops, ctx) ← lowerWrite base ctx write
    let rest ← lowerWrites base ctx writes
    return ops ++ rest

def lowerMatchPattern (validName : String → Bool) : Option Pattern → Except String LowerCtx
  | none => .ok .new
  | some pattern => lowerPattern validName .new pattern

def lowerWhere (ctx : LowerCtx) : Option Expr → Except String (Option Expression × LowerCtx)
  | none => .ok (none, ctx)
  | some e => do
    let (expr, ctx) ← lowerExpr e ctx
    return (some expr, ctx)

/-- The part of `lower_statement` before the write clauses: the pattern that every
clause starts from, and the context after `MATCH` and `WHERE`. -/
def lowerMatch (validName : String → Bool) (stmt : CypherStatement) : Except String (GraphPattern × LowerCtx) := do
  let ctx ← lowerMatchPattern validName stmt.pattern
  let (whereExpr, ctx) ← lowerWhere ctx stmt.whereExpr
  return (filtered whereExpr ctx.joined, ctx)

/-- `lower_statement`: the operations of the update. -/
def lowerStatement (validName : String → Bool) (stmt : CypherStatement) : Except String (List DeleteInsert) := do
  let (base, ctx) ← lowerMatch validName stmt
  lowerWrites base ctx stmt.writes

end Cypher

end Nova
