import Nova.Cypher.Lower

/-!
# Lowering read queries

`WHERE`, `RETURN` and `ORDER BY` are lowered before the pattern is put together, so the
triples of all the properties that they read are part of it. An item whose name is that
of its own variable needs no `BIND`.
-/

namespace Nova

namespace Cypher

/-- The name that an item has without `AS`. -/
def impliedName : Expr → Option String
  | .var v => some v
  | .property (.var v) prop => some (columnName v prop)
  | _ => none

def returnName (item : ReturnItem) : Except String String :=
  match item.asName with
  | some a => .ok a
  | none =>
    match impliedName item.expr with
    | some name => .ok name
    | none => .error "an explicit `AS` alias is required for computed expressions in RETURN"

/-- `Variable::new` for the name of a column of the result. -/
def returnVariable (validName : String → Bool) (name : String) : Except String Variable :=
  if validName name then .ok ⟨name⟩
  else .error ("invalid RETURN column name `" ++ name ++ "`: The variable name is invalid")

/-- The `BIND` of an item, unless it is bound under its name already. -/
def returnExtend (outVar : Variable) : Expression → Option (Variable × Expression)
  | .var v => if v = outVar then none else some (outVar, .var v)
  | lowered => some (outVar, lowered)

def lowerReturnItem (validName : String → Bool) (ctx : LowerCtx) (item : ReturnItem) :
    Except String (Variable × Option (Variable × Expression) × LowerCtx) := do
  let (lowered, ctx) ← lowerExpr item.expr ctx
  let name ← returnName item
  let outVar ← returnVariable validName name
  return (outVar, returnExtend outVar lowered, ctx)

/-- The columns of the result and the values bound to them. -/
def lowerReturnItems (validName : String → Bool) : LowerCtx → List ReturnItem →
    Except String (List Variable × List (Variable × Expression) × LowerCtx)
  | ctx, [] => .ok ([], [], ctx)
  | ctx, item :: items => do
    let (outVar, extend, ctx) ← lowerReturnItem validName ctx item
    let (outVars, extends', ctx) ← lowerReturnItems validName ctx items
    return (outVar :: outVars, extend.toList ++ extends', ctx)

def orderExpression (descending : Bool) (e : Expression) :
    OrderExpression := if descending then .desc e else .asc e

def lowerOrderItems : LowerCtx → List OrderItem → Except String (List OrderExpression × LowerCtx)
  | ctx, [] => .ok ([], ctx)
  | ctx, item :: items => do
    let (e, ctx) ← lowerExpr item.expr ctx
    let (es, ctx) ← lowerOrderItems ctx items
    return (orderExpression item.descending e :: es, ctx)

/-! ## The modifiers of the result -/

def extended (extends' : List (Variable × Expression)) (base : GraphPattern) : GraphPattern :=
  extends'.foldl (fun base bind => .extend base bind.1 bind.2) base

def ordered (orderExprs : List OrderExpression) (base : GraphPattern) : GraphPattern :=
  if orderExprs.isEmpty then base else .orderBy base orderExprs

def distinctIf (distinct : Bool) (base : GraphPattern) : GraphPattern := if distinct then .distinct base else base

def sliced (skip limit : Option Nat) (base : GraphPattern) : GraphPattern :=
  if skip.isSome || limit.isSome then .slice base (skip.getD 0) limit else base

/-- `lower`: the pattern of the `SELECT`. -/
def lowerQuery (validName : String → Bool) (query : CypherQuery) : Except String Eval.Query := do
  let ctx ← lowerPattern validName .new query.pattern
  let (whereExpr, ctx) ← lowerWhere ctx query.whereExpr
  let (outVars, extends', ctx) ← lowerReturnItems validName ctx query.returns.items
  let (orderExprs, ctx) ← lowerOrderItems ctx query.orderBy
  let rows := ordered orderExprs (extended extends' (filtered whereExpr ctx.joined))
  return .select none (sliced query.skip query.limit (distinctIf query.returns.distinct (.project rows outVars)))

end Cypher

end Nova
