import Nova.Query.Scope

/-!
# Patterns under a solution

`P.substitute μ` is the pattern with the bindings of `μ` substituted for its free
variables. A constant cannot stand everywhere in the algebra (there is no expression for a
blank node), so the bindings go in as a row of `VALUES` that is joined where solutions
come from, and an expression reads them there. A part that mentions no variable of `μ` is
left as it is; a projection hides the others from the inside; an assigned variable is not
free; and a subtracted side shares no variable of `μ` with its minuend, as it would not if
constants stood there.
-/

namespace Nova

open Nova.Lib

/-! ## Free variables -/

mutual
/-- The variables that a substitution goes in for. -/
def GraphPattern.free : GraphPattern → List Variable
  | .bgp patterns => bgpVars patterns
  | .path s _ o => Path.endVars s ++ Path.endVars o
  | .join left right => left.free ++ right.free
  | .leftJoin left right expression => left.free ++ right.free ++ conditionFree expression
  | .lateral left right => left.free ++ right.free
  | .filter expr inner => expr.free ++ inner.free
  | .union left right => left.free ++ right.free
  | .graph name inner => name.vars ++ inner.free
  | .extend inner _ expression => inner.free ++ expression.free
  | .minus left right => left.free ++ right.free
  | .values vars _ => vars
  | .orderBy inner expression => inner.free ++ ordersFree expression
  | .project inner vars => inner.free.filter fun v => v ∈ vars
  | .distinct inner => inner.free
  | .reduced inner => inner.free
  | .slice inner _ _ => inner.free
  | .group inner vars aggregates => inner.free ++ vars ++ aggregatesFree aggregates
  | .service name inner _ => name.vars ++ inner.free

def conditionFree : Option Expression → List Variable
  | none => []
  | some e => e.free

def Expression.free : Expression → List Variable
  | .namedNode _ => []
  | .literal _ => []
  | .var v => [v]
  | .or a b => a.free ++ b.free
  | .and a b => a.free ++ b.free
  | .not e => e.free
  | .binary _ a b => a.free ++ b.free
  | .divide a b => a.free ++ b.free
  | .inList e list => e.free ++ expressionsFree list
  | .unaryPlus e => e.free
  | .unaryMinus e => e.free
  | .exists pattern => pattern.free
  | .bound v => [v]
  | .ite cond thenE elseE => cond.free ++ thenE.free ++ elseE.free
  | .coalesce list => expressionsFree list
  | .functionCall _ args => expressionsFree args

def expressionsFree : List Expression → List Variable
  | [] => []
  | e :: rest => e.free ++ expressionsFree rest

def ordersFree : List OrderExpression → List Variable
  | [] => []
  | oe :: rest => oe.free ++ ordersFree rest

def OrderExpression.free : OrderExpression → List Variable
  | .asc e => e.free
  | .desc e => e.free

def aggregatesFree : List Aggregate → List Variable
  | [] => []
  | agg :: rest => agg.free ++ aggregatesFree rest

def Aggregate.free : Aggregate → List Variable
  | .countSolutions _ _ => []
  | .functionCall _ _ e _ => e.free
end

/-! ## Substitution -/

/-- The solution without one variable. -/
def Solution.without (sol : Solution) (v : Variable) : Solution := sol.project (sol.vars.filter (· ≠ v))

theorem Solution.get_without (sol : Solution) (v w : Variable) :
    (sol.without v).get w = if w = v then none else sol.get w := by
  rw [Solution.without, Solution.get_project]
  by_cases hw : w = v
  · rw [if_pos hw, if_neg]
    rw [List.mem_filter]
    exact fun hmem => of_decide_eq_true hmem.2 hw
  · rw [if_neg hw]
    split
    · rfl
    · next hno =>
      refine (Option.not_isSome_iff_eq_none.mp fun hsome => hno ?_).symm
      exact List.mem_filter.mpr ⟨Solution.mem_vars_of_get hsome, decide_eq_true hw⟩

def NamedNodePattern.substitute (μ : Solution) : NamedNodePattern → NamedNodePattern
  | .namedNode n => .namedNode n
  | .var v =>
    match μ.get v with
    | some (.namedNode n) => .namedNode n
    | _ => .var v

namespace GraphPattern

/-- The pattern with the given solution alone. -/
def row (μ : Solution) : GraphPattern := .values μ.vars [μ.vars.map μ.get]

def under (μ : Solution) (P : GraphPattern) : GraphPattern := .join (row μ) P

/-- A pattern that mentions no variable of the solution is left as it is. -/
def settled (μ : Solution) (P P' : GraphPattern) : GraphPattern :=
  if P.free.any μ.contains then P' else under μ P

end GraphPattern

open GraphPattern (under settled)

mutual
def GraphPattern.substitute : GraphPattern → Solution → GraphPattern
  | .bgp patterns, μ => under μ (.bgp patterns)
  | .path s path o, μ => under μ (.path s path o)
  | .join left right, μ => settled μ (.join left right) (.join (left.substitute μ) (right.substitute μ))
  | .leftJoin left right expression, μ =>
    settled μ (.leftJoin left right expression)
      (.leftJoin (left.substitute μ) (right.substitute μ) (conditionSubstitute expression μ))
  | .lateral left right, μ => settled μ (.lateral left right) (.lateral (left.substitute μ) (right.substitute μ))
  | .filter expr inner, μ => settled μ (.filter expr inner) (.filter (expr.substitute μ) (inner.substitute μ))
  | .union left right, μ => settled μ (.union left right) (.union (left.substitute μ) (right.substitute μ))
  | .graph name inner, μ => settled μ (.graph name inner) (.graph name (inner.substitute μ))
  | .extend inner v expression, μ =>
    settled μ (.extend inner v expression)
      (under μ (.extend (inner.substitute (μ.without v)) v (expression.substitute (μ.without v))))
  | .minus left right, μ =>
    settled μ (.minus left right)
      (.minus (left.substitute μ) (.project (right.substitute μ) (right.scope.filter fun v => !μ.contains v)))
  | .values vars bindings, μ => under μ (.values vars bindings)
  | .orderBy inner expression, μ =>
    settled μ (.orderBy inner expression) (.orderBy (inner.substitute μ) (ordersSubstitute expression μ))
  | .project inner vars, μ =>
    settled μ (.project inner vars) (under μ (.project (inner.substitute (μ.project vars)) vars))
  | .distinct inner, μ => settled μ (.distinct inner) (.distinct (inner.substitute μ))
  | .reduced inner, μ => settled μ (.reduced inner) (.reduced (inner.substitute μ))
  | .slice inner start length, μ =>
    settled μ (.slice inner start length) (.slice (inner.substitute μ) start length)
  | .group inner vars aggregates, μ =>
    settled μ (.group inner vars aggregates)
      (under μ (.group (inner.substitute μ) vars (aggregatesSubstitute aggregates μ)))
  | .service name inner silent, μ => under μ (.service (name.substitute μ) inner silent)

def conditionSubstitute : Option Expression → Solution → Option Expression
  | none, _ => none
  | some e, μ => some (e.substitute μ)

/-- The variables of an expression are read from its row; a pattern inside has rows of
its own. -/
def Expression.substitute : Expression → Solution → Expression
  | .namedNode n, _ => .namedNode n
  | .literal l, _ => .literal l
  | .var v, _ => .var v
  | .or a b, μ => .or (a.substitute μ) (b.substitute μ)
  | .and a b, μ => .and (a.substitute μ) (b.substitute μ)
  | .not e, μ => .not (e.substitute μ)
  | .binary op a b, μ => .binary op (a.substitute μ) (b.substitute μ)
  | .divide a b, μ => .divide (a.substitute μ) (b.substitute μ)
  | .inList e list, μ => .inList (e.substitute μ) (expressionsSubstitute list μ)
  | .unaryPlus e, μ => .unaryPlus (e.substitute μ)
  | .unaryMinus e, μ => .unaryMinus (e.substitute μ)
  | .exists pattern, μ => .exists (pattern.substitute μ)
  | .bound v, _ => .bound v
  | .ite cond thenE elseE, μ => .ite (cond.substitute μ) (thenE.substitute μ) (elseE.substitute μ)
  | .coalesce list, μ => .coalesce (expressionsSubstitute list μ)
  | .functionCall func args, μ => .functionCall func (expressionsSubstitute args μ)

def expressionsSubstitute : List Expression → Solution → List Expression
  | [], _ => []
  | e :: rest, μ => e.substitute μ :: expressionsSubstitute rest μ

def ordersSubstitute : List OrderExpression → Solution → List OrderExpression
  | [], _ => []
  | oe :: rest, μ => oe.substitute μ :: ordersSubstitute rest μ

def OrderExpression.substitute : OrderExpression → Solution → OrderExpression
  | .asc e, μ => .asc (e.substitute μ)
  | .desc e, μ => .desc (e.substitute μ)

def aggregatesSubstitute : List Aggregate → Solution → List Aggregate
  | [], _ => []
  | agg :: rest, μ => agg.substitute μ :: aggregatesSubstitute rest μ

def Aggregate.substitute : Aggregate → Solution → Aggregate
  | .countSolutions v distinct, _ => .countSolutions v distinct
  | .functionCall v name e distinct, μ => .functionCall v name (e.substitute μ) distinct
end

end Nova
