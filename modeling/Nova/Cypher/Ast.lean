import Mathlib.Tactic.Common

/-!
# The Cypher syntax tree

Write statements: one `MATCH` pattern, an optional `WHERE`, and the write clauses.
Read queries: a pattern, an optional `WHERE`, `RETURN`, and the modifiers of the
result. A float is kept as the text that is printed for it.
-/

namespace Nova

namespace Cypher

/-- Literal values as written in the source text. -/
inductive Literal where
  | str (s : String)
  | int (n : Int)
  | float (text : String)
  | bool (b : Bool)
  | null
deriving DecidableEq, Repr

/-- A node pattern `(var:Label1:Label2 {prop: val, ...})`. -/
structure NodePattern where
  var : Option String
  labels : List String
  properties : List (String × Literal)
deriving DecidableEq, Repr

/-- `-[...]->`, `<-[...]-` and `-[...]-`. -/
inductive RelDirection where
  | right
  | left
  | either
deriving DecidableEq, Repr

/-- The quantifier of a variable-length relationship. -/
structure VarLength where
  min : Option Nat
  max : Option Nat
deriving DecidableEq, Repr

structure RelPattern where
  var : Option String
  relType : Option String
  direction : RelDirection
  varLength : Option VarLength
  properties : List (String × Literal)
deriving DecidableEq, Repr

/-- A start node followed by relationship-node hops. -/
structure Pattern where
  start : NodePattern
  hops : List (RelPattern × NodePattern)
deriving DecidableEq, Repr

inductive Expr where
  | var (name : String)
  /-- `n.prop` -/
  | property (base : Expr) (prop : String)
  | literal (lit : Literal)
  | and (l r : Expr)
  | or (l r : Expr)
  | not (inner : Expr)
  | eq (l r : Expr)
  | ne (l r : Expr)
  | lt (l r : Expr)
  | le (l r : Expr)
  | gt (l r : Expr)
  | ge (l r : Expr)
  | add (l r : Expr)
  | sub (l r : Expr)
  | mul (l r : Expr)
  | div (l r : Expr)
  | neg (inner : Expr)
deriving DecidableEq, Repr

/-- One write clause; `DELETE` names several variables, and so does `DETACH DELETE`. -/
inductive WriteClause where
  | create (pattern : Pattern)
  | setProperty (var property : String) (value : Expr)
  | setLabel (var label : String)
  | delete (vars : List String) (detach : Bool)
  | removeProperty (var property : String)
  | removeLabel (var label : String)
deriving DecidableEq, Repr

/-- `CypherStatement`; without a pattern it is a bare `CREATE`. -/
structure CypherStatement where
  pattern : Option Pattern
  whereExpr : Option Expr
  writes : List WriteClause
deriving DecidableEq, Repr

/-- One item of `RETURN`, with its name if there is an `AS`. -/
structure ReturnItem where
  expr : Expr
  asName : Option String
deriving DecidableEq, Repr

structure ReturnClause where
  distinct : Bool
  items : List ReturnItem
deriving DecidableEq, Repr

structure OrderItem where
  expr : Expr
  descending : Bool
deriving DecidableEq, Repr

structure CypherQuery where
  pattern : Pattern
  whereExpr : Option Expr
  returns : ReturnClause
  orderBy : List OrderItem
  skip : Option Nat
  limit : Option Nat
deriving DecidableEq, Repr

end Cypher

end Nova
