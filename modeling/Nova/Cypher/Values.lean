import Mathlib.Data.Fintype.Option
import Nova.Cypher.Names

/-!
# The value of an expression

`Expr.value` is the value of a Cypher expression, given what its variables and its
property accesses stand for. The lowered expression has this value on a row, where a
property access reads the column of the property (`lowerExpr_value`). A property that
gets a value where it had none changes no value that the expression had
(`Expr.value_mono`).
-/

namespace Nova

open Nova.Lib

namespace Cypher

/-- Both operands, then the operation. -/
def both (f : Term → Term → Option Term) (a b : Option Term) : Option Term := a.bind fun x => b.bind (f x)

section

variable (scalars : Scalars)

def andValue (a b : Option Term) : Option Term :=
  (Eval.andEbv (a.bind scalars.toEbv) (b.bind scalars.toEbv)).map Eval.boolTerm

def orValue (a b : Option Term) : Option Term :=
  (Eval.orEbv (a.bind scalars.toEbv) (b.bind scalars.toEbv)).map Eval.boolTerm

def notValue (a : Option Term) : Option Term := (a.bind scalars.toEbv).map fun b => Eval.boolTerm (!b)

/-- The divisor is looked at first. -/
def divValue (a b : Option Term) : Option Term :=
  b.bind fun y => if scalars.isDivisor y then a.bind fun x => scalars.divide x y else none

/-- The value of an expression: `none` is an error. -/
def Expr.value (read : String → Option Term) (prop : String → String → Option Term) : Expr → Option Term
  | .var name => read name
  | .property (.var name) key => prop name key
  | .property _ _ => none
  | .literal lit => (lowerLiteral lit).toOption.map .literal
  | .and l r => andValue scalars (l.value read prop) (r.value read prop)
  | .or l r => orValue scalars (l.value read prop) (r.value read prop)
  | .not inner => notValue scalars (inner.value read prop)
  | .eq l r => both (scalars.binary .equal) (l.value read prop) (r.value read prop)
  | .ne l r => notValue scalars (both (scalars.binary .equal) (l.value read prop) (r.value read prop))
  | .lt l r => both (scalars.binary .less) (l.value read prop) (r.value read prop)
  | .le l r => both (scalars.binary .lessOrEqual) (l.value read prop) (r.value read prop)
  | .gt l r => both (scalars.binary .greater) (l.value read prop) (r.value read prop)
  | .ge l r => both (scalars.binary .greaterOrEqual) (l.value read prop) (r.value read prop)
  | .add l r => both (scalars.binary .add) (l.value read prop) (r.value read prop)
  | .sub l r => both (scalars.binary .subtract) (l.value read prop) (r.value read prop)
  | .mul l r => both (scalars.binary .multiply) (l.value read prop) (r.value read prop)
  | .div l r => divValue scalars (l.value read prop) (r.value read prop)
  | .neg inner => (inner.value read prop).bind scalars.unaryMinus

end

/-! ## What an expression reads -/

/-- What a name stands for on a row. -/
def LowerCtx.read (ctx : LowerCtx) (μ : Mapping) (name : String) : Option Term :=
  match ctx.nodeVars.lookup name with
  | some v => μ v
  | none =>
    match ctx.relVars.lookup name with
    | some (.var v) => μ v
    | some (.const n) => some (.namedNode n)
    | none => none

/-- The columns of a row. -/
def columns (μ : Mapping) (name prop : String) : Option Term := μ (column (name, prop))

/-- The value of an expression on a row. -/
def LowerCtx.valueOn (scalars : Scalars) (ctx : LowerCtx) (e : Expr) (μ : Mapping) : Option Term :=
  e.value scalars (ctx.read μ) (columns μ)

/-! ## Lowered expressions -/

section Lowered

variable {scalars : Scalars} {options : EvalOptions} {fuel : Nat} {ds : Dataset} {ag : GraphSelector}

theorem evalExpr_binary {op : BinaryOp} {a b : Expression} {sol : Solution} {x y : Option Term}
    (ha : Eval.evalExpr scalars options fuel ds a sol ag = .ok x)
    (hb : Eval.evalExpr scalars options fuel ds b sol ag = .ok y) :
    Eval.evalExpr scalars options fuel ds (.binary op a b) sol ag = .ok (both (scalars.binary op) x y) := by
  rw [Eval.evalExpr, Eval.bothThen, ha, hb]
  cases x with
  | none => rfl
  | some x => cases y <;> rfl

theorem evalExpr_not {a : Expression} {sol : Solution} {x : Option Term}
    (ha : Eval.evalExpr scalars options fuel ds a sol ag = .ok x) :
    Eval.evalExpr scalars options fuel ds (.not a) sol ag = .ok (notValue scalars x) := by
  rw [Eval.evalExpr, Eval.ebvOf, ha]
  rfl

/-- On every row the lowered expression has the value of the expression. -/
theorem lowerExpr_value (e : Expr) : ∀ {ctx ctx' : LowerCtx} {lowered : Expression}, ctx.Columns →
    lowerExpr e ctx = .ok (lowered, ctx') → ∀ sol,
      Eval.evalExpr scalars options fuel ds lowered sol ag =
        .ok (e.value scalars (ctx'.read sol.get) (columns sol.get)) := by
  -- the left operand is lowered first, and what it reads stays
  have hboth : ∀ {combine : Expression → Expression → Expression} {l r : Expr},
      (∀ {ctx ctx' lowered}, LowerCtx.Columns ctx → lowerExpr l ctx = .ok (lowered, ctx') → ∀ sol,
        Eval.evalExpr scalars options fuel ds lowered sol ag =
          .ok (l.value scalars (ctx'.read sol.get) (columns sol.get))) →
      (∀ {ctx ctx' lowered}, LowerCtx.Columns ctx → lowerExpr r ctx = .ok (lowered, ctx') → ∀ sol,
        Eval.evalExpr scalars options fuel ds lowered sol ag =
          .ok (r.value scalars (ctx'.read sol.get) (columns sol.get))) →
      ∀ {ctx ctx' lowered}, ctx.Columns → lowerBoth combine (lowerExpr l) (lowerExpr r) ctx = .ok (lowered, ctx') →
        ∃ a b, lowered = combine a b ∧ ∀ sol,
          Eval.evalExpr scalars options fuel ds a sol ag =
            .ok (l.value scalars (ctx'.read sol.get) (columns sol.get)) ∧
          Eval.evalExpr scalars options fuel ds b sol ag =
            .ok (r.value scalars (ctx'.read sol.get) (columns sol.get)) := by
    intro combine l r hl hr ctx ctx' lowered hcols h
    obtain ⟨a, ctx₁, b, ha, hb, rfl⟩ := lowerBoth_ok h
    have hread : ∀ μ, ctx₁.read μ = ctx'.read μ := by
      intro μ
      have hreads := lowerExpr_reads r hb
      funext name
      rw [LowerCtx.read, LowerCtx.read, hreads.nodeVars, hreads.relVars]
    refine ⟨a, b, rfl, fun sol => ⟨?_, hr ((lowerExpr_reads l ha).columns hcols) hb sol⟩⟩
    rw [hl hcols ha sol, hread]
  have hbinary : ∀ {op : BinaryOp} {l r : Expr},
      (∀ {ctx ctx' lowered}, LowerCtx.Columns ctx → lowerExpr l ctx = .ok (lowered, ctx') → ∀ sol,
        Eval.evalExpr scalars options fuel ds lowered sol ag =
          .ok (l.value scalars (ctx'.read sol.get) (columns sol.get))) →
      (∀ {ctx ctx' lowered}, LowerCtx.Columns ctx → lowerExpr r ctx = .ok (lowered, ctx') → ∀ sol,
        Eval.evalExpr scalars options fuel ds lowered sol ag =
          .ok (r.value scalars (ctx'.read sol.get) (columns sol.get))) →
      ∀ {ctx ctx' lowered}, ctx.Columns →
        lowerBoth (.binary op) (lowerExpr l) (lowerExpr r) ctx = .ok (lowered, ctx') → ∀ sol,
          Eval.evalExpr scalars options fuel ds lowered sol ag =
            .ok (both (scalars.binary op) (l.value scalars (ctx'.read sol.get) (columns sol.get))
              (r.value scalars (ctx'.read sol.get) (columns sol.get))) := by
    intro op l r hl hr ctx ctx' lowered hcols h sol
    obtain ⟨a, b, rfl, hval⟩ := hboth hl hr hcols h
    exact evalExpr_binary (hval sol).1 (hval sol).2
  induction e with
  | var name =>
    intro ctx ctx' lowered _ h sol
    obtain ⟨expr, hexpr, h⟩ := bind_ok h
    cases h
    unfold lowerVariableRef at hexpr
    rw [Expr.value, LowerCtx.read]
    cases hv : ctx.nodeVars.lookup name with
    | some v =>
      rw [hv] at hexpr
      cases hexpr
      rw [Eval.evalExpr]
    | none =>
      rw [hv] at hexpr
      cases hw : ctx.relVars.lookup name with
      | none =>
        rw [hw] at hexpr
        cases hexpr
      | some binding =>
        rw [hw] at hexpr
        cases binding with
        | var w =>
          cases hexpr
          rw [Eval.evalExpr]
        | const n =>
          cases hexpr
          rw [Eval.evalExpr]
  | property base prop _ =>
    intro ctx ctx' lowered hcols h sol
    cases base with
    | var name =>
      have hval : lowered = .var (column (name, prop)) := by
        simp only [lowerExpr, lowerPropertyRef] at h
        split at h
        · cases h
        · split at h
          · cases h
          · split at h
            · next c hc =>
              cases h
              rw [(hcols (name, prop) c hc).1]
            · cases h
              rfl
      rw [hval, Eval.evalExpr]
      rfl
    | _ => cases h
  | literal lit =>
    intro ctx ctx' lowered _ h sol
    obtain ⟨l, hl, h⟩ := bind_ok h
    cases h
    rw [Eval.evalExpr, Expr.value, hl]
    rfl
  | not inner ih =>
    intro ctx ctx' lowered hcols h sol
    obtain ⟨a, ha, rfl⟩ := lowerOne_ok h
    exact evalExpr_not (ih hcols ha sol)
  | neg inner ih =>
    intro ctx ctx' lowered hcols h sol
    obtain ⟨a, ha, rfl⟩ := lowerOne_ok h
    rw [Eval.evalExpr, ih hcols ha sol]
    rfl
  | and l r ihl ihr =>
    intro ctx ctx' lowered hcols h sol
    obtain ⟨a, b, rfl, hval⟩ := hboth ihl ihr hcols h
    rw [Eval.evalExpr, Eval.ebvOf, Eval.ebvOf, (hval sol).1, (hval sol).2]
    rfl
  | or l r ihl ihr =>
    intro ctx ctx' lowered hcols h sol
    obtain ⟨a, b, rfl, hval⟩ := hboth ihl ihr hcols h
    rw [Eval.evalExpr, Eval.ebvOf, Eval.ebvOf, (hval sol).1, (hval sol).2]
    rfl
  | ne l r ihl ihr =>
    intro ctx ctx' lowered hcols h sol
    obtain ⟨a, b, rfl, hval⟩ := hboth ihl ihr hcols h
    exact evalExpr_not (evalExpr_binary (hval sol).1 (hval sol).2)
  | div l r ihl ihr =>
    intro ctx ctx' lowered hcols h sol
    obtain ⟨a, b, rfl, hval⟩ := hboth ihl ihr hcols h
    rw [Eval.evalExpr, (hval sol).2, ok_bind, Expr.value]
    cases r.value scalars (ctx'.read sol.get) (columns sol.get) with
    | none => rfl
    | some y =>
      dsimp only
      rw [(hval sol).1, ok_bind]
      cases hdiv : scalars.isDivisor y <;> simp [divValue, hdiv]
  | eq l r ihl ihr => exact fun hcols h sol => hbinary ihl ihr hcols h sol
  | lt l r ihl ihr => exact fun hcols h sol => hbinary ihl ihr hcols h sol
  | le l r ihl ihr => exact fun hcols h sol => hbinary ihl ihr hcols h sol
  | gt l r ihl ihr => exact fun hcols h sol => hbinary ihl ihr hcols h sol
  | ge l r ihl ihr => exact fun hcols h sol => hbinary ihl ihr hcols h sol
  | add l r ihl ihr => exact fun hcols h sol => hbinary ihl ihr hcols h sol
  | sub l r ihl ihr => exact fun hcols h sol => hbinary ihl ihr hcols h sol
  | mul l r ihl ihr => exact fun hcols h sol => hbinary ihl ihr hcols h sol

theorem lowerExpr_valueOn {e : Expr} {ctx ctx' : LowerCtx} {lowered : Expression} (hcols : ctx.Columns)
    (hr : lowerExpr e ctx = .ok (lowered, ctx')) (sol : Solution) :
    Eval.evalExpr scalars options fuel ds lowered sol ag = .ok (ctx'.valueOn scalars e sol.get) :=
  lowerExpr_value e hcols hr sol

end Lowered

/-! ## More properties -/

/-- What has a value keeps it. -/
def Keeps (a b : Option Term) : Prop := ∀ t, a = some t → b = some t

theorem Keeps.eq_or {a b : Option Term} (h : Keeps a b) : a = none ∨ b = a := by
  cases a with
  | none => exact .inl rfl
  | some t => exact .inr (h t rfl)

section Mono

variable {scalars : Scalars} {a a' b b' : Option Term}

theorem keeps_both {f : Term → Term → Option Term} (ha : Keeps a a') (hb : Keeps b b') :
    Keeps (both f a b) (both f a' b') := by
  intro t ht
  obtain ⟨x, hx, ht⟩ := Option.bind_eq_some_iff.mp ht
  obtain ⟨y, hy, ht⟩ := Option.bind_eq_some_iff.mp ht
  rw [both, ha x hx, hb y hy]
  exact ht

theorem keeps_notValue (ha : Keeps a a') : Keeps (notValue scalars a) (notValue scalars a') := by
  intro t ht
  rcases ha.eq_or with rfl | rfl
  · cases ht
  · exact ht

/-- A connective whose value stays when an error of an operand becomes a value. -/
theorem keeps_connective {op : Option Bool → Option Bool → Option Bool}
    (hop : ∀ x y r, (op none y = some r → op x y = some r) ∧ (op x none = some r → op x y = some r))
    (ha : Keeps a a') (hb : Keeps b b') :
    Keeps ((op (a.bind scalars.toEbv) (b.bind scalars.toEbv)).map Eval.boolTerm)
      ((op (a'.bind scalars.toEbv) (b'.bind scalars.toEbv)).map Eval.boolTerm) := by
  intro t ht
  obtain ⟨r, hr, rfl⟩ := Option.map_eq_some_iff.mp ht
  have hleft : op (a'.bind scalars.toEbv) (b.bind scalars.toEbv) = some r := by
    rcases ha.eq_or with rfl | rfl
    · exact (hop _ _ r).1 hr
    · exact hr
  refine Option.map_eq_some_iff.mpr ⟨r, ?_, rfl⟩
  rcases hb.eq_or with rfl | rfl
  · exact (hop _ _ r).2 hleft
  · exact hleft

theorem keeps_andValue (ha : Keeps a a') (hb : Keeps b b') : Keeps (andValue scalars a b)
    (andValue scalars a' b') :=
  keeps_connective (by decide) ha hb

theorem keeps_orValue (ha : Keeps a a') (hb : Keeps b b') : Keeps (orValue scalars a b) (orValue scalars a' b') :=
  keeps_connective (by decide) ha hb

theorem keeps_divValue (ha : Keeps a a') (hb : Keeps b b') :
    Keeps (divValue scalars a b) (divValue scalars a' b') := by
  intro t ht
  obtain ⟨y, hy, ht⟩ := Option.bind_eq_some_iff.mp ht
  rw [divValue, hb y hy, Option.bind_some]
  split at ht
  · next hdiv =>
    obtain ⟨x, hx, ht⟩ := Option.bind_eq_some_iff.mp ht
    rw [if_pos hdiv, ha x hx]
    exact ht
  · cases ht

/-- With more variables and properties known, an expression keeps the value that it
has. -/
theorem Expr.value_mono {read read' : String → Option Term} {prop prop' : String → String → Option Term} (e : Expr)
    (hread : ∀ name, Keeps (read name) (read' name))
    (h : ∀ access ∈ e.accesses, Keeps (prop access.1 access.2) (prop' access.1 access.2)) :
    Keeps (e.value scalars read prop) (e.value scalars read' prop') := by
  have hleft : ∀ {xs ys : List (String × String)} {P : String × String → Prop}, (∀ x ∈ xs ++ ys, P x) →
      ∀ x ∈ xs, P x := fun hall x hx => hall x (List.mem_append_left _ hx)
  have hright : ∀ {xs ys : List (String × String)} {P : String × String → Prop}, (∀ x ∈ xs ++ ys, P x) →
      ∀ y ∈ ys, P y := fun hall y hy => hall y (List.mem_append_right _ hy)
  induction e with
  | var name => exact hread name
  | property base key _ =>
    cases base with
    | var name => exact h (name, key) (List.mem_singleton_self _)
    | _ => exact fun t ht => ht
  | literal lit => exact fun t ht => ht
  | not inner ih => exact keeps_notValue (ih h)
  | neg inner ih =>
    intro t ht
    obtain ⟨x, hx, ht⟩ := Option.bind_eq_some_iff.mp ht
    rw [Expr.value, ih h x hx]
    exact ht
  | and l r ihl ihr => exact keeps_andValue (ihl (hleft h)) (ihr (hright h))
  | or l r ihl ihr => exact keeps_orValue (ihl (hleft h)) (ihr (hright h))
  | ne l r ihl ihr => exact keeps_notValue (keeps_both (ihl (hleft h)) (ihr (hright h)))
  | div l r ihl ihr => exact keeps_divValue (ihl (hleft h)) (ihr (hright h))
  | eq l r ihl ihr => exact keeps_both (ihl (hleft h)) (ihr (hright h))
  | lt l r ihl ihr => exact keeps_both (ihl (hleft h)) (ihr (hright h))
  | le l r ihl ihr => exact keeps_both (ihl (hleft h)) (ihr (hright h))
  | gt l r ihl ihr => exact keeps_both (ihl (hleft h)) (ihr (hright h))
  | ge l r ihl ihr => exact keeps_both (ihl (hleft h)) (ihr (hright h))
  | add l r ihl ihr => exact keeps_both (ihl (hleft h)) (ihr (hright h))
  | sub l r ihl ihr => exact keeps_both (ihl (hleft h)) (ihr (hright h))
  | mul l r ihl ihr => exact keeps_both (ihl (hleft h)) (ihr (hright h))

theorem Expr.value_congr {read : String → Option Term} {prop prop' : String → String → Option Term} (e : Expr)
    (h : ∀ access ∈ e.accesses, prop access.1 access.2 = prop' access.1 access.2) :
    e.value scalars read prop = e.value scalars read prop' := by
  have hto : Keeps (e.value scalars read prop) (e.value scalars read prop') :=
    e.value_mono (fun _ _ ht => ht) fun access ha t ht => by rwa [← h access ha]
  have hback : Keeps (e.value scalars read prop') (e.value scalars read prop) :=
    e.value_mono (fun _ _ ht => ht) fun access ha t ht => by rwa [h access ha]
  ext t
  exact ⟨hto t, hback t⟩

end Mono

end Cypher

end Nova
