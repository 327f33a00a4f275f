import Nova.Lib.Lifts
import Nova.Query.Distinct
import Nova.Query.Substitution
import Mathlib.Data.List.Perm.Basic

/-!
# Patterns evaluated apart

`EXISTS` and `LATERAL` do not substitute the outer solution into their pattern: they
evaluate it alone and keep the solutions that agree. `PatternSeparable` says, operator by
operator, when the two come to the same (`Nova.Query.Correlated` proves that they do).

What separates them is an expression that reads an outer variable its row does not bind, a
`MINUS` or an `OPTIONAL` whose sides meet in outer variables, and a slice or a group that is
taken before the outer solution is known.

`Narrowed` relates the solutions of a pattern to those of the pattern under an outer
solution: they are the rows that agree, each united with it. Here is what each operator
does to rows that are so related.
-/

namespace Nova

open Nova.Lib List PartialMap

/-! ## When a pattern is evaluated apart -/

/-- The solutions may come in another order under a substitution. -/
def GraphPattern.loose : GraphPattern → Bool
  | .bgp _ => false
  | .path _ _ _ => false
  | .join left right => left.loose || right.loose
  | .leftJoin left right _ => left.loose || right.loose
  | .lateral left right => left.loose || right.loose
  | .filter _ inner => inner.loose
  | .union left right => left.loose || right.loose
  | .graph _ inner => inner.loose
  | .extend inner _ _ => inner.loose
  | .minus left right => left.loose || right.loose
  | .values _ _ => false
  | .orderBy _ _ => true
  | .project inner _ => inner.loose
  | .distinct inner => inner.loose
  | .reduced inner => inner.loose
  | .slice inner _ _ => inner.loose
  | .group inner _ _ => inner.loose
  | .service _ _ _ => false

open QueryError (ofEval ofPath ofPanic toOption)
open GraphPattern (under settled)

namespace Eval

/-- It fails only with errors that no caller sees. -/
def Raises {α : Type} (r : Except QueryError α) : Prop := ∀ e, r = .error e → e.raised = true

/-- No variable of the pattern is substituted. -/
def Untouched (μ : Solution) (P : GraphPattern) : Prop := ∀ v ∈ P.free, ¬μ.contains v

/-- Rows have one key just when they are one mapping, alone and under the outer solution. -/
def KeysTell (scalars : Scalars) (μ : Mapping) (sols : List Solution) : Prop :=
  ∀ a ∈ sols, ∀ b ∈ sols, (scalars.solutionKey a = scalars.solutionKey b ↔ a.get = b.get) ∧
    ∀ a' b' : Solution, a'.Tidy → b'.Tidy → a'.get = PartialMap.union μ a.get → b'.get = PartialMap.union μ b.get →
      (scalars.solutionKey a' = scalars.solutionKey b' ↔ a'.get = b'.get)

/-- A count of solutions sees how many there are and which of them are equal. -/
def CountsRows (scalars : Scalars) (distinct : Bool) : Prop :=
  ∀ pairs : List (Solution × Solution),
    (∀ p ∈ pairs, ∀ q ∈ pairs, (p.1.get = q.1.get ↔ p.2.get = q.2.get)) →
      scalars.countSolutions distinct (pairs.map Prod.fst) = scalars.countSolutions distinct (pairs.map Prod.snd)

/-- A function sees the values of its arguments; `BNODE` sees the row too. -/
def CallsByValue (scalars : Scalars) : Prop :=
  ∀ func args sol sol', func ≠ .bNode → scalars.call func args sol = scalars.call func args sol'

/-- The filter is a full-text search that is pushed into the BGP. -/
def pushes (options : EvalOptions) (expr : Expression) (inner : GraphPattern) : Bool :=
  match options.textSearch, textSearchCall expr, inner with
  | some _, some (v, _, _), .bgp patterns => patterns.any fun tp => tp.object = .var v
  | _, _, _ => false

/-- A subtrahend shares no substituted variable, or shares them in all its meetings, beside
another variable. -/
def MinusSeparable (μ : Solution) (left right : GraphPattern) : Prop :=
  (∀ v ∈ right.scope, ¬μ.contains v) ∨
    (∀ v ∈ right.scope, μ.contains v → v ∈ left.certain) ∧ ∃ v ∈ left.certain, v ∈ right.certain ∧ ¬μ.contains v

section Conditions

variable (scalars : Scalars) (options : EvalOptions) (fuel : Nat) (ds : Dataset)

/-- The store and the services answer wherever the pattern asks them. -/
def Answers : GraphPattern → GraphSelector → Prop
  | .bgp patterns, ag => Raises (ofEval (evalBgp ds options.query patterns ag))
  | .path subject path object, ag =>
    Raises (ofPath (Path.evalPath scalars.fp scalars.display scalars.solutionKey fuel ds ag subject path object))
  | .join left right, ag => Answers left ag ∧ Answers right ag
  | .leftJoin left right _, ag => Answers left ag ∧ Answers right ag
  | .lateral left right, ag => Answers left ag ∧ Answers right ag
  | .filter expr inner, ag => Raises (tryTextSearchPushdown options ds expr inner ag) ∧ Answers inner ag
  | .union left right, ag => Answers left ag ∧ Answers right ag
  | .graph (.namedNode n) inner, _ => Answers inner (.named (.namedNode n))
  | .graph (.var _) inner, _ =>
    Raises (ofEval (ds.namedGraphs.mapError EvalError.store)) ∧
      ∀ names, ds.namedGraphs = .ok names → ∀ n, .namedNode n ∈ names → Answers inner (.named (.namedNode n))
  | .extend inner _ _, ag => Answers inner ag
  | .minus left right, ag => Answers left ag ∧ Answers right ag
  | .values _ _, _ => True
  | .orderBy inner _, ag => Answers inner ag
  | .project inner _, ag => Answers inner ag
  | .distinct inner, ag => Answers inner ag
  | .reduced inner, ag => Answers inner ag
  | .slice inner _ _, ag => Answers inner ag
  | .group inner _ _, ag => Answers inner ag
  | .service name inner silent, _ => silent = true ∨ Raises (evalService options name inner)

mutual
/-- Evaluating the pattern alone and joining comes to the same as substituting: what an
expression reads is bound beside it. -/
def PatternSeparable : GraphPattern → Solution → GraphSelector → Prop
  | .bgp _, _, _ => True
  | .path _ _ _, _, _ => True
  | .join left right, μ, ag =>
    Untouched μ (.join left right) ∨ PatternSeparable left μ ag ∧ PatternSeparable right μ ag
  | .leftJoin left right expression, μ, ag =>
    Untouched μ (.leftJoin left right expression) ∨
      PatternSeparable left μ ag ∧ PatternSeparable right μ ag ∧
        (∀ v ∈ right.scope, μ.contains v → v ∈ left.certain) ∧
        ConditionSeparable expression μ (left.certain ++ right.certain) ag
  | .lateral left right, μ, ag =>
    Untouched μ (.lateral left right) ∨
      PatternSeparable left μ ag ∧ PatternSeparable right μ ag ∧ Answers scalars options fuel ds right ag
  | .filter expr inner, μ, ag =>
    Untouched μ (.filter expr inner) ∨
      pushes options expr inner = false ∧ PatternSeparable inner μ ag ∧ ExprSeparable expr μ inner.certain ag
  | .union left right, μ, ag =>
    Untouched μ (.union left right) ∨ PatternSeparable left μ ag ∧ PatternSeparable right μ ag
  | .graph (.namedNode n) inner, μ, _ =>
    Untouched μ (.graph (.namedNode n) inner) ∨ PatternSeparable inner μ (.named (.namedNode n))
  | .graph (.var v) inner, μ, _ =>
    Untouched μ (.graph (.var v) inner) ∨
      ∀ names, ds.namedGraphs = .ok names → ∀ n, .namedNode n ∈ names →
        PatternSeparable inner μ (.named (.namedNode n))
  | .extend inner v expression, μ, ag =>
    Untouched μ (.extend inner v expression) ∨
      PatternSeparable inner (μ.without v) ag ∧ ExprSeparable expression (μ.without v) inner.certain ag
  | .minus left right, μ, ag =>
    Untouched μ (.minus left right) ∨
      PatternSeparable left μ ag ∧ PatternSeparable right μ ag ∧ MinusSeparable μ left right
  | .values _ _, _, _ => True
  | .orderBy inner expression, μ, ag =>
    Untouched μ (.orderBy inner expression) ∨
      PatternSeparable inner μ ag ∧ OrdersSeparable expression μ inner.certain ag
  | .project inner vars, μ, ag =>
    Untouched μ (.project inner vars) ∨ PatternSeparable inner (μ.project vars) ag
  | .distinct inner, μ, ag =>
    Untouched μ (.distinct inner) ∨
      PatternSeparable inner μ ag ∧ (∀ v ∈ inner.scope, μ.contains v → v ∈ inner.certain) ∧
        ∀ sols, evalPattern scalars options fuel ds inner ag = .ok sols → KeysTell scalars μ.get sols
  | .reduced inner, μ, ag => Untouched μ (.reduced inner) ∨ PatternSeparable inner μ ag
  | .slice inner start length, μ, _ => Untouched μ (.slice inner start length)
  | .group inner vars aggregates, μ, ag =>
    Untouched μ (.group inner vars aggregates) ∨
      inner.loose = false ∧ PatternSeparable inner μ ag ∧ AggregatesSeparable aggregates μ inner.certain ag ∧
        (∀ v ∈ inner.scope ++ vars, μ.contains v → v ∈ vars ∧ v ∈ inner.certain) ∧
        (∀ v ∈ GraphPattern.targets aggregates, μ.contains v → v ∉ vars) ∧
        Function.Injective scalars.display
  | .service name _ _, μ, _ => ∀ v ∈ name.vars, ¬μ.contains v

def ConditionSeparable : Option Expression → Solution → List Variable → GraphSelector → Prop
  | none, _, _, _ => True
  | some e, μ, C, ag => ExprSeparable e μ C ag

/-- The substituted variables that the expression reads are among those that its row binds. -/
def ExprSeparable : Expression → Solution → List Variable → GraphSelector → Prop
  | .namedNode _, _, _, _ => True
  | .literal _, _, _, _ => True
  | .var v, μ, C, _ => μ.contains v → v ∈ C
  | .or a b, μ, C, ag => ExprSeparable a μ C ag ∧ ExprSeparable b μ C ag
  | .and a b, μ, C, ag => ExprSeparable a μ C ag ∧ ExprSeparable b μ C ag
  | .not e, μ, C, ag => ExprSeparable e μ C ag
  | .binary _ a b, μ, C, ag => ExprSeparable a μ C ag ∧ ExprSeparable b μ C ag
  | .divide a b, μ, C, ag => ExprSeparable a μ C ag ∧ ExprSeparable b μ C ag
  | .inList e list, μ, C, ag => ExprSeparable e μ C ag ∧ ExprsSeparable list μ C ag
  | .unaryPlus e, μ, C, ag => ExprSeparable e μ C ag
  | .unaryMinus e, μ, C, ag => ExprSeparable e μ C ag
  | .exists pattern, μ, C, ag =>
    pattern.ProjectsOnce ∧ PatternSeparable pattern μ ag ∧ ∀ v ∈ pattern.scope, μ.contains v → v ∈ C
  | .bound v, μ, C, _ => μ.contains v → v ∈ C
  | .ite cond thenE elseE, μ, C, ag =>
    ExprSeparable cond μ C ag ∧ ExprSeparable thenE μ C ag ∧ ExprSeparable elseE μ C ag
  | .coalesce list, μ, C, ag => ExprsSeparable list μ C ag
  | .functionCall func args, μ, C, ag => func ≠ .bNode ∧ ExprsSeparable args μ C ag

def ExprsSeparable : List Expression → Solution → List Variable → GraphSelector → Prop
  | [], _, _, _ => True
  | e :: rest, μ, C, ag => ExprSeparable e μ C ag ∧ ExprsSeparable rest μ C ag

def OrdersSeparable : List OrderExpression → Solution → List Variable → GraphSelector → Prop
  | [], _, _, _ => True
  | oe :: rest, μ, C, ag => OrderSeparable oe μ C ag ∧ OrdersSeparable rest μ C ag

/-- A plain variable may be read as it is: the order of the solutions is left open. -/
def OrderSeparable : OrderExpression → Solution → List Variable → GraphSelector → Prop
  | .asc e, μ, C, ag => (∃ v, e = .var v) ∨ ExprSeparable e μ C ag
  | .desc e, μ, C, ag => (∃ v, e = .var v) ∨ ExprSeparable e μ C ag

def AggregatesSeparable : List Aggregate → Solution → List Variable → GraphSelector → Prop
  | [], _, _, _ => True
  | agg :: rest, μ, C, ag => AggregateSeparable agg μ C ag ∧ AggregatesSeparable rest μ C ag

def AggregateSeparable : Aggregate → Solution → List Variable → GraphSelector → Prop
  | .countSolutions _ distinct, _, _, _ => CountsRows scalars distinct
  | .functionCall _ _ e _, μ, C, ag => ExprSeparable e μ C ag
end

end Conditions

/-! ## What an expression raises -/

variable {α : Type}

theorem raises_ok (a : α) : Raises (.ok a : Except QueryError α) := fun _ h => by cases h

theorem Raises.bind {β : Type} {r : Except QueryError α} {f : α → Except QueryError β} (h : Raises r)
    (hf : ∀ a, Raises (f a)) : Raises (r >>= f) := by
  intro e he
  cases r with
  | ok a => exact hf a e he
  | error e' =>
    cases he
    exact h _ rfl

theorem Raises.mapM {β : Type} {f : α → Except QueryError β} {l : List α} (h : ∀ x ∈ l, Raises (f x)) :
    Raises (l.mapM f) := by
  induction l with
  | nil => exact raises_ok []
  | cons x xs ih =>
    obtain ⟨hx, hxs⟩ := forall_mem_cons.mp h
    rw [mapM_cons]
    exact hx.bind fun y => (ih hxs).bind fun ys => raises_ok _

theorem raises_ofPanic (r : Except Panic α) : Raises (ofPanic r) := by
  intro e he
  cases r with
  | ok a => cases he
  | error p =>
    cases he
    rfl

theorem raises_toOption (r : Except QueryError α) : Raises (toOption r) := by
  intro e he
  cases r with
  | ok a => cases he
  | error e' =>
    unfold toOption at he
    dsimp only at he
    split at he
    · next hraised =>
      cases he
      exact hraised
    · cases he

theorem raises_evalTextScalar (options : EvalOptions) (ds : Dataset) (term : Option Term) (query : Option String)
    (mode : TextFn) : Raises (evalTextScalar options ds term query mode) := by
  unfold evalTextScalar
  split
  · split
    · exact raises_ok _
    · refine (raises_ofPanic _).bind fun id => ?_
      cases id with
      | none => exact raises_ok _
      | some id => exact raises_ok _
  · exact raises_ok _

variable {rs : List Solution} {passes : Solution → Except QueryError Bool}

section Raised

variable {scalars : Scalars} {options : EvalOptions} {fuel : Nat} {ds : Dataset}

theorem raises_ebvOf {r : Except QueryError (Option Term)} (h : Raises r) : Raises (ebvOf scalars r) :=
  h.bind fun _ => raises_ok _

theorem raises_bothThen {a b : Except QueryError (Option Term)} {f : Term → Term → Except QueryError (Option Term)}
    (ha : Raises a) (hb : Raises b) (hf : ∀ x y, Raises (f x y)) : Raises (bothThen a b f) := by
  refine ha.bind fun av => ?_
  cases av with
  | none => exact raises_ok _
  | some x =>
    refine hb.bind fun bv => ?_
    cases bv with
    | none => exact raises_ok _
    | some y => exact hf x y

mutual
/-- An expression has no value where something fails that a caller would see; a pattern
inside that fails so is caught by its `EXISTS`. -/
theorem raises_evalExpr : ∀ (e : Expression) (sol : Solution) (ag : GraphSelector),
    Raises (evalExpr scalars options fuel ds e sol ag)
  | .namedNode _, _, _ => by
    rw [evalExpr]
    exact raises_ok _
  | .literal _, _, _ => by
    rw [evalExpr]
    exact raises_ok _
  | .var _, _, _ => by
    rw [evalExpr]
    exact raises_ok _
  | .or a b, sol, ag => by
    rw [evalExpr]
    exact (raises_ebvOf (raises_evalExpr a sol ag)).bind fun _ =>
      (raises_ebvOf (raises_evalExpr b sol ag)).bind fun _ => raises_ok _
  | .and a b, sol, ag => by
    rw [evalExpr]
    exact (raises_ebvOf (raises_evalExpr a sol ag)).bind fun _ =>
      (raises_ebvOf (raises_evalExpr b sol ag)).bind fun _ => raises_ok _
  | .not e, sol, ag => by
    rw [evalExpr]
    exact (raises_ebvOf (raises_evalExpr e sol ag)).bind fun _ => raises_ok _
  | .binary op a b, sol, ag => by
    rw [evalExpr]
    exact raises_bothThen (raises_evalExpr a sol ag) (raises_evalExpr b sol ag) fun _ _ => raises_ok _
  | .divide a b, sol, ag => by
    rw [evalExpr]
    refine (raises_evalExpr b sol ag).bind fun bv => ?_
    cases bv with
    | none => exact raises_ok _
    | some t =>
      dsimp only
      split
      · exact raises_ok _
      · exact (raises_evalExpr a sol ag).bind fun _ => raises_ok _
  | .inList e list, sol, ag => by
    rw [evalExpr]
    refine (raises_evalExpr e sol ag).bind fun t => ?_
    cases t with
    | none => exact raises_ok _
    | some t => exact raises_evalIn t false list sol ag
  | .unaryPlus e, sol, ag => by
    rw [evalExpr]
    exact (raises_evalExpr e sol ag).bind fun _ => raises_ok _
  | .unaryMinus e, sol, ag => by
    rw [evalExpr]
    exact (raises_evalExpr e sol ag).bind fun _ => raises_ok _
  | .exists pattern, sol, ag => by
    rw [evalExpr]
    refine (raises_toOption _).bind fun candidates => ?_
    cases candidates with
    | none => exact raises_ok _
    | some rows => exact raises_ok _
  | .bound _, _, _ => by
    rw [evalExpr]
    exact raises_ok _
  | .ite cond thenE elseE, sol, ag => by
    rw [evalExpr]
    refine (raises_ebvOf (raises_evalExpr cond sol ag)).bind fun b => ?_
    rcases b with _ | _ | _
    · exact raises_ok _
    · exact raises_evalExpr elseE sol ag
    · exact raises_evalExpr thenE sol ag
  | .coalesce list, sol, ag => by
    rw [evalExpr]
    exact raises_evalCoalesce list sol ag
  | .functionCall func args, sol, ag => by
    rw [evalExpr]
    refine (raises_evalArgs args sol ag).bind fun values => ?_
    split
    · split
      · exact raises_evalTextScalar _ _ _ _ _
      · exact raises_ok _
    · exact raises_ok _

theorem raises_evalIn (t : Term) : ∀ (hadErr : Bool) (list : List Expression) (sol : Solution)
    (ag : GraphSelector),
    Raises (evalIn scalars options fuel ds t hadErr list sol ag)
  | _, [], _, _ => by
    rw [evalIn]
    exact raises_ok _
  | hadErr, e :: rest, sol, ag => by
    rw [evalIn]
    refine (raises_evalExpr e sol ag).bind fun item => ?_
    cases item with
    | none => exact raises_evalIn t true rest sol ag
    | some item =>
      dsimp only
      split
      · exact raises_ok _
      · exact raises_evalIn t hadErr rest sol ag

theorem raises_evalCoalesce : ∀ (list : List Expression) (sol : Solution) (ag : GraphSelector),
    Raises (evalCoalesce scalars options fuel ds list sol ag)
  | [], _, _ => by
    rw [evalCoalesce]
    exact raises_ok _
  | e :: rest, sol, ag => by
    rw [evalCoalesce]
    refine (raises_evalExpr e sol ag).bind fun t => ?_
    cases t with
    | none => exact raises_evalCoalesce rest sol ag
    | some t => exact raises_ok _

theorem raises_evalArgs : ∀ (list : List Expression) (sol : Solution) (ag : GraphSelector),
    Raises (evalArgs scalars options fuel ds list sol ag)
  | [], _, _ => by
    rw [evalArgs]
    exact raises_ok _
  | e :: rest, sol, ag => by
    rw [evalArgs]
    exact (raises_evalExpr e sol ag).bind fun _ => (raises_evalArgs rest sol ag).bind fun _ => raises_ok _
end

theorem raises_evalCondition (e : Option Expression) (sol : Solution) (ag : GraphSelector) :
    Raises (evalCondition scalars options fuel ds e sol ag) := by
  cases e with
  | none =>
    exact raises_ok _
  | some e =>
    exact (raises_ebvOf (raises_evalExpr e sol ag)).bind fun _ => raises_ok _

theorem raises_orderKey (oe : OrderExpression) (sol : Solution) (ag : GraphSelector) :
    Raises (orderKey scalars options fuel ds oe sol ag) := by
  cases oe with
  | asc e =>
    exact (raises_evalExpr e sol ag).bind fun _ => raises_ok _
  | desc e =>
    exact (raises_evalExpr e sol ag).bind fun _ => raises_ok _

theorem raises_orderKeys (list : List OrderExpression) (sol : Solution) (ag : GraphSelector) :
    Raises (orderKeys scalars options fuel ds list sol ag) := by
  induction list with
  | nil =>
    exact raises_ok _
  | cons oe rest ih =>
    exact (raises_orderKey oe sol ag).bind fun _ => ih.bind fun _ => raises_ok _

theorem raises_evalAggregates (aggs : List Aggregate) (group : List Solution) (row : Solution)
    (ag : GraphSelector) :
    Raises (evalAggregates scalars options fuel ds aggs group row ag) := by
  induction aggs generalizing row with
  | nil =>
    exact raises_ok _
  | cons agg rest ih =>
    refine Raises.bind ?_ fun row => ih row
    cases agg with
    | countSolutions v distinct =>
      exact raises_ok _
    | functionCall v name e distinct =>
      exact (Raises.mapM fun sol _ => raises_evalExpr e sol ag).bind fun _ => raises_ok _

theorem raises_leftJoinOne
    (hraise : ∀ row, Raises (passes row)) (l : Solution) : Raises (leftJoinOne rs passes l) := by
  refine Raises.bind ?_ fun _ => raises_ok _
  rw [filterM_eq_mapM]
  exact (Raises.mapM fun row _ => (hraise row).bind fun _ => raises_ok _).bind fun _ => raises_ok _

/-- Nothing else fails in a pattern than what it asks. -/
theorem raises_evalPattern : ∀ (P : GraphPattern) {ag : GraphSelector}, Answers scalars options fuel ds P ag →
    Raises (evalPattern scalars options fuel ds P ag)
  | .bgp patterns, ag, h => by
    rw [Answers] at h
    rw [evalPattern]
    exact h
  | .path subject path object, ag, h => by
    rw [Answers] at h
    rw [evalPattern]
    exact h
  | .join left right, ag, h => by
    rw [Answers] at h
    rw [evalPattern]
    exact (raises_evalPattern left h.1).bind fun _ => (raises_evalPattern right h.2).bind fun _ => raises_ok _
  | .leftJoin left right expression, ag, h => by
    rw [Answers] at h
    rw [evalPattern]
    refine (raises_evalPattern left h.1).bind fun ls => (raises_evalPattern right h.2).bind fun rs => ?_
    refine Raises.bind (Raises.mapM fun l _ => ?_) fun _ => raises_ok _
    exact raises_leftJoinOne (fun row => raises_evalCondition expression row ag) l
  | .lateral left right, ag, h => by
    rw [Answers] at h
    rw [evalPattern]
    refine (raises_evalPattern left h.1).bind fun ls => ?_
    split
    · exact raises_ok _
    · exact (raises_evalPattern right h.2).bind fun _ => raises_ok _
  | .filter expr inner, ag, h => by
    rw [Answers] at h
    rw [evalPattern]
    refine h.1.bind fun pushed => ?_
    -- a full-text search may answer for the filter
    cases pushed with
    | some sols => exact raises_ok _
    | none =>
      refine (raises_evalPattern inner h.2).bind fun sols => ?_
      rw [filterM_eq_mapM]
      refine Raises.bind (Raises.mapM fun sol _ => ?_) fun _ => raises_ok _
      exact ((raises_ebvOf (raises_evalExpr expr sol ag)).bind fun _ => raises_ok _).bind fun _ => raises_ok _
  | .union left right, ag, h => by
    rw [Answers] at h
    rw [evalPattern]
    exact (raises_evalPattern left h.1).bind fun _ => (raises_evalPattern right h.2).bind fun _ => raises_ok _
  | .graph (.namedNode n) inner, ag, h => by
    rw [Answers] at h
    rw [evalPattern]
    exact raises_evalPattern inner h
  | .graph (.var v) inner, ag, h => by
    rw [Answers] at h
    rw [evalPattern]
    obtain ⟨hnamed, hinner⟩ := h
    intro e he
    cases hnames : ds.namedGraphs with
    | error f =>
      rw [hnames] at hnamed he
      cases he
      exact hnamed _ rfl
    | ok names =>
      rw [hnames] at he
      refine Raises.bind (Raises.mapM fun name hname => ?_) (fun _ => raises_ok _) e he
      split
      · exact (raises_evalPattern inner (hinner names hnames _ hname)).bind fun _ => raises_ok _
      · exact raises_ok _
  | .extend inner v expression, ag, h => by
    refine (raises_evalPattern inner h).bind fun sols => Raises.mapM fun sol _ => ?_
    refine (raises_evalExpr expression sol ag).bind fun t => ?_
    cases t with
    | none => exact raises_ok _
    | some t => exact raises_ok _
  | .minus left right, ag, h => by
    exact (raises_evalPattern left h.1).bind fun _ => (raises_evalPattern right h.2).bind fun _ => raises_ok _
  | .values _ _, _, _ => by
    exact raises_ok _
  | .orderBy inner expression, ag, h => by
    refine (raises_evalPattern inner h).bind fun sols => ?_
    split
    · exact raises_ok _
    · refine Raises.bind (Raises.mapM fun sol _ => ?_) fun _ => raises_ok _
      exact (raises_orderKeys expression sol ag).bind fun _ => raises_ok _
  | .project inner _, ag, h => by
    exact (raises_evalPattern inner h).bind fun _ => raises_ok _
  | .distinct inner, ag, h => by
    exact (raises_evalPattern inner h).bind fun _ => raises_ok _
  | .reduced inner, ag, h => by
    rw [evalPattern]
    exact raises_evalPattern inner h
  | .slice inner _ length, ag, h => by
    rw [evalPattern]
    exact (raises_evalPattern inner h).bind fun _ => raises_ok _
  | .group inner vars aggregates, ag, h => by
    rw [evalPattern]
    exact (raises_evalPattern inner h).bind fun sols => Raises.mapM fun group _ =>
      raises_evalAggregates aggregates group (groupRow vars group) ag
  | .service name inner silent, _, h => by
    rw [evalPattern]
    intro e he
    split at he
    · next err herr =>
      -- SILENT turns the failure into no rows
      rcases h with rfl | h
      · cases he
      · split at he
        · cases he
        · cases he
          exact h _ herr
    · cases he

end Raised

/-! ## Rows beside the outer solution -/

/-- The second run ends as the first one, unless this one raises. -/
abbrev Mirrors {α β : Type} (R : α → β → Prop) (r : Except QueryError α) (r' : Except QueryError β) : Prop :=
  Lifts (fun e : QueryError => e.raised = true) R r r'

/-- A row that agrees with the outer solution and binds `C`, and the same row under it. -/
structure Joined (μ : Mapping) (C : List Variable) (sol sol' : Solution) : Prop where
  agree : PartialMap.Agree μ sol.get
  get_eq : sol'.get = PartialMap.union μ sol.get
  binds : ∀ v ∈ C, (sol.get v).isSome = true

/-- A row whose variables that the outer solution shares are all among `C`, and the same
row under it. -/
def Paired (μ : Mapping) (C : List Variable) (sol sol' : Solution) : Prop :=
  Joined μ C sol sol' ∧ ∀ v, (sol.get v).isSome = true → (μ v).isSome = true → v ∈ C

/-- The rows that agree with the outer solution, each united with it. -/
def Narrowed (loose : Bool) (μ : Mapping) (sols sols' : List Solution) : Prop :=
  Picks loose (fun sol : Solution => PartialMap.Agree μ sol.get)
    (fun sol sol' : Solution => sol'.Tidy ∧ sol'.get = PartialMap.union μ sol.get) sols sols'

theorem isSome_mergeCompatible {sol other : Solution} (hother : other.Tidy) :
    (sol.mergeCompatible other).isSome = true ↔ PartialMap.Agree sol.get other.get := by
  have hmap : (sol.mergeCompatible other).map Solution.get = PartialMap.unite sol.get other.get :=
    Solution.map_get_mergeCompatible hother
  have hsome : (sol.mergeCompatible other).isSome = (PartialMap.unite sol.get other.get).isSome := by
    rw [← hmap, Option.isSome_map]
  rw [hsome]
  by_cases hagree : PartialMap.Agree sol.get other.get
  · simp [unite_of_agree hagree, hagree]
  · simp [unite_of_not hagree, hagree]

variable {sols sols' : List Solution}

variable {rs' : List Solution}

variable {v : Variable}

section Rows

variable {μ : Mapping} {C : List Variable} {sol sol' : Solution} {loose : Bool}

theorem Joined.get (h : Joined μ C sol sol') (hv : (μ v).isSome = true → v ∈ C) : sol'.get v = sol.get v := by
  rw [h.get_eq, union_apply]
  cases hμ : μ v with
  | none => rfl
  | some t =>
    obtain ⟨u, hu⟩ := Option.isSome_iff_exists.mp (h.binds v (hv (by rw [hμ]; rfl)))
    rw [hu, Option.some_or, h.agree v t u hμ hu]

/-- What agrees with the row agrees with the outer solution, where the row binds what the
two share. -/
theorem Joined.agree_of_agree (h : Joined μ C sol sol') {other : Solution}
    (hother : ∀ v, (other.get v).isSome = true → (μ v).isSome = true → v ∈ C)
    (hagree : PartialMap.Agree sol.get other.get) : PartialMap.Agree μ other.get := by
  intro v t u ht hu
  obtain ⟨w, hw⟩ := Option.isSome_iff_exists.mp (h.binds v (hother v (by rw [hu]; rfl) (by rw [ht]; rfl)))
  rw [h.agree v t w ht hw, hagree v w u hw hu]

theorem Paired.get_eq_iff {a a' b b' : Solution} (ha : Paired μ C a a') (hb : Paired μ C b b') :
    a.get = b.get ↔ a'.get = b'.get := by
  rw [ha.1.get_eq, hb.1.get_eq]
  refine ⟨fun h => by rw [h], fun h => funext fun v => ?_⟩
  have hv := congrFun h v
  rw [union_apply, union_apply] at hv
  cases hμ : μ v with
  | none => rwa [hμ, Option.none_or, Option.none_or] at hv
  | some t =>
    -- both rows bind the variable as the outer solution does, or neither binds it
    have hshared : (μ v).isSome = true := by rw [hμ]; rfl
    by_cases hC : v ∈ C
    · obtain ⟨u, hu⟩ := Option.isSome_iff_exists.mp (ha.1.binds v hC)
      obtain ⟨w, hw⟩ := Option.isSome_iff_exists.mp (hb.1.binds v hC)
      rw [hu, hw, ← ha.1.agree v t u hμ hu, ← hb.1.agree v t w hμ hw]
    · have hnone : ∀ c c' : Solution, Paired μ C c c' → c.get v = none := fun c c' hc =>
        Option.not_isSome_iff_eq_none.mp fun hsome => hC (hc.2 v hsome hshared)
      rw [hnone a a' ha, hnone b b' hb]

/-- An `EXISTS` finds a row just when it does under the outer solution. -/
theorem any_mergeCompatible (h : Narrowed loose μ sols sols') (hj : Joined μ C sol sol')
    (hsols : ∀ c ∈ sols, c.Tidy ∧ ∀ v, (c.get v).isSome = true → (μ v).isSome = true → v ∈ C) :
    (sols.any fun c => (sol.mergeCompatible c).isSome) = sols'.any fun c => (sol'.mergeCompatible c).isSome := by
  rw [Bool.eq_iff_iff, any_eq_true, any_eq_true]
  constructor
  · rintro ⟨c, hc, hm⟩
    obtain ⟨htidy, hshared⟩ := hsols c hc
    have hagree := (isSome_mergeCompatible htidy).mp hm
    have hkept := hj.agree_of_agree hshared hagree
    obtain ⟨c', hc', htidy', hget⟩ := h.exists_partner c hc hkept
    refine ⟨c', hc', (isSome_mergeCompatible htidy').mpr ?_⟩
    rw [hj.get_eq, hget]
    exact (agree_union_union hj.agree hkept).mpr hagree
  · rintro ⟨c', hc', hm⟩
    obtain ⟨c, hc, hkept, htidy', hget⟩ := h.exists_kept c' hc'
    have hagree := (isSome_mergeCompatible htidy').mp hm
    rw [hj.get_eq, hget] at hagree
    exact ⟨c, hc, (isSome_mergeCompatible (hsols c hc).1).mpr
      ((agree_union_union hj.agree hkept).mp hagree)⟩

theorem narrowed_matches (hj : Joined μ C sol sol') (htidy : sol'.Tidy)
    (h : Narrowed loose μ rs rs') (hrs : ∀ r ∈ rs, r.Tidy) :
    Narrowed loose μ (rs.filterMap sol.mergeCompatible) (rs'.filterMap sol'.mergeCompatible) := by
  refine Picks.filterMap h (fun r hr r' hkept hr' => ?_) fun r hr hdropped x hx hagree => ?_
  · obtain ⟨htidy', hget⟩ := hr'
    cases hm : sol.mergeCompatible r with
    | some merged =>
      obtain ⟨hagree, hmerged⟩ := get_mergeCompatible (hrs r hr) hm
      have hagree' : PartialMap.Agree sol'.get r'.get := by
        rw [hj.get_eq, hget]
        exact (agree_union_union hj.agree hkept).mpr hagree
      obtain ⟨merged', hm'⟩ := Option.isSome_iff_exists.mp ((isSome_mergeCompatible htidy').mpr hagree')
      have hmerged' := (get_mergeCompatible htidy' hm').2
      rw [hm']
      refine .keep ?_ ⟨htidy.mergeCompatible hm', ?_⟩ .nil
      · rw [hmerged]
        exact (agree_union_right hagree).mpr ⟨hj.agree, hkept⟩
      · rw [hmerged', hmerged, hj.get_eq, hget, union_union_union]
    | none =>
      have hno : sol'.mergeCompatible r' = none := by
        rw [← Option.not_isSome_iff_eq_none, isSome_mergeCompatible htidy', hj.get_eq, hget,
          agree_union_union hj.agree hkept, ← isSome_mergeCompatible (hrs r hr), hm]
        exact Bool.false_ne_true
      rw [hno]
      exact .nil
  · obtain ⟨hmatch, hget⟩ := get_mergeCompatible (hrs r hr) hx
    rw [hget, agree_union_right hmatch] at hagree
    exact hdropped hagree.2

theorem narrowed_joinSolutions {ls ls' : List Solution} (hl : Narrowed loose μ ls ls')
    (hr : Narrowed loose μ rs rs') (hrs : ∀ r ∈ rs, r.Tidy) :
    Narrowed loose μ (joinSolutions ls rs) (joinSolutions ls' rs') := by
  refine Picks.flatMap hl (fun l _ l' hkept hl' => ?_) fun l _ hdropped x hx hagree => ?_
  · have hj : Joined μ [] l l' := ⟨hkept, hl'.2, nofun⟩
    exact narrowed_matches hj hl'.1 hr hrs
  · obtain ⟨r, hr, hm⟩ := mem_filterMap.mp hx
    obtain ⟨hmatch, hget⟩ := get_mergeCompatible (hrs r hr) hm
    rw [hget, agree_union_right hmatch] at hagree
    exact hdropped hagree.1

/-! ## Runs along the rows -/

/-- What a run gives row by row, under the outer solution too. -/
theorem mirrors_each {μ' : Mapping} {f g : Solution → Except QueryError (List Solution)}
    (h : Narrowed loose μ sols sols') (hraise : ∀ sol ∈ sols, Raises (f sol))
    (hkeep : ∀ sol ∈ sols, ∀ sol', PartialMap.Agree μ sol.get → sol'.Tidy →
      sol'.get = PartialMap.union μ sol.get → Mirrors (Narrowed loose μ') (f sol) (g sol'))
    (hdrop : ∀ sol ∈ sols, ¬PartialMap.Agree μ sol.get → ∀ out, f sol = .ok out →
      ∀ x ∈ out, ¬PartialMap.Agree μ' x.get) :
    Mirrors (Narrowed loose μ') (do return (← sols.mapM f).flatten) (do return (← sols'.mapM g).flatten) := by
  cases hout : sols.mapM f with
  | error e => exact Or.inl (Raises.mapM hraise e hout)
  | ok out =>
    obtain ⟨out', hout', hpicks⟩ := Picks.mapM h
      (fun sol hsol sol' hkept hsol' xs hxs => (hkeep sol hsol sol' hkept hsol'.1 hsol'.2).of_ok hxs) hdrop hout
    rw [hout']
    exact .ok hpicks

theorem mirrors_filterM {p q : Solution → Except QueryError Bool}
    (h : Narrowed loose μ sols sols') (hraise : ∀ sol ∈ sols, Raises (p sol))
    (hsame : ∀ sol ∈ sols, ∀ sol', PartialMap.Agree μ sol.get → sol'.get = PartialMap.union μ sol.get →
      Mirrors Eq (p sol) (q sol')) : Mirrors (Narrowed loose μ) (sols.filterM p) (sols'.filterM q) := by
  rw [filterM_eq_mapM, filterM_eq_mapM]
  refine mirrors_each h (fun sol hsol => (hraise sol hsol).bind fun _ => raises_ok _) ?_ ?_
  · intro sol hsol sol' hkept htidy hget
    refine (hsame sol hsol sol' hkept hget).bind_eq fun b => .ok ?_
    cases b with
    | true => exact .keep hkept ⟨htidy, hget⟩ .nil
    | false => exact .nil
  · intro sol _ hdropped out hout x hx
    obtain ⟨b, _, hout⟩ := bind_ok hout
    cases hout
    cases b with
    | true => rwa [mem_singleton.mp hx]
    | false => exact absurd hx not_mem_nil

/-! ## Picked rows as mappings -/

theorem Narrowed.perm (h : Narrowed loose μ sols sols') :
    (sols'.map Solution.get).Perm ((sols.map Solution.get).filterMap (PartialMap.unite μ)) := by
  induction h with
  | nil => exact .nil
  | keep hkept hpair _ ih =>
    rw [map_cons, map_cons, filterMap_cons_some (unite_of_agree hkept), hpair.2]
    exact ih.cons _
  | drop hdropped _ ih =>
    rwa [map_cons, filterMap_cons_none (unite_of_not hdropped)]
  | perm _ _ hsols hsols' ih =>
    exact ((hsols'.symm.map _).trans ih).trans ((hsols.map _).filterMap _)

theorem narrowed_of_perm (htidy : ∀ sol' ∈ sols', sol'.Tidy)
    (h : (sols'.map Solution.get).Perm ((sols.map Solution.get).filterMap (PartialMap.unite μ))) :
    Narrowed true μ sols sols' := by
  -- the partners, in the order of the rows
  have hread : List.Forall₂ (fun (m : Mapping) (sol' : Solution) => sol'.get = m)
      (sols'.map Solution.get) sols' := by
    rw [forall₂_map_left_iff]
    exact forall₂_same.mpr fun _ _ => rfl
  obtain ⟨ordered, hordered, hperm⟩ := perm_comp_forall₂ h.symm hread
  have hpicks : ∀ (rows rows' : List Solution), (∀ r ∈ rows', r.Tidy) →
      List.Forall₂ (fun (m : Mapping) (sol' : Solution) => sol'.get = m)
        ((rows.map Solution.get).filterMap (PartialMap.unite μ)) rows' → Narrowed true μ rows rows' := by
    intro rows
    induction rows with
    | nil =>
      intro rows' _ hall
      cases hall
      exact .nil
    | cons row rows ih =>
      intro rows' htidy hall
      by_cases hagree : PartialMap.Agree μ row.get
      · rw [map_cons, filterMap_cons_some (unite_of_agree hagree)] at hall
        cases hall with
        | cons hget hrest =>
          obtain ⟨hfirst, htidy⟩ := forall_mem_cons.mp htidy
          exact .keep hagree ⟨hfirst, hget⟩ (ih _ htidy hrest)
      · rw [map_cons, filterMap_cons_none (unite_of_not hagree)] at hall
        exact .drop hagree (ih _ htidy hall)
  exact Picks.perm rfl (hpicks sols ordered (fun r hr => htidy r (hperm.mem_iff.mp hr)) hordered) (.refl _) hperm

/-! ## The row of the outer solution -/

end Rows

/-- The solution of `GraphPattern.row`. -/
def rowSolution (μ : Solution) : Solution := valuesRow μ.vars (μ.vars.map μ.get)

theorem tidy_rowSolution (μ : Solution) : (rowSolution μ).Tidy := (tidy_valuesRow _ _).1

theorem get_rowSolution (μ : Solution) : (rowSolution μ).get = μ.get := by
  have hcells : μ.vars.zip (μ.vars.map μ.get) = μ.vars.map fun v => (v, μ.get v) :=
    map_prod_left_eq_zip.symm
  funext v
  rw [rowSolution, valuesRow, hcells, foldl_map]
  refine ((foldl_bind_rows (f := μ.get) Solution.tidy_new).2 v).trans ?_
  split
  · rfl
  · next hno =>
    cases hv : μ.get v with
    | none => rfl
    | some t => exact absurd ⟨Solution.mem_vars_of_get (by rw [hv]; rfl), by rw [hv]; rfl⟩ hno

section Under

variable {scalars : Scalars} {options : EvalOptions} {fuel : Nat} {ds : Dataset} {ag : GraphSelector}
  {μ : Solution} {μ' : Mapping} {loose : Bool}

theorem evalPattern_under (P : GraphPattern) : evalPattern scalars options fuel ds (under μ P) ag = do
    let sols ← evalPattern scalars options fuel ds P ag
    return joinSolutions [rowSolution μ] sols := by
  rfl

theorem narrowed_under (hpart : ∀ v t, μ' v = some t → μ.get v = some t)
    (h : Narrowed loose μ' sols sols') : Narrowed loose μ.get sols (joinSolutions [rowSolution μ] sols') := by
  have hpart' : PartialMap.Agree μ.get μ' := fun v t u ht hu => Option.some.inj (ht.symm.trans (hpart v u hu))
  have hunion : ∀ ν : Mapping, PartialMap.union μ.get (PartialMap.union μ' ν) = PartialMap.union μ.get ν := by
    intro ν
    rw [← union_assoc]
    congr 1
    funext v
    rw [union_apply]
    cases hv : μ' v with
    | none => exact Option.or_none
    | some t => rw [hpart v t hv, Option.some_or]
  have hjoin : joinSolutions [rowSolution μ] sols' = sols'.filterMap (rowSolution μ).mergeCompatible := by
    rw [joinSolutions, flatMap_singleton]
  rw [hjoin, ← filterMap_some (l := sols)]
  refine Picks.filterMap h (fun sol _ sol' hkept hsol' => ?_) fun sol _ hdropped x hx hagree => ?_
  · obtain ⟨htidy, hget⟩ := hsol'
    have hiff : PartialMap.Agree (rowSolution μ).get sol'.get ↔ PartialMap.Agree μ.get sol.get := by
      rw [get_rowSolution, hget, agree_union_right hkept]
      exact and_iff_right hpart'
    cases hm : (rowSolution μ).mergeCompatible sol' with
    | some merged =>
      obtain ⟨hagree, hmerged⟩ := get_mergeCompatible htidy hm
      refine .keep (hiff.mp hagree) ⟨(tidy_rowSolution μ).mergeCompatible hm, ?_⟩ .nil
      rw [hmerged, get_rowSolution, hget, hunion]
    | none =>
      refine .drop (fun hagree => ?_) .nil
      have hsome := (isSome_mergeCompatible htidy).mpr (hiff.mpr hagree)
      rw [hm] at hsome
      cases hsome
  · cases hx
    exact hdropped fun v t u ht hu => hagree v t u (hpart v t ht) hu

theorem mirrors_under (hpart : ∀ v t, μ' v = some t → μ.get v = some t) {r : Except QueryError (List Solution)}
    {P : GraphPattern} (h : Mirrors (Narrowed loose μ') r (evalPattern scalars options fuel ds P ag)) :
    Mirrors (Narrowed loose μ.get) r (evalPattern scalars options fuel ds (under μ P) ag) := by
  rw [evalPattern_under, ← bind_pure r]
  exact h.bind fun sols sols' _ hsols => .ok (narrowed_under hpart hsols)

theorem mirrors_leaf {P : GraphPattern}
    (htidy : ∀ sols, evalPattern scalars options fuel ds P ag = .ok sols → ∀ sol ∈ sols, sol.Tidy) :
    Mirrors (Narrowed loose μ.get) (evalPattern scalars options fuel ds P ag)
      (evalPattern scalars options fuel ds (under μ P) ag) := by
  have hempty : ∀ v t, (PartialMap.empty : Mapping) v = some t → μ.get v = some t := nofun
  refine mirrors_under hempty ?_
  refine (Lifts.refl (R := Eq) (fun _ => rfl) _).imp fun sols sols' hsols heq => ?_
  rw [← heq]
  refine Picks.all fun sol hsol => ⟨(agree_empty _).symm, htidy sols hsols sol hsol, ?_⟩
  rfl

end Under

/-! ## The operators -/

section Operators

variable {μ : Mapping} {C : List Variable} {sol sol' : Solution} {loose : Bool}

variable {scalars : Scalars}

theorem mirrors_ebvOf {r r' : Except QueryError (Option Term)} (h : Mirrors Eq r r') :
    Mirrors Eq (ebvOf scalars r) (ebvOf scalars r') := h.bind_eq fun _ => .ok rfl

/-- The matches of an `OPTIONAL` all agree with the outer solution where its right side
meets it in bound variables only. -/
theorem mirrors_leftJoinOne {passes' : Solution → Except QueryError Bool}
    (hj : Joined μ C sol sol') (htidy : sol'.Tidy) (hrs : Narrowed loose μ rs rs') (htidies : ∀ r ∈ rs, r.Tidy)
    (hshared : ∀ r ∈ rs, ∀ v, (r.get v).isSome = true → (μ v).isSome = true → v ∈ C)
    (hraise : ∀ row, Raises (passes row))
    (hpasses : ∀ r ∈ rs, ∀ row row', sol.mergeCompatible r = some row → PartialMap.Agree μ row.get →
      row'.get = PartialMap.union μ row.get → Mirrors Eq (passes row) (passes' row')) :
    Mirrors (Narrowed loose μ) (leftJoinOne rs passes sol) (leftJoinOne rs' passes' sol') := by
  refine (mirrors_filterM (narrowed_matches hj htidy hrs htidies) (fun row _ => hraise row) ?_).bind
    fun joined joined' hjoined hpicks => ?_
  · intro row hrow row' hagree hget
    obtain ⟨r, hr, hm⟩ := mem_filterMap.mp hrow
    exact hpasses r hr row row' hm hagree hget
  · have hall : ∀ row ∈ joined, PartialMap.Agree μ row.get := by
      intro row hrow
      obtain ⟨r, hr, hm⟩ := mem_filterMap.mp (mem_of_filterM hjoined row hrow)
      obtain ⟨hmatch, hget⟩ := get_mergeCompatible (htidies r hr) hm
      rw [hget, agree_union_right hmatch]
      exact ⟨hj.agree, hj.agree_of_agree (hshared r hr) hmatch⟩
    have hempty : joined.isEmpty = joined'.isEmpty := by
      cases joined with
      | nil =>
        cases joined' with
        | nil => rfl
        | cons row' rest =>
          obtain ⟨row, hrow, -⟩ := hpicks.exists_kept row' mem_cons_self
          exact absurd hrow not_mem_nil
      | cons row rest =>
        obtain ⟨row', hrow', -⟩ := hpicks.exists_partner row mem_cons_self (hall row mem_cons_self)
        cases joined' with
        | nil => exact absurd hrow' not_mem_nil
        | cons _ _ => rfl
    refine .ok ?_
    rw [hempty]
    split
    · exact .keep hj.agree ⟨htidy, hj.get_eq⟩ .nil
    · exact hpicks

theorem leftJoinOne_agree {out : List Solution}
    (htidies : ∀ r ∈ rs, r.Tidy) (h : leftJoinOne rs passes sol = .ok out) {row : Solution} (hrow : row ∈ out)
    (hagree : PartialMap.Agree μ row.get) : PartialMap.Agree μ sol.get := by
  obtain ⟨joined, hjoined, h⟩ := bind_ok h
  cases h
  split at hrow
  · rwa [← mem_singleton.mp hrow]
  · obtain ⟨r, hr, hm⟩ := mem_filterMap.mp (mem_of_filterM hjoined row hrow)
    obtain ⟨hmatch, hget⟩ := get_mergeCompatible (htidies r hr) hm
    rw [hget, agree_union_right hmatch] at hagree
    exact hagree.1

theorem agree_insert (hv : μ v = none) (t : Term) :
    PartialMap.Agree μ (sol.insert v t).get ↔ PartialMap.Agree μ sol.get := by
  have hget : ∀ w u, μ w = some u → (sol.insert v t).get w = sol.get w := by
    intro w u hu
    rw [Solution.get_insert, if_neg]
    rintro rfl
    rw [hv] at hu
    cases hu
  constructor
  · intro h w u x hu hx
    exact h w u x hu (by rw [hget w u hu, hx])
  · intro h w u x hu hx
    rw [hget w u hu] at hx
    exact h w u x hu hx

theorem get_insert_union (hget : sol'.get = PartialMap.union μ sol.get) (hv : μ v = none) (t : Term) :
    (sol'.insert v t).get = PartialMap.union μ (sol.insert v t).get := by
  funext w
  rw [Solution.get_insert, union_apply, Solution.get_insert, hget]
  by_cases hw : w = v
  · rw [if_pos hw, if_pos hw, hw, hv, Option.none_or]
  · rw [if_neg hw, if_neg hw, union_apply]

theorem mirrors_extend (hv : μ v = none)
    {value value' : Solution → Except QueryError (Option Term)} (h : Narrowed loose μ sols sols')
    (hraise : ∀ sol, Raises (value sol))
    (hvalue : ∀ sol ∈ sols, ∀ sol', PartialMap.Agree μ sol.get → sol'.get = PartialMap.union μ sol.get →
      Mirrors Eq (value sol) (value' sol')) :
    Mirrors (Narrowed loose μ) (sols.mapM fun sol => do return bindTo v sol (← value sol))
      (sols'.mapM fun sol => do return bindTo v sol (← value' sol)) := by
  have hagree : ∀ (sol : Solution) (t : Option Term),
      PartialMap.Agree μ (bindTo v sol t).get ↔ PartialMap.Agree μ sol.get := by
    intro sol t
    cases t with
    | none => exact Iff.rfl
    | some t =>
      rw [bindTo]
      split
      · exact Iff.rfl
      · exact agree_insert hv t
  rw [mapM_eq_flatten _ sols, mapM_eq_flatten _ sols']
  refine mirrors_each h (fun sol _ => ((hraise sol).bind fun _ => raises_ok _).bind fun _ => raises_ok _) ?_ ?_
  · intro sol hsol sol' hkept htidy hget
    simp only [bind_assoc, pure_bind]
    refine (hvalue sol hsol sol' hkept hget).bind_eq fun t => .ok (.keep ((hagree sol t).mpr hkept) ?_ .nil)
    have hcontains : sol'.contains v = sol.contains v := by
      rw [Solution.contains, hget, union_apply, hv, Option.none_or]
      rfl
    cases t with
    | none => exact ⟨htidy, hget⟩
    | some t =>
      rw [bindTo, bindTo, hcontains]
      split
      · exact ⟨htidy, hget⟩
      · exact ⟨htidy.insert v t, get_insert_union hget hv t⟩
  · intro sol _ hdropped out hout x hx
    simp only [bind_assoc, pure_bind] at hout
    obtain ⟨t, _, hout⟩ := bind_ok hout
    cases hout
    rw [mem_singleton.mp hx, hagree]
    exact hdropped

/-- The name of the graph joins as the outer solution does. -/
theorem narrowed_graphName (v : Variable) (n : NamedNode) (h : Narrowed loose μ sols sols') :
    Narrowed loose μ (sols.filterMap (joinGraphName v n)) (sols'.filterMap (joinGraphName v n)) := by
  refine Picks.filterMap h (fun sol _ sol' hkept hsol' => ?_) fun sol _ hdropped x hx => ?_
  · obtain ⟨htidy, hget⟩ := hsol'
    have hv : sol'.get v = (μ v).or (sol.get v) := by rw [hget, union_apply]
    cases hμ : μ v with
    | none =>
      rw [hμ, Option.none_or] at hv
      unfold joinGraphName
      rw [hv]
      cases sol.get v with
      | none =>
        exact .keep ((agree_insert hμ _).mpr hkept) ⟨htidy.insert v _, get_insert_union hget hμ _⟩ .nil
      | some t =>
        dsimp only
        split
        · exact .keep hkept ⟨htidy, hget⟩ .nil
        · exact .nil
    | some t =>
      rw [hμ, Option.some_or] at hv
      unfold joinGraphName
      rw [hv]
      cases hs : sol.get v with
      | some u =>
        rw [hkept v t u hμ hs]
        dsimp only
        split
        · exact .keep hkept ⟨htidy, hget⟩ .nil
        · exact .nil
      | none =>
        -- the outer solution names the graph
        dsimp only
        by_cases ht : t = .namedNode n
        · rw [if_pos ht]
          refine .keep ?_ ⟨htidy, ?_⟩ .nil
          · intro w u x hu hx
            rw [Solution.get_insert] at hx
            split at hx
            · next heq =>
              rw [heq, hμ] at hu
              cases hu
              cases hx
              exact ht
            · exact hkept w u x hu hx
          · funext w
            rw [hget, union_apply, union_apply, Solution.get_insert]
            by_cases hw : w = v
            · rw [hw, hμ, Option.some_or, Option.some_or]
            · rw [if_neg hw]
        · rw [if_neg ht]
          refine .drop (fun hagree => ht ?_) .nil
          exact hagree v t _ hμ (by rw [Solution.get_insert, if_pos rfl])
  · intro hagree
    unfold joinGraphName at hx
    split at hx
    · next hnone =>
      cases hx
      refine hdropped fun w u y hu hy => hagree w u y hu ?_
      rw [Solution.get_insert, if_neg, hy]
      rintro rfl
      rw [hnone] at hy
      cases hy
    · split at hx
      · cases hx
        exact hdropped hagree
      · cases hx

theorem minusCompatible_iff {l r : Solution} (hl : l.Tidy) : minusCompatible l r = true ↔
    (∃ v, (l.get v).isSome = true ∧ (r.get v).isSome = true) ∧ PartialMap.Agree l.get r.get := by
  unfold minusCompatible
  rw [Bool.and_eq_true, any_eq_true, all_eq_true]
  refine and_congr ?_ ?_
  · constructor
    · rintro ⟨⟨v, t⟩, hmem, hr⟩
      exact ⟨v, by rw [hl.mem_iter.mp hmem]; rfl, hr⟩
    · rintro ⟨v, hv, hr⟩
      obtain ⟨t, ht⟩ := Option.isSome_iff_exists.mp hv
      exact ⟨(v, t), hl.mem_iter.mpr ht, hr⟩
  · constructor
    · intro hall v t u ht hu
      have hcell := hall (v, t) (hl.mem_iter.mpr ht)
      rw [hu] at hcell
      exact of_decide_eq_true hcell
    · rintro hagree ⟨v, t⟩ hmem
      cases hu : r.get v with
      | none => rfl
      | some u => exact decide_eq_true (hagree v t u (hl.mem_iter.mp hmem) hu)

/-- The minuend is met just when it is under the outer solution, where the variables of
that are hidden in the subtrahend. -/
theorem any_minusCompatible {vars scope : List Variable} (hj : Joined μ C sol sol')
    (htidy : sol.Tidy) (htidy' : sol'.Tidy) (h : Narrowed loose μ rs rs')
    (hvars : ∀ v, v ∈ vars ↔ v ∈ scope ∧ μ v = none)
    (hscope : ∀ r ∈ rs, ∀ v, (r.get v).isSome = true → v ∈ scope)
    (hshared : ∀ v ∈ scope, (μ v).isSome = true → v ∈ C)
    (hbeside : (∀ v ∈ scope, μ v = none) ∨ ∃ v ∈ C, μ v = none ∧ ∀ r ∈ rs, (r.get v).isSome = true) :
    (rs.any fun r => minusCompatible sol r) = (rs'.map fun r => r.project vars).any fun r =>
      minusCompatible sol' r := by
  -- the projection hides what the outer solution binds
  have hread : ∀ r ∈ rs, ∀ r' : Solution, r'.get = PartialMap.union μ r.get →
      ∀ v, (r'.project vars).get v = if μ v = none then r.get v else none := by
    intro r hr r' hget v
    rw [Solution.get_project]
    by_cases hv : v ∈ vars
    · have hnone := ((hvars v).mp hv).2
      rw [if_pos hv, if_pos hnone, hget, union_apply, hnone, Option.none_or]
    · rw [if_neg hv]
      split
      · next hnone =>
        refine (Option.not_isSome_iff_eq_none.mp fun hsome => hv ?_).symm
        exact (hvars v).mpr ⟨hscope r hr v hsome, hnone⟩
      · rfl
  rw [Bool.eq_iff_iff, any_eq_true, any_map, any_eq_true]
  constructor
  · rintro ⟨r, hr, hm⟩
    obtain ⟨⟨v, hsol, hrv⟩, hagree⟩ := (minusCompatible_iff htidy).mp hm
    have hkept := hj.agree_of_agree (fun w hw hμ => hshared w (hscope r hr w hw) hμ) hagree
    obtain ⟨r', hr', -, hget⟩ := h.exists_partner r hr hkept
    refine ⟨r', hr', (minusCompatible_iff htidy').mpr ⟨?_, ?_⟩⟩
    · -- a common variable beside those of the outer solution
      rcases hbeside with hnone | ⟨w, hw, hnone, hall⟩
      · have hμ := hnone v (hscope r hr v hrv)
        refine ⟨v, ?_, ?_⟩
        · rw [hj.get_eq, union_apply, hμ, Option.none_or, hsol]
        · rw [hread r hr r' hget, if_pos hμ, hrv]
      · refine ⟨w, ?_, ?_⟩
        · rw [hj.get_eq, union_apply, hnone, Option.none_or, hj.binds w hw]
        · rw [hread r hr r' hget, if_pos hnone, hall r hr]
    · intro w t u ht hu
      rw [hread r hr r' hget] at hu
      split at hu
      · next hnone =>
        rw [hj.get_eq, union_apply, hnone, Option.none_or] at ht
        exact hagree w t u ht hu
      · cases hu
  · rintro ⟨r', hr', hm⟩
    obtain ⟨r, hr, hkept, -, hget⟩ := h.exists_kept r' hr'
    obtain ⟨⟨v, hsol, hrv⟩, hagree⟩ := (minusCompatible_iff htidy').mp hm
    rw [hread r hr r' hget] at hrv
    refine ⟨r, hr, (minusCompatible_iff htidy).mpr ⟨⟨v, ?_, ?_⟩, ?_⟩⟩
    · split at hrv
      · next hnone => rwa [hj.get_eq, union_apply, hnone, Option.none_or] at hsol
      · cases hrv
    · split at hrv
      · exact hrv
      · cases hrv
    · intro w t u ht hu
      cases hμ : μ w with
      | none =>
        refine hagree w t u ?_ ?_
        · rw [hj.get_eq, union_apply, hμ, Option.none_or, ht]
        · rw [hread r hr r' hget, if_pos hμ, hu]
      | some x => rw [← hj.agree w x t hμ ht, ← hkept w x u hμ hu]

/-- The solutions in the order of their keys; one alone has no need of a key. -/
def orderedBy {κ : Type} (keys : Solution → Except QueryError κ) (le : κ × Solution → κ × Solution → Bool)
    (sols : List Solution) : Except QueryError (List Solution) := do
  if sols.length < 2 then return sols
  else
    let keyed ← sols.mapM fun sol => do return (← keys sol, sol)
    return (keyed.mergeSort le).map Prod.snd

theorem perm_of_orderedBy {κ : Type} {keys : Solution → Except QueryError κ}
    {le : κ × Solution → κ × Solution → Bool} {out : List Solution} (h : orderedBy keys le sols = .ok out) :
    out.Perm sols := by
  unfold orderedBy at h
  split at h
  · cases h
    exact .refl _
  · obtain ⟨keyed, hkeyed, h⟩ := bind_ok h
    cases h
    have hsnd : ∀ (sols : List Solution) (keyed : List (κ × Solution)),
        (sols.mapM fun sol => do return (← keys sol, sol)) = (.ok keyed : Except QueryError _) →
        keyed.map Prod.snd = sols := by
      intro sols
      induction sols with
      | nil =>
        intro keyed hkeyed
        cases hkeyed
        rfl
      | cons sol sols ih =>
        intro keyed hkeyed
        rw [mapM_cons] at hkeyed
        obtain ⟨cell, hcell, hkeyed⟩ := bind_ok hkeyed
        obtain ⟨rest, hrest, hkeyed⟩ := bind_ok hkeyed
        obtain ⟨key, _, hcell⟩ := bind_ok hcell
        cases hcell
        cases hkeyed
        rw [map_cons, ih rest hrest]
    refine ((mergeSort_perm keyed le).map Prod.snd).trans ?_
    rw [hsnd sols keyed hkeyed]

theorem mirrors_orderedBy {κ : Type} {keys keys' : Solution → Except QueryError κ}
    {le le' : κ × Solution → κ × Solution → Bool} (h : Narrowed true μ sols sols')
    (hraise : ∀ sol, Raises (keys sol))
    (hkeys : ∀ sol ∈ sols, ∀ sol', PartialMap.Agree μ sol.get → sol'.get = PartialMap.union μ sol.get →
      Mirrors (fun _ _ => True) (keys sol) (keys' sol')) :
    Mirrors (Narrowed true μ) (orderedBy keys le sols) (orderedBy keys' le' sols') := by
  cases hout : orderedBy keys le sols with
  | error e =>
    refine Or.inl ?_
    unfold orderedBy at hout
    split at hout
    · cases hout
    · refine Raises.bind (Raises.mapM fun sol _ => ?_) (fun _ => raises_ok _) e hout
      exact (hraise sol).bind fun _ => raises_ok _
  | ok out =>
    obtain ⟨out', hout'⟩ : ∃ out', orderedBy keys' le' sols' = .ok out' := by
      unfold orderedBy at hout ⊢
      split
      · exact ⟨_, rfl⟩
      · next hlt' =>
        rw [if_neg fun hlt => hlt' (Nat.lt_of_le_of_lt h.length_le hlt)] at hout
        obtain ⟨keyed, hkeyed, -⟩ := bind_ok hout
        -- the keys of the rows are found, so those of the same rows under the outer solution are
        have hfound : ∀ sol' ∈ sols', ∃ cell,
            (do return (← keys' sol', sol')) = (.ok cell : Except QueryError _) := by
          intro sol' hsol'
          obtain ⟨sol, hsol, hkept, -, hget⟩ := h.exists_kept sol' hsol'
          obtain ⟨cell, _, hcell⟩ := (mapM_ok_inv hkeyed).1 sol hsol
          obtain ⟨key, hkey, _⟩ := bind_ok hcell
          obtain ⟨key', hkey', -⟩ := (hkeys sol hsol sol' hkept hget).of_ok hkey
          exact ⟨(key', sol'), by rw [hkey']; rfl⟩
        obtain ⟨keyed', hkeyed'⟩ := exists_mapM_ok_of_mem hfound
        rw [hkeyed']
        exact ⟨_, rfl⟩
    rw [hout']
    exact .ok (Picks.perm rfl h (perm_of_orderedBy hout).symm (perm_of_orderedBy hout').symm)

theorem narrowed_project {vars : List Variable} (hvars : vars.Nodup) (hμ : ∀ v, (μ v).isSome = true → v ∈ vars)
    (h : Narrowed loose μ sols sols') :
    Narrowed loose μ (sols.map fun sol => sol.project vars) (sols'.map fun sol => sol.project vars) := by
  have hagree : ∀ sol : Solution, PartialMap.Agree μ (sol.project vars).get ↔ PartialMap.Agree μ sol.get := by
    intro sol
    have hget : ∀ v t, μ v = some t → (sol.project vars).get v = sol.get v := fun v t ht => by
      rw [Solution.get_project, if_pos (hμ v (by rw [ht]; rfl))]
    constructor
    · exact fun h v t u ht hu => h v t u ht (by rw [hget v t ht, hu])
    · exact fun h v t u ht hu => h v t u ht (by rw [← hget v t ht, hu])
  refine Picks.map h (fun sol _ sol' hkept hsol' => ⟨(hagree sol).mpr hkept, ?_, ?_⟩) fun sol _ hdropped => ?_
  · exact Solution.tidy_project.mpr (hvars.filter _)
  · funext v
    rw [Solution.get_project, hsol'.2, union_apply, union_apply, Solution.get_project]
    split
    · rfl
    · next hv =>
      cases hm : μ v with
      | none => rfl
      | some t => exact absurd (hμ v (by rw [hm]; rfl)) hv
  · rwa [hagree]

theorem mem_map_get_firstsBy {key : Solution → Nat}
    (hkeys : ∀ a ∈ sols, ∀ b ∈ sols, (key a = key b ↔ a.get = b.get)) {m : Mapping} :
    m ∈ (firstsBy key [] sols).map Solution.get ↔ m ∈ sols.map Solution.get := by
  constructor
  · intro hm
    obtain ⟨sol, hsol, rfl⟩ := mem_map.mp hm
    exact mem_map_of_mem (mem_of_mem_firstsBy hsol).1
  · intro hm
    obtain ⟨sol, hsol, rfl⟩ := mem_map.mp hm
    have hcover : key sol ∈ ([] : List Nat) ∨
      ∃ first ∈ firstsBy key [] sols, key first = key sol := firstsBy_covers hsol
    obtain ⟨first, hfirst, hkey⟩ := hcover.resolve_left not_mem_nil
    rw [← (hkeys first (mem_of_mem_firstsBy hfirst).1 sol hsol).mp hkey]
    exact mem_map_of_mem hfirst

theorem nodup_map_get_firstsBy {key : Solution → Nat}
    (hkeys : ∀ a ∈ sols, ∀ b ∈ sols, (key a = key b ↔ a.get = b.get)) :
    ((firstsBy key [] sols).map Solution.get).Nodup := by
  have hnodup : ((firstsBy key [] sols).map key).Nodup := nodup_keys_firstsBy
  rw [List.Nodup, pairwise_map] at hnodup ⊢
  refine hnodup.imp_of_mem fun {a b} ha hb hne heq => hne ?_
  exact (hkeys a (mem_of_mem_firstsBy ha).1 b (mem_of_mem_firstsBy hb).1).mpr heq

/-- One by one: a row that is met before is met before under the outer solution. -/
theorem narrowed_firstsBy_inOrder (h : Narrowed false μ sols sols') :
    KeysTell scalars μ sols → (∀ sol ∈ sols, (∀ v ∈ C, (sol.get v).isSome = true) ∧
      ∀ v, (sol.get v).isSome = true → (μ v).isSome = true → v ∈ C) →
    ∀ seen seen' : List Nat, (∀ sol ∈ sols, ∀ sol', PartialMap.Agree μ sol.get → sol'.Tidy →
      sol'.get = PartialMap.union μ sol.get →
        (scalars.solutionKey sol ∈ seen ↔ scalars.solutionKey sol' ∈ seen')) →
    Narrowed false μ (firstsBy scalars.solutionKey seen sols) (firstsBy scalars.solutionKey seen' sols') := by
  induction h with
  | nil => exact fun _ _ _ _ _ => .nil
  | @keep sol sol' sols sols' hkept hpair _ ih =>
    intro hkeys hC seen seen' hseen
    have hrest : KeysTell scalars μ sols := fun a ha b hb =>
      hkeys a (mem_cons_of_mem sol ha) b (mem_cons_of_mem sol hb)
    obtain ⟨hC₀, hC⟩ := forall_mem_cons.mp hC
    obtain ⟨hseen₀, hseen⟩ := forall_mem_cons.mp hseen
    have hmet := hseen₀ sol' hkept hpair.1 hpair.2
    rw [firstsBy, firstsBy]
    by_cases hmem : scalars.solutionKey sol ∈ seen
    · rw [if_pos hmem, if_pos (hmet.mp hmem)]
      exact ih hrest hC seen seen' hseen
    · rw [if_neg hmem, if_neg fun h => hmem (hmet.mpr h)]
      refine .keep hkept hpair (ih hrest hC _ _ fun row hrow row' hagree htidy' hget => ?_)
      -- a later row has this key just when it is this row
      obtain ⟨halone, hunder⟩ := hkeys row (mem_cons_of_mem sol hrow) sol mem_cons_self
      rw [mem_cons, mem_cons, hseen row hrow row' hagree htidy' hget, halone,
        hunder row' sol' htidy' hpair.1 hget hpair.2]
      have hrow : Paired μ C row row' := ⟨⟨hagree, hget, (hC row hrow).1⟩, (hC row hrow).2⟩
      have hsol : Paired μ C sol sol' := ⟨⟨hkept, hpair.2, hC₀.1⟩, hC₀.2⟩
      rw [hrow.get_eq_iff hsol]
  | @drop sol sols sols' hdropped _ ih =>
    intro hkeys hC seen seen' hseen
    have hrest : KeysTell scalars μ sols := fun a ha b hb =>
      hkeys a (mem_cons_of_mem sol ha) b (mem_cons_of_mem sol hb)
    obtain ⟨-, hseen⟩ := forall_mem_cons.mp hseen
    rw [firstsBy]
    split
    · exact ih hrest (forall_mem_cons.mp hC).2 seen seen' hseen
    · refine .drop hdropped (ih hrest (forall_mem_cons.mp hC).2 _ seen' fun row hrow row' hagree htidy' hget => ?_)
      rw [mem_cons, (hkeys row (mem_cons_of_mem sol hrow) sol mem_cons_self).1,
        ← hseen row hrow row' hagree htidy' hget]
      refine or_iff_right fun heq => hdropped ?_
      rwa [← heq]
  | perm hloose => cases hloose

theorem narrowed_firstsBy (hkeys : KeysTell scalars μ sols)
    (h : Narrowed loose μ sols sols') (hC : ∀ sol ∈ sols, (∀ v ∈ C, (sol.get v).isSome = true) ∧
      ∀ v, (sol.get v).isSome = true → (μ v).isSome = true → v ∈ C) :
    Narrowed loose μ (firstsBy scalars.solutionKey [] sols) (firstsBy scalars.solutionKey [] sols') := by
  cases loose with
  | false =>
    refine narrowed_firstsBy_inOrder h hkeys hC [] [] fun sol _ sol' _ _ _ => ?_
    exact iff_of_false not_mem_nil not_mem_nil
  | true =>
    have halone : ∀ a ∈ sols, ∀ b ∈ sols, (scalars.solutionKey a = scalars.solutionKey b ↔ a.get = b.get) :=
      fun a ha b hb => (hkeys a ha b hb).1
    have hunder : ∀ a ∈ sols', ∀ b ∈ sols', (scalars.solutionKey a = scalars.solutionKey b ↔ a.get = b.get) := by
      intro a ha b hb
      obtain ⟨sol, hsol, -, htidy, hget⟩ := h.exists_kept a ha
      obtain ⟨row, hrow, -, htidy', hget'⟩ := h.exists_kept b hb
      exact (hkeys sol hsol row hrow).2 a b htidy htidy' hget hget'
    have htidy' : ∀ sol' ∈ sols', sol'.Tidy := by
      intro sol' hsol'
      obtain ⟨sol, _, _, htidy', _⟩ := h.exists_kept sol' hsol'
      exact htidy'
    refine narrowed_of_perm (fun sol' hsol' => htidy' sol' (mem_of_mem_firstsBy hsol').1) ?_
    refine (perm_ext_iff_of_nodup (nodup_map_get_firstsBy hunder) ?_).mpr fun m => ?_
    · -- rows that agree with the outer solution are told apart beside it
      have hnodup := nodup_map_get_firstsBy halone
      rw [List.Nodup, pairwise_filterMap]
      refine hnodup.imp_of_mem fun {f g} hf hg hne x hx y hy hxy => hne ?_
      obtain ⟨sol, hsol, rfl⟩ := mem_map.mp ((mem_map_get_firstsBy halone).mp hf)
      obtain ⟨row, hrow, rfl⟩ := mem_map.mp ((mem_map_get_firstsBy halone).mp hg)
      have hpaired : ∀ r ∈ sols, ∀ z, PartialMap.unite μ r.get = some z → ∃ r', Paired μ C r r' ∧ r'.get = z := by
        intro r hr z hz
        have hagree : PartialMap.Agree μ r.get := by
          by_contra hno
          rw [unite_of_not hno] at hz
          cases hz
        obtain ⟨r', -, -, hget⟩ := h.exists_partner r hr hagree
        rw [unite_of_agree hagree, ← hget] at hz
        exact ⟨r', ⟨⟨hagree, hget, (hC r hr).1⟩, (hC r hr).2⟩, Option.some.inj hz⟩
      obtain ⟨sol', hsol', rfl⟩ := hpaired sol hsol x hx
      obtain ⟨row', hrow', rfl⟩ := hpaired row hrow y hy
      exact (hsol'.get_eq_iff hrow').mpr hxy
    · rw [mem_map_get_firstsBy hunder, h.perm.mem_iff, mem_filterMap, mem_filterMap]
      exact exists_congr fun ν => and_congr_left fun _ => (mem_map_get_firstsBy halone).symm

end Operators

end Eval

end Nova
