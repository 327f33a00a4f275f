import Nova.Query.Eval
import Nova.Query.Update

/-!
# Running an update

The operations of an update run one after another, each on the store that the
earlier ones left; an error ends the update and leaves what was done. An operation
evaluates its WHERE clause like a query and applies one batch of writes.

Of the operations only DELETE/INSERT is here, the one that Cypher is lowered to. The
names of fresh blank nodes are a supply for each operation.
-/

namespace Nova

open List

namespace Update

/-- `GraphUpdateOperation::DeleteInsert`. -/
structure DeleteInsert where
  delete : List GroundQuadPattern
  insert : List QuadPattern
  usingDataset : Option Eval.QueryDataset
  pattern : GraphPattern

inductive UpdateError where
  | query (e : QueryError)
  | store (f : Fault)
  | message (text : String)
deriving DecidableEq, Repr

/-- A store with what its updates need: how a query sees it, how it is written to,
and the functions on terms, the optimiser, the fuel of searches and the supply of
blank nodes. -/
structure Engine (St : Type) where
  dataset : St → Dataset
  applyBatch : St → List QuadOp → Except Fault Unit × St
  scalars : Scalars
  optimize : GraphPattern → GraphPattern
  fuel : St → Nat
  supply : Nat → Nat → BlankNode

/-- The options of `Evaluator::new`. -/
def defaultOptions : EvalOptions := ⟨.new, false, none, none⟩

def intoSolutionsVec : Eval.QueryResult → Except UpdateError (List Solution)
  | .solutions _ sols => .ok sols
  | _ => .error (.message "into_solutions_vec() called on a non-Solutions QueryResult")

variable {St : Type} (E : Engine St)

namespace Engine

/-- The solutions of a WHERE clause, by a query made of it. -/
def whereSolutions (s : St) (dataset : Option Eval.QueryDataset) (pattern : GraphPattern) :
    Except UpdateError (List Solution) := do
  let result ← (Eval.evaluate E.scalars defaultOptions E.optimize (E.fuel s) (E.dataset s)
    (.select dataset pattern)).mapError .query
  intoSolutionsVec result

/-- `execute_operation`. -/
def executeOperation (n : Nat) (s : St) (op : DeleteInsert) : Except UpdateError Unit × St :=
  match E.whereSolutions s op.usingDataset op.pattern with
  | .error e => (.error e, s)
  | .ok sols =>
    let (r, s) := deleteInsert E.applyBatch (E.supply n) op.delete op.insert sols s
    (r.mapError .store, s)

/-- The loop over the operations, from the `n`-th on. -/
def executeFrom : Nat → List DeleteInsert → St → Except UpdateError Unit × St
  | _, [], s => (.ok (), s)
  | n, op :: ops, s =>
    match E.executeOperation n s op with
    | (.ok (), s) => executeFrom (n + 1) ops s
    | (.error e, s) => (.error e, s)

/-- `execute_update`. -/
def executeUpdate (ops : List DeleteInsert) (s : St) : Except UpdateError Unit × St :=
  E.executeFrom 0 ops s

/-- The pattern as the evaluator walks it, over the default graph. -/
def evalPattern (s : St) (pattern : GraphPattern) : Except QueryError (List Solution) :=
  Eval.evalPattern E.scalars defaultOptions (E.fuel s) (E.dataset s) pattern .default

variable {E}

/-- Without a USING clause the optimised pattern is evaluated over the default
graph. -/
theorem whereSolutions_eq_ok {s : St} {pattern : GraphPattern} {sols : List Solution} :
    E.whereSolutions s none pattern = .ok sols ↔
      E.evalPattern s (Eval.optimizePattern E.optimize pattern) = .ok sols := by
  unfold whereSolutions Eval.evaluate Eval.evalQueryPattern evalPattern
  show (Except.mapError _ (Eval.evalPattern _ _ _ _ _ .default >>= _) >>= _) = _ ↔ _
  cases Eval.evalPattern E.scalars defaultOptions (E.fuel s) (E.dataset s)
      (Eval.optimizePattern E.optimize pattern) .default with
  | error e =>
    constructor
    · intro h
      cases h
    · intro h
      cases h
  | ok out =>
    constructor
    · intro h
      cases h
      rfl
    · intro h
      cases h
      rfl

variable {op : DeleteInsert}

theorem executeOperation_ok {n : Nat} {s s' : St} (h : E.executeOperation n s op = (.ok (), s')) :
    ∃ sols, E.whereSolutions s op.usingDataset op.pattern = .ok sols ∧
      deleteInsert E.applyBatch (E.supply n) op.delete op.insert sols s = (.ok (), s') := by
  unfold executeOperation at h
  cases hw : E.whereSolutions s op.usingDataset op.pattern with
  | error e =>
    rw [hw] at h
    cases h
  | ok sols =>
    rw [hw] at h
    refine ⟨sols, rfl, ?_⟩
    cases hd : deleteInsert E.applyBatch (E.supply n) op.delete op.insert sols s with
    | mk r s₁ =>
      simp only [hd, Prod.mk.injEq] at h
      rcases h with ⟨hr, rfl⟩
      cases r with
      | error f => cases hr
      | ok u => rfl

variable {ops : List DeleteInsert}

theorem executeFrom_cons {n : Nat} {s s' : St} (h : E.executeFrom n (op :: ops) s = (.ok (), s')) :
    ∃ s₁, E.executeOperation n s op = (.ok (), s₁) ∧ E.executeFrom (n + 1) ops s₁ = (.ok (), s') := by
  unfold executeFrom at h
  cases hop : E.executeOperation n s op with
  | mk r s₁ =>
    rw [hop] at h
    cases r with
    | error e => cases h
    | ok u => exact ⟨s₁, rfl, h⟩

theorem executeFrom_append {n : Nat} {s s' : St} : E.executeFrom n (ops ++ [op]) s = (.ok (), s') ↔
      ∃ s₁, E.executeFrom n ops s = (.ok (), s₁) ∧ E.executeOperation (n + ops.length) s₁ op = (.ok (), s') := by
  induction ops generalizing n s with
  | nil =>
    constructor
    · intro h
      obtain ⟨s₁, hop, hnil⟩ := executeFrom_cons h
      cases hnil
      exact ⟨s, rfl, hop⟩
    · rintro ⟨s₁, hnil, hop⟩
      cases hnil
      simp only [nil_append, executeFrom]
      rw [show E.executeOperation n s op = (.ok (), s') from hop]
  | cons first ops ih =>
    have hlen : ∀ m, m + 1 + ops.length = m + (first :: ops).length := by
      intro m
      rw [length_cons]
      omega
    constructor
    · intro h
      obtain ⟨s₀, hfirst, h⟩ := executeFrom_cons h
      obtain ⟨s₁, hrun, hop⟩ := ih.mp h
      refine ⟨s₁, ?_, by rwa [hlen] at hop⟩
      rw [executeFrom, hfirst]
      exact hrun
    · rintro ⟨s₁, hrun, hop⟩
      obtain ⟨s₀, hfirst, hrun⟩ := executeFrom_cons hrun
      rw [cons_append, executeFrom, hfirst]
      exact ih.mpr ⟨s₁, hrun, by rwa [hlen]⟩

theorem executeUpdate_take {k : Nat} {s s' : St} (hop : ops[k]? = some op) :
    E.executeUpdate (ops.take (k + 1)) s = (.ok (), s') ↔
      ∃ s₁, E.executeUpdate (ops.take k) s = (.ok (), s₁) ∧ E.executeOperation k s₁ op = (.ok (), s') := by
  have hlt : k < ops.length := (List.getElem?_eq_some_iff.mp hop).1
  rw [executeUpdate, take_add_one, hop, Option.toList_some, executeFrom_append, List.length_take,
    min_eq_left hlt.le, Nat.zero_add]
  rfl

end Engine

end Update

end Nova
