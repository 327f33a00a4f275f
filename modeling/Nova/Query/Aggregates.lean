import Mathlib.Algebra.BigOperators.Group.List.Basic
import Mathlib.Algebra.Order.BigOperators.Group.List
import Mathlib.Data.List.Destutter
import Nova.Query.Distinct
import Nova.Query.Numbers

/-!
# Aggregates

`eval_aggregate` over the values that the expression has on the rows of a group, where an
error is no value.

`SUM` of integers adds in 64 bits, without the checks that the decimal branch makes: built
with overflow checks it panics at the first running total that does not fit, and else the
total wraps. A literal with no room in 64 bits is no number, and is left out.

* `sum_exact_iff`: when `SUM` is the sum, or an error where the sum has no room; in one order
  of the rows, and in all of them.

The `DISTINCT` forms drop duplicates each in its own way: `COUNT` by the printed term,
`SUM` by the number as it is printed again, `COUNT(*)` by the debug print of the row, with
the layout of its header; and `AVG` drops none.

* `distinct_aggregates`: when each is its plain form on the group without duplicates.
-/

namespace Nova

open Nova.Lib List

/-! ## The functions -/

namespace Numeric

variable {X : XsdTypes}

def isInteger : Numeric X → Bool
  | .integer _ => true
  | _ => false

def isFloat : Numeric X → Bool
  | .float _ => true
  | _ => false

def isDouble : Numeric X → Bool
  | .double _ => true
  | _ => false

end Numeric

namespace Eval

/-- One addition of `i64`s, as the build has it. -/
def addI64 (overflowChecks : Bool) (a b : Int) : Except Panic Int :=
  if InI64 (a + b) then .ok (a + b)
  else if overflowChecks then .error (.expect "attempt to add with overflow")
  else .ok (wrapI64 (a + b))

/-- `.sum::<i64>()`. -/
def sumI64 (overflowChecks : Bool) (ns : List Int) : Except Panic Int := ns.foldlM (addI64 overflowChecks) 0

/-- `format_xsd_double`. -/
def formatXsdDouble (X : XsdNumbers) (v : X.XsdDbl) : String :=
  if X.f64IsNan v then "NaN"
  else if X.f64IsInfinite v then (if X.f64IsNegative v then "-INF" else "INF")
  else if X.f64IsZero v then "0.0E0"
  else
    let s := (X.f64LowerExp v).toList
    let mantissa := s.takeWhile (· ≠ 'e')
    let exponent := ((lexicalInteger (String.ofList ((s.dropWhile (· ≠ 'e')).drop 1))).getD 0)
    let canonical :=
      if '.' ∈ mantissa then
        let trimmed := mantissa.rdropWhile (· = '0')
        if trimmed.getLast? = some '.' then trimmed ++ ['0'] else trimmed
      else mantissa ++ ['.', '0']
    String.ofList canonical ++ "E" ++ toString exponent

/-- `Numeric::into_term`. -/
def intoTerm (X : XsdNumbers) : Numeric X.toXsdTypes → Term
  | .integer i => makeIntegerLiteral (X.i64FromInt i)
  | .decimal d => .literal (.newTypedLiteral (X.decToString d) (xsd "decimal"))
  | .float f => .literal (.newTypedLiteral (X.floatToString f) (xsd "float"))
  | .double d => .literal (.newTypedLiteral (X.dblToString d) (xsd "double"))

/-- `normalize_double_term`. -/
def normalizeDoubleTerm (X : XsdNumbers) : Term → Term
  | .literal l =>
    if l.datatype = xsd "double" then
      match X.dblFromStr l.value with
      | some d => .literal (.newTypedLiteral (formatXsdDouble X d) l.datatype)
      | none => .literal l
    else .literal l
  | t => t

/-- The number that a value is. -/
def numberOf (X : XsdNumbers) : Term → Option (Numeric X.toXsdTypes)
  | .literal l => Numeric.parse X.toXsdTypes l
  | _ => none

def sumF64 (X : XsdNumbers) (nums : List (Numeric X.toXsdTypes)) : X.XsdDbl :=
  (nums.filterMap Numeric.toF64).foldl X.f64Add X.f64EmptySum

/-- The sum of integers and decimals, each addition checked. -/
def sumDecimals (X : XsdNumbers) (nums : List (Numeric X.toXsdTypes)) : Option X.XsdDec :=
  nums.foldlM (fun acc n => n.toDec.bind (X.decCheckedAdd acc)) (X.decFromI64 0)

/-- `SUM` of the numbers that are left. -/
def sumNumbers (X : XsdNumbers) (overflowChecks : Bool) (nums : List (Numeric X.toXsdTypes)) :
    Except Panic (Option Term) :=
  if nums.isEmpty then .ok (some (makeIntegerLiteral 0))
  else if nums.all Numeric.isInteger then do
    let sum ← sumI64 overflowChecks (nums.filterMap fun
      | .integer i => some (X.i64FromInt i)
      | _ => none)
    return some (makeIntegerLiteral sum)
  else if nums.any Numeric.isDouble then
    .ok (some (.literal (.newTypedLiteral (formatXsdDouble X (sumF64 X nums)) (xsd "double"))))
  else if nums.any Numeric.isFloat then
    .ok (some (.literal (.newTypedLiteral (X.f32Display (sumF64 X nums)) (xsd "float"))))
  else .ok ((sumDecimals X nums).map fun acc => .literal (.newTypedLiteral (X.decToString acc) (xsd "decimal")))

/-- `AVG` of numbers. -/
def avgNumbers (X : XsdNumbers) (nums : List (Numeric X.toXsdTypes)) : Option Term :=
  if nums.isEmpty then some (makeIntegerLiteral 0)
  else
    let avg := fun sum => X.f64Div sum (X.f64FromI64 nums.length)
    if nums.any Numeric.isDouble then
      some (.literal (.newTypedLiteral (formatXsdDouble X (avg (sumF64 X nums))) (xsd "double")))
    else if nums.any Numeric.isFloat then
      some (.literal (.newTypedLiteral (X.f32Display (avg (sumF64 X nums))) (xsd "float")))
    else
      ((sumDecimals X nums).bind fun sum => X.decCheckedDiv sum (X.decFromI64 nums.length)).map fun d =>
        .literal (.newTypedLiteral (X.decToString d) (xsd "decimal"))

/-- `min_by`: the first of the least. -/
def minBy (cmp : Term → Term → Ordering) : List Term → Option Term
  | [] => none
  | t :: ts => some (ts.foldl (fun x y => if cmp x y = .gt then y else x) t)

/-- `max_by`: the last of the greatest. -/
def maxBy (cmp : Term → Term → Ordering) : List Term → Option Term
  | [] => none
  | t :: ts => some (ts.foldl (fun x y => if cmp x y = .gt then x else y) t)

/-- `eval_aggregate` of a function, where `values` are those of the expression on the rows of
the group. -/
def evalFunction (X : XsdNumbers) (display : Term → String) (overflowChecks : Bool) (name : AggregateFunction)
    (distinct : Bool) (values : List (Option Term)) : Except Panic (Option Term) :=
  let bound := values.filterMap id
  let compare := fun a b => (compareTerms X.toXsdTypes a b).getD .eq
  match name with
  | .count =>
    let vals := bound.map display
    .ok (some (makeIntegerLiteral (if distinct then (firsts vals).length else vals.length)))
  | .sum =>
    let nums := bound.filterMap (numberOf X)
    sumNumbers X overflowChecks (if distinct then firstsBy (fun n => display (intoTerm X n)) [] nums else nums)
  -- the flag is not read; one value that is no number is an error
  | .avg => .ok ((bound.mapM (numberOf X)).bind (avgNumbers X))
  | .min => .ok ((minBy compare bound).map (normalizeDoubleTerm X))
  | .max => .ok ((maxBy compare bound).map (normalizeDoubleTerm X))
  | .sample => .ok bound.head?
  | .groupConcat separator =>
    let vals := bound.filterMap fun
      | .literal l => some l.value
      | _ => none
    let vals := if distinct then (vals.mergeSort fun a b => a ≤ b).destutter (· ≠ ·) else vals
    .ok (some (.literal (.string ((separator.getD " ").intercalate vals))))
  | .custom _ => .ok none

/-- A row with its cache of `BNODE()`, as the debug print shows it. -/
structure CachedRow where
  sol : Solution
  bnodeCache : Option (List (String × BlankNode))
deriving DecidableEq

/-- `eval_aggregate` of `COUNT(*)`, where `debug` is the debug print of a row. -/
def evalCountSolutions (debug : CachedRow → String) (distinct : Bool) (group : List CachedRow) : Term :=
  makeIntegerLiteral (if distinct then (firsts (group.map debug)).length else group.length)

end Eval

/-- The evaluator's functions with these aggregates, built without overflow checks. -/
def Scalars.aggregating (scalars : Scalars) (X : XsdNumbers) : Scalars :=
  { scalars with aggregate := fun name distinct values =>
      (Eval.evalFunction X scalars.display false name distinct values).toOption.join }

open Eval

/-! ## Integer sums -/

section Sum

variable {ns : List Int} {acc : Int}

/-- No running total leaves the range. -/
def RunsInI64 (acc : Int) (ns : List Int) : Prop := ∀ done, done <+: ns → InI64 (acc + done.sum)

theorem runsInI64_cons {n : Int} : RunsInI64 acc (n :: ns) ↔ InI64 acc ∧ RunsInI64 (acc + n) ns := by
  constructor
  · intro h
    refine ⟨by simpa using h [] nil_prefix, fun done hdone => ?_⟩
    have hcons := h (n :: done) (cons_prefix_cons.mpr ⟨rfl, hdone⟩)
    rwa [sum_cons, ← add_assoc] at hcons
  · rintro ⟨hacc, hrest⟩ done hdone
    cases done with
    | nil => simpa using hacc
    | cons m done =>
      obtain ⟨rfl, htail⟩ := cons_prefix_cons.mp hdone
      rw [sum_cons, ← add_assoc]
      exact hrest done htail

theorem runsInI64_nil : RunsInI64 acc [] ↔ InI64 acc := by
  constructor
  · intro h
    simpa using h [] nil_prefix
  · intro h done hdone
    rw [prefix_nil.mp hdone]
    simpa using h

theorem foldlM_addI64_wrapping : ∀ {acc : Int}, InI64 acc →
    ns.foldlM (addI64 false) acc = .ok (wrapI64 (acc + ns.sum)) := by
  induction ns with
  | nil =>
    intro acc hacc
    rw [sum_nil, add_zero, wrapI64_of_inI64 hacc]
    rfl
  | cons n ns ih =>
    intro acc _
    have hstep : addI64 false acc n = .ok (wrapI64 (acc + n)) := by
      unfold addI64
      split
      · next hin => rw [wrapI64_of_inI64 hin]
      · rfl
    rw [foldlM_cons, hstep, ok_bind, ih (inI64_wrapI64 _), wrapI64_add, sum_cons, add_assoc]

theorem foldlM_addI64_checked : ∀ {acc : Int}, InI64 acc →
    (RunsInI64 acc ns → ns.foldlM (addI64 true) acc = .ok (acc + ns.sum)) ∧
      (¬RunsInI64 acc ns → ∃ p, ns.foldlM (addI64 true) acc = .error p) := by
  induction ns with
  | nil =>
    intro acc hacc
    refine ⟨fun _ => ?_, fun hno => absurd (runsInI64_nil.mpr hacc) hno⟩
    rw [sum_nil, add_zero]
    rfl
  | cons n ns ih =>
    intro acc hacc
    rw [runsInI64_cons, foldlM_cons]
    by_cases hin : InI64 (acc + n)
    · have hstep : addI64 true acc n = .ok (acc + n) := if_pos hin
      rw [hstep, ok_bind, sum_cons, ← add_assoc]
      exact ⟨fun hruns => (ih hin).1 hruns.2, fun hno => (ih hin).2 fun hruns => hno ⟨hacc, hruns⟩⟩
    · have hstep : addI64 true acc n = .error (.expect "attempt to add with overflow") := if_neg hin
      refine ⟨fun hruns => ?_, fun _ => ⟨_, by rw [hstep]; rfl⟩⟩
      exact absurd (by simpa using hruns.2 [] nil_prefix) hin

/-- Partial sums stay between the sum of the negative and that of the positive numbers. -/
theorem runsInI64_of_signs (hpos : (ns.filter (0 < ·)).sum ≤ i64Max) (hneg : i64Min ≤ (ns.filter (· < 0)).sum) :
    RunsInI64 0 ns := by
  intro done hdone
  have hhigh : ∀ ls : List Int, ls.sum ≤ (ls.filter (0 < ·)).sum := by
    intro ls
    induction ls with
    | nil => exact le_refl _
    | cons n ls ih =>
      rw [sum_cons, filter_cons]
      split
      · rw [sum_cons]
        omega
      · next hn =>
        have hle : n ≤ 0 := by simpa using hn
        omega
  have hlow : ∀ ls : List Int, (ls.filter (· < 0)).sum ≤ ls.sum := by
    intro ls
    induction ls with
    | nil => exact le_refl _
    | cons n ls ih =>
      rw [sum_cons, filter_cons]
      split
      · rw [sum_cons]
        omega
      · next hn =>
        have hle : 0 ≤ n := by simpa using hn
        omega
  obtain ⟨rest, rfl⟩ := hdone
  have hsumpos : ((done ++ rest).filter (0 < ·)).sum = (done.filter (0 < ·)).sum + (rest.filter (0 < ·)).sum := by
    rw [filter_append, sum_append]
  have hsumneg : ((done ++ rest).filter (· < 0)).sum = (done.filter (· < 0)).sum + (rest.filter (· < 0)).sum := by
    rw [filter_append, sum_append]
  have hrestpos : 0 ≤ (rest.filter (0 < ·)).sum :=
    sum_nonneg fun n hn => (of_decide_eq_true (mem_filter.mp hn).2).le
  have hrestneg : (rest.filter (· < 0)).sum ≤ 0 := by
    have hneg : ∀ ls : List Int, (∀ n ∈ ls, n < 0) → ls.sum ≤ 0 := by
      intro ls hall
      induction ls with
      | nil => exact le_refl _
      | cons n ls ih =>
        obtain ⟨hn, hls⟩ := forall_mem_cons.mp hall
        rw [sum_cons]
        have := ih hls
        omega
    exact hneg _ fun n hn => of_decide_eq_true (mem_filter.mp hn).2
  have hdonehigh := hhigh done
  have hdonelow := hlow done
  unfold InI64
  omega

end Sum

/-! ## SUM of integer literals -/

section SumOfLiterals

variable {X : XsdNumbers} {lits : List IntegerLiteral}

/-- The addends that fit, in the order of the rows. -/
def addends (lits : List IntegerLiteral) : List Int := (lits.map IntegerLiteral.value).filter fun n => InI64 n

/-- The values that are read as no number. -/
def dropped (lits : List IntegerLiteral) : List Int := (lits.map IntegerLiteral.value).filter fun n => ¬InI64 n

def exactSum (lits : List IntegerLiteral) : Int := (lits.map IntegerLiteral.value).sum

theorem exactSum_eq (lits : List IntegerLiteral) : exactSum lits = (addends lits).sum + (dropped lits).sum := by
  unfold exactSum addends dropped
  have hperm := filter_append_perm (fun n => decide (InI64 n)) (lits.map IntegerLiteral.value)
  rw [← hperm.sum_eq, sum_append]
  congr 3
  funext n
  simp

/-- `SUM` over these values, one a row. -/
def sumOf (X : XsdNumbers) (display : Term → String) (overflowChecks : Bool) (lits : List IntegerLiteral) :
    Except Panic (Option Term) :=
  evalFunction X display overflowChecks .sum false (lits.map fun l => some l.term)

/-- The exact sum if it fits, and else an error. -/
def SumsExactly (lits : List IntegerLiteral) (r : Except Panic (Option Term)) : Prop :=
  r = .ok (if InI64 (exactSum lits) then some (makeIntegerLiteral (exactSum lits)) else none)

/-- `SUM` adds those that fit. -/
theorem sumOf_eq (hX : X.Integers64) (display : Term → String) (overflowChecks : Bool)
    (lits : List IntegerLiteral) :
    sumOf X display overflowChecks lits =
      (sumI64 overflowChecks (addends lits)).map fun s => some (makeIntegerLiteral s) := by
  have hnums : ∃ is : List X.XsdInt, ((lits.map fun l => some l.term).filterMap id).filterMap (numberOf X) =
      is.map .integer ∧ is.map X.i64FromInt = addends lits := by
    unfold addends
    induction lits with
    | nil => exact ⟨[], rfl, rfl⟩
    | cons l lits ih =>
      obtain ⟨is, his, hvals⟩ := ih
      obtain ⟨hfits, hout⟩ := hX.parse l
      by_cases hin : InI64 l.value
      · obtain ⟨i, hi, hval⟩ := hfits hin
        refine ⟨i :: is, ?_, ?_⟩
        · simpa [IntegerLiteral.term, numberOf, hi] using his
        · simpa [hval, hin] using hvals
      · refine ⟨is, ?_, ?_⟩
        · simpa [IntegerLiteral.term, numberOf, hout hin] using his
        · simpa [hin] using hvals
  obtain ⟨is, his, hvals⟩ := hnums
  have hall : (is.map (Numeric.integer (X := X.toXsdTypes))).all Numeric.isInteger = true := by
    rw [all_map]
    exact all_eq_true.mpr fun _ _ => rfl
  have hints : (is.map (Numeric.integer (X := X.toXsdTypes))).filterMap (fun
      | .integer i => some (X.i64FromInt i)
      | _ => none) = is.map X.i64FromInt := by
    rw [filterMap_map]
    show is.filterMap (some ∘ X.i64FromInt) = _
    rw [filterMap_eq_map]
  have hsum : sumOf X display overflowChecks lits = sumNumbers X overflowChecks (is.map .integer) :=
    congrArg (sumNumbers X overflowChecks) his
  rw [hsum, ← hvals]
  unfold sumNumbers
  rw [hall, if_pos rfl, hints]
  cases is with
  | nil => rfl
  | cons i is => rfl

/-- What the build must meet for `SUM` to be exact in this order of the rows. -/
def SumFits (overflowChecks : Bool) (lits : List IntegerLiteral) : Prop :=
  if overflowChecks then RunsInI64 0 (addends lits) ∧ (dropped lits).sum = 0
  else InI64 (exactSum lits) ∧ (2 ^ 64 : Int) ∣ (dropped lits).sum

/-- And in every order. -/
def SumFitsAnyOrder (overflowChecks : Bool) (lits : List IntegerLiteral) : Prop :=
  if overflowChecks then
    ((addends lits).filter (0 < ·)).sum ≤ i64Max ∧ i64Min ≤ ((addends lits).filter (· < 0)).sum ∧
      (dropped lits).sum = 0
  else InI64 (exactSum lits) ∧ (2 ^ 64 : Int) ∣ (dropped lits).sum

/-- With overflow checks no partial sum may leave the range, without them the sum. -/
theorem sumsExactly_iff (hX : X.Integers64) (display : Term → String) (overflowChecks : Bool)
    (lits : List IntegerLiteral) :
    SumsExactly lits (sumOf X display overflowChecks lits) ↔ SumFits overflowChecks lits := by
  have hzero : InI64 0 := by decide
  have hsome : ∀ s : Int, (Except.ok (some (makeIntegerLiteral s)) : Except Panic (Option Term)) =
      .ok (if InI64 (exactSum lits) then some (makeIntegerLiteral (exactSum lits)) else none) ↔
        InI64 (exactSum lits) ∧ s = exactSum lits := by
    intro s
    by_cases hin : InI64 (exactSum lits)
    · rw [if_pos hin, Except.ok.injEq, Option.some.injEq, makeIntegerLiteral_injective.eq_iff]
      exact ⟨fun heq => ⟨hin, heq⟩, fun heq => heq.2⟩
    · rw [if_neg hin, Except.ok.injEq]
      exact ⟨fun heq => (by cases heq), fun heq => absurd heq.1 hin⟩
  have hmap : ∀ s : Int, (Except.ok s : Except Panic Int).map (fun s => some (makeIntegerLiteral s)) =
      .ok (some (makeIntegerLiteral s)) := fun _ => rfl
  have hsum := exactSum_eq lits
  unfold SumsExactly SumFits
  rw [sumOf_eq hX, sumI64]
  cases overflowChecks with
  | true =>
    obtain ⟨hok, herr⟩ := @foldlM_addI64_checked (addends lits) 0 hzero
    by_cases hruns : RunsInI64 0 (addends lits)
    · rw [hok hruns, hmap, hsome, zero_add]
      -- the last running total is the sum of the addends
      have hlast := hruns _ (prefix_refl _)
      rw [zero_add] at hlast
      constructor
      · rintro ⟨_, heq⟩
        exact ⟨hruns, by omega⟩
      · rintro ⟨_, hdropped⟩
        have heq : (addends lits).sum = exactSum lits := by omega
        exact ⟨heq ▸ hlast, heq⟩
    · obtain ⟨p, hp⟩ := herr hruns
      rw [hp]
      exact ⟨fun heq => (by cases heq), fun heq => absurd heq.1 hruns⟩
  | false =>
    rw [if_neg Bool.false_ne_true, foldlM_addI64_wrapping hzero, hmap, hsome, zero_add]
    refine and_congr_right fun hin => ?_
    rw [wrapI64_eq_iff hin, hsum, add_sub_cancel_left]

theorem inI64_of_first (p : Int → Bool)
    (h : ∀ order : List IntegerLiteral, order.Perm lits → RunsInI64 0 (addends order)) :
    InI64 ((addends lits).filter p).sum := by
  have hperm := filter_append_perm (p ∘ IntegerLiteral.value) lits
  have hruns := h _ hperm
  have hsplit : ∀ a b : List IntegerLiteral, addends (a ++ b) = addends a ++ addends b := by
    intro a b
    unfold addends
    rw [map_append, filter_append]
  have hkind : addends (lits.filter (p ∘ IntegerLiteral.value)) = (addends lits).filter p := by
    unfold addends
    rw [← filter_map, filter_filter, filter_filter]
    simp only [Bool.and_comm]
  rw [hsplit, hkind] at hruns
  have hfirst := hruns _ (prefix_append _ _)
  rwa [zero_add] at hfirst

/-- `SUM` over integer literals is their sum, or an error where the sum has no room in 64
bits, just when: with overflow checks, no running total of the literals that fit leaves the
range and those that do not fit add up to nothing; without, the sum fits and the literals
that do not fit add up to a multiple of `2 ^ 64`. In every order of the rows it is so just
when, with overflow checks, the positive literals that fit and the negative ones each have a
sum in range. -/
theorem sum_exact_iff (hX : X.Integers64) (display : Term → String) (overflowChecks : Bool)
    (lits : List IntegerLiteral) :
    (SumsExactly lits (sumOf X display overflowChecks lits) ↔ SumFits overflowChecks lits) ∧
      ((∀ order : List IntegerLiteral, order.Perm lits →
          SumsExactly order (sumOf X display overflowChecks order)) ↔ SumFitsAnyOrder overflowChecks lits) := by
  refine ⟨sumsExactly_iff hX display overflowChecks lits, ?_⟩
  have hvalues : ∀ {order : List IntegerLiteral}, order.Perm lits → (addends order).Perm (addends lits) ∧
      (dropped order).sum = (dropped lits).sum ∧ exactSum order = exactSum lits := by
    intro order hperm
    have hmap := hperm.map IntegerLiteral.value
    exact ⟨hmap.filter _, (hmap.filter _).sum_eq, hmap.sum_eq⟩
  simp only [sumsExactly_iff hX]
  unfold SumFits SumFitsAnyOrder
  cases overflowChecks with
  | true =>
    constructor
    · intro h
      refine ⟨?_, ?_, (h lits (List.Perm.refl _)).2⟩
      · have hfirst := inI64_of_first (0 < ·) fun order hperm => (h order hperm).1
        exact hfirst.2
      · have hfirst := inI64_of_first (· < 0) fun order hperm => (h order hperm).1
        exact hfirst.1
    · rintro ⟨hpos, hneg, hdropped⟩ order hperm
      obtain ⟨hadd, hdrop, -⟩ := hvalues hperm
      refine ⟨runsInI64_of_signs ?_ ?_, hdrop.trans hdropped⟩
      · rwa [(hadd.filter _).sum_eq]
      · rwa [(hadd.filter _).sum_eq]
  | false =>
    constructor
    · exact fun h => h lits (List.Perm.refl _)
    · intro h order hperm
      obtain ⟨-, hdrop, hsum⟩ := hvalues hperm
      rw [hdrop, hsum]
      exact h

/-- Two numbers, in every order. -/
theorem sum_exact_of_two : SumsExactly [.ofInt 1, .ofInt 2]
    (sumOf wholeNumbers64 Path.chainDisplay true [.ofInt 1, .ofInt 2]) := by
  refine (sum_exact_iff wholeNumbers64_integers Path.chainDisplay true [.ofInt 1, .ofInt 2]).1.mpr ⟨?_, by decide⟩
  exact runsInI64_of_signs (by decide) (by decide)

/-- A running total that does not fit: the checked build panics, though the sum fits; and a sum
that does not fit: the other build returns the wrapped total. -/
theorem sum_overflows :
    sumOf wholeNumbers64 Path.chainDisplay true [.ofInt i64Max, .ofInt 1, .ofInt (-1)] =
        .error (.expect "attempt to add with overflow") ∧
      ¬SumsExactly [.ofInt i64Max, .ofInt 1, .ofInt (-1)]
        (sumOf wholeNumbers64 Path.chainDisplay true [.ofInt i64Max, .ofInt 1, .ofInt (-1)]) ∧
      sumOf wholeNumbers64 Path.chainDisplay false [.ofInt i64Max, .ofInt 1] =
        .ok (some (makeIntegerLiteral i64Min)) ∧
      ¬SumsExactly [.ofInt i64Max, .ofInt 1]
        (sumOf wholeNumbers64 Path.chainDisplay false [.ofInt i64Max, .ofInt 1]) := by
  unfold SumsExactly
  rw [sumOf_eq wholeNumbers64_integers, sumOf_eq wholeNumbers64_integers]
  refine ⟨rfl, fun heq => (by cases heq), rfl, fun heq => ?_⟩
  have hout : ¬InI64 (exactSum [.ofInt i64Max, .ofInt 1]) := by decide
  cases heq

/-- `SUM` in a query: the row of the group gets the exact sum, in a build without overflow
checks. -/
theorem evalAggregate_sum (hX : X.Integers64) (scalars : Scalars) (options : EvalOptions)
    (fuel : Nat) (ds : Dataset)
    (v : Variable) (e : Expression) (group : List Solution) (row : Solution) (ag : GraphSelector)
    (hvalues : group.mapM (fun sol => evalExpr (scalars.aggregating X) options fuel ds e sol ag) =
      .ok (lits.map fun l => some l.term))
    (hfits : SumFits false lits) :
    evalAggregate (scalars.aggregating X) options fuel ds (.functionCall v .sum e false) group row ag =
      .ok (row.insert v (makeIntegerLiteral (exactSum lits))) := by
  have hexact := (sumsExactly_iff hX scalars.display false lits).mpr hfits
  have hin : InI64 (exactSum lits) := hfits.1
  unfold SumsExactly sumOf at hexact
  rw [if_pos hin] at hexact
  have hsum : (scalars.aggregating X).aggregate .sum false (lits.map fun l => some l.term) =
      some (makeIntegerLiteral (exactSum lits)) := by
    show ((evalFunction X scalars.display false .sum false _).toOption).join = _
    rw [hexact]
    rfl
  rw [evalAggregate, hvalues, ok_bind, hsum]
  rfl

end SumOfLiterals

/-! ## DISTINCT -/

section Distinct

theorem length_firsts_map_iff {α κ : Type} [DecidableEq α] [DecidableEq κ] {key : α → κ} {xs : List α} :
    (firsts (xs.map key)).length = (firsts xs).length ↔ ∀ a ∈ xs, ∀ b ∈ xs, key a = key b → a = b := by
  have hcard : ∀ {β : Type} [DecidableEq β] (ys : List β), (firsts ys).length = ys.toFinset.card := by
    intro β _ ys
    rw [← toFinset_card_of_nodup (nodup_firsts ys)]
    congr 1
    ext y
    rw [mem_toFinset, mem_toFinset, mem_firsts]
  have himage : (xs.map key).toFinset = xs.toFinset.image key := by
    ext y
    simp
  rw [hcard, hcard, himage, Finset.card_image_iff]
  constructor
  · intro hinj a ha b hb heq
    exact hinj (by simpa using ha) (by simpa using hb) heq
  · intro h a ha b hb heq
    exact h a (by simpa using ha) b (by simpa using hb) heq

/-- The first of each value. -/
def distinctValues (values : List (Option Term)) : List (Option Term) := firstsBy id [] values

/-- Dropping duplicates commutes with reading off what has different keys for different
elements. -/
theorem firstsBy_filterMap {α β κ : Type} [DecidableEq α] [DecidableEq κ] {f : α → Option β} {key : β → κ} :
    ∀ {xs seen : List α},
    (∀ a ∈ seen ++ xs, ∀ b ∈ seen ++ xs, ∀ x y, f a = some x → f b = some y → key x = key y → a = b) →
    firstsBy key (seen.filterMap fun a => (f a).map key) (xs.filterMap f) = (firstsBy id seen xs).filterMap f := by
  intro xs
  induction xs with
  | nil => exact fun _ => rfl
  | cons a xs ih =>
    intro seen h
    have hskip : ∀ b ∈ seen ++ xs, b ∈ seen ++ a :: xs := by
      intro b hb
      rcases mem_append.mp hb with hb | hb
      · exact mem_append_left _ hb
      · exact mem_append_right _ (mem_cons_of_mem a hb)
    have hmove : ∀ b ∈ (a :: seen) ++ xs, b ∈ seen ++ a :: xs := by
      intro b hb
      rcases mem_cons.mp hb with rfl | hb
      · exact mem_append_right _ mem_cons_self
      · exact hskip b hb
    have hseen := @ih seen fun b hb c hc => h b (hskip b hb) c (hskip c hc)
    have hnew := @ih (a :: seen) fun b hb c hc => h b (hmove b hb) c (hmove c hc)
    rw [firstsBy]
    cases hfa : f a with
    | none =>
      rw [filterMap_cons_none hfa]
      by_cases hmem : id a ∈ seen
      · rw [if_pos hmem]
        exact hseen
      · rw [if_neg hmem, filterMap_cons_none hfa]
        rw [filterMap_cons_none (by rw [hfa, Option.map_none])] at hnew
        exact hnew
    | some x =>
      rw [filterMap_cons_some hfa, firstsBy]
      have hiff : key x ∈ (seen.filterMap fun b => (f b).map key) ↔ id a ∈ seen := by
        rw [mem_filterMap]
        constructor
        · rintro ⟨b, hb, heq⟩
          obtain ⟨y, hy, hkey⟩ := Option.map_eq_some_iff.mp heq
          have hab := h a (mem_append_right _ mem_cons_self) b (mem_append_left _ hb) x y hfa hy hkey.symm
          rw [id, hab]
          exact hb
        · exact fun ha => ⟨a, ha, by rw [hfa, Option.map_some]⟩
      by_cases hmem : id a ∈ seen
      · rw [if_pos hmem, if_pos (hiff.mpr hmem)]
        exact hseen
      · rw [if_neg hmem, if_neg fun hk => hmem (hiff.mp hk), filterMap_cons_some hfa]
        rw [filterMap_cons_some (by rw [hfa, Option.map_some])] at hnew
        exact congrArg (x :: ·) hnew

theorem bound_distinctValues (values : List (Option Term)) :
    (distinctValues values).filterMap id = firstsBy id [] (values.filterMap id) := by
  have hcommute := @firstsBy_filterMap _ _ _ _ _ (fun o : Option Term => o) id values []
    fun a _ b _ x y ha hb heq => by rw [ha, hb, show x = y from heq]
  exact hcommute.symm

variable {X : XsdNumbers} {display : Term → String} {overflowChecks : Bool} {values : List (Option Term)}

/-- `COUNT(DISTINCT ..)` counts printed terms. -/
theorem count_distinct_iff :
    evalFunction X display overflowChecks .count true values =
        evalFunction X display overflowChecks .count false (distinctValues values) ↔
      ∀ a ∈ values.filterMap id, ∀ b ∈ values.filterMap id, display a = display b → a = b := by
  have hplain : ((distinctValues values).filterMap id).length = (firsts (values.filterMap id)).length := by
    rw [bound_distinctValues]
    refine List.Perm.length_eq ((perm_ext_iff_of_nodup ?_ (nodup_firsts _)).mpr fun t => ?_)
    · have hkeys : ((firstsBy (id : Term → Term) [] (values.filterMap id)).map id).Nodup := nodup_keys_firstsBy
      rwa [map_id] at hkeys
    · rw [mem_firsts]
      refine ⟨fun ht => (mem_of_mem_firstsBy ht).1, fun ht => ?_⟩
      obtain ⟨y, hy, rfl⟩ := (@firstsBy_covers _ _ _ (id : Term → Term) _ [] t ht).resolve_left not_mem_nil
      exact hy
  rw [← @length_firsts_map_iff _ _ _ _ display, ← hplain]
  show (Except.ok _ : Except Panic _) = .ok _ ↔ _
  rw [Except.ok.injEq, Option.some.injEq, makeIntegerLiteral_injective.eq_iff]
  simp only [if_true, Bool.false_eq_true, if_false, length_map]
  exact Int.natCast_inj

/-- `SUM(DISTINCT ..)` drops numbers that are printed alike again. -/
theorem sum_distinct (h : ∀ a ∈ values.filterMap id, ∀ b ∈ values.filterMap id, ∀ m n, numberOf X a = some m →
    numberOf X b = some n → display (intoTerm X m) = display (intoTerm X n) → a = b) :
    evalFunction X display overflowChecks .sum true values =
      evalFunction X display overflowChecks .sum false (distinctValues values) := by
  have hcommute := @firstsBy_filterMap _ _ _ _ _ (numberOf X) (fun n => display (intoTerm X n))
    (values.filterMap id) [] fun a ha b hb => h a ha b hb
  have hnums : firstsBy (fun n => display (intoTerm X n)) [] ((values.filterMap id).filterMap (numberOf X)) =
      ((distinctValues values).filterMap id).filterMap (numberOf X) := by
    rw [bound_distinctValues]
    exact hcommute
  exact congrArg (sumNumbers X overflowChecks) hnums

/-- `AVG` reads no flag: the forms agree where no value comes twice. -/
theorem avg_distinct (h : (values.filterMap id).Nodup) :
    evalFunction X display overflowChecks .avg true values =
      evalFunction X display overflowChecks .avg false (distinctValues values) := by
  have hkeep : ∀ {ts seen : List Term}, (∀ t ∈ ts, t ∉ seen) → ts.Nodup → firstsBy id seen ts = ts := by
    intro ts
    induction ts with
    | nil => exact fun _ _ => rfl
    | cons t ts ih =>
      intro seen hseen hnodup
      obtain ⟨ht, hts⟩ := nodup_cons.mp hnodup
      rw [firstsBy, id, if_neg (hseen t mem_cons_self)]
      congr 1
      refine ih (fun u hu hmem => ?_) hts
      rcases mem_cons.mp hmem with rfl | hmem
      · exact ht hu
      · exact hseen u (mem_cons_of_mem _ hu) hmem
  have hbound : (distinctValues values).filterMap id = values.filterMap id := by
    rw [bound_distinctValues]
    exact hkeep (fun _ _ => not_mem_nil) h
  show Except.ok _ = Except.ok _
  rw [hbound]

variable {debug : CachedRow → String} {rows : List CachedRow}

open Classical in
/-- The first row of each mapping. -/
noncomputable def oncePerMapping (rows : List CachedRow) : List CachedRow :=
    firstsBy (fun row => row.sol.get) [] rows

/-- `COUNT(DISTINCT *)` counts the prints of the rows. -/
theorem countSolutions_distinct_iff
    (hdebug : ∀ a ∈ rows, ∀ b ∈ rows, debug a = debug b → a.sol.get = b.sol.get) :
    evalCountSolutions debug true rows = evalCountSolutions debug false (oncePerMapping rows) ↔
      ∀ a ∈ rows, ∀ b ∈ rows, a.sol.get = b.sol.get → debug a = debug b := by
  classical
  have hclasses : ((oncePerMapping rows).map fun row => row.sol.get).Nodup := nodup_keys_firstsBy
  have hkept : ∀ {row}, row ∈ oncePerMapping rows → row ∈ rows := fun hrow => (mem_of_mem_firstsBy hrow).1
  have hcover : ∀ a ∈ rows, ∃ row ∈ oncePerMapping rows, row.sol.get = a.sol.get :=
    fun a ha => (firstsBy_covers ha).resolve_left not_mem_nil
  have hprints : ((oncePerMapping rows).map debug).Nodup := by
    rw [List.Nodup, pairwise_map] at hclasses ⊢
    exact hclasses.imp_of_mem fun ha hb hne heq => hne (hdebug _ (hkept ha) _ (hkept hb) heq)
  have hsub : (oncePerMapping rows).map debug ⊆ firsts (rows.map debug) := by
    intro text htext
    obtain ⟨row, hrow, rfl⟩ := mem_map.mp htext
    exact mem_firsts.mpr (mem_map_of_mem (hkept hrow))
  have hlength : evalCountSolutions debug true rows = evalCountSolutions debug false (oncePerMapping rows) ↔
      (firsts (rows.map debug)).length = ((oncePerMapping rows).map debug).length := by
    unfold evalCountSolutions
    rw [makeIntegerLiteral_injective.eq_iff, length_map]
    exact Int.natCast_inj
  rw [hlength]
  constructor
  · intro hlen a ha b hb heq
    -- every print is that of a kept row
    have hperm := (subperm_of_subset hprints hsub).perm_of_length_le hlen.le
    have hfind : ∀ c ∈ rows, ∃ row ∈ oncePerMapping rows, debug row = debug c := by
      intro c hc
      exact mem_map.mp (hperm.mem_iff.mpr (mem_firsts.mpr (mem_map_of_mem hc)))
    obtain ⟨c, hc, hca⟩ := hfind a ha
    obtain ⟨d, hd, hdb⟩ := hfind b hb
    have hsame : c.sol.get = d.sol.get := by
      rw [hdebug c (hkept hc) a ha hca, hdebug d (hkept hd) b hb hdb, heq]
    rw [← hca, ← hdb, inj_on_of_nodup_map hclasses hc hd hsame]
  · intro h
    refine List.Perm.length_eq ((perm_ext_iff_of_nodup (nodup_firsts _) hprints).mpr fun text => ?_)
    refine ⟨fun htext => ?_, fun htext => hsub htext⟩
    obtain ⟨a, ha, rfl⟩ := mem_map.mp (mem_firsts.mp htext)
    obtain ⟨row, hrow, heq⟩ := hcover a ha
    exact mem_map.mpr ⟨row, hrow, h row (hkept hrow) a ha heq⟩

/-- When the `DISTINCT` forms are the plain forms on the group without duplicates: `COUNT`
just when no two different values are printed alike; `COUNT(*)` just when rows with one
mapping are printed alike, layout and cache with it; `SUM` where no two different values
are printed alike as numbers; `AVG` where no value comes twice. -/
theorem distinct_aggregates (X : XsdNumbers) (display : Term → String) (overflowChecks : Bool)
    (values : List (Option Term)) (debug : CachedRow → String) (rows : List CachedRow)
    (hdebug : ∀ a ∈ rows, ∀ b ∈ rows, debug a = debug b → a.sol.get = b.sol.get) :
    (evalFunction X display overflowChecks .count true values =
        evalFunction X display overflowChecks .count false (distinctValues values) ↔
      ∀ a ∈ values.filterMap id, ∀ b ∈ values.filterMap id, display a = display b → a = b) ∧
    ((∀ a ∈ values.filterMap id, ∀ b ∈ values.filterMap id, ∀ m n, numberOf X a = some m →
        numberOf X b = some n → display (intoTerm X m) = display (intoTerm X n) → a = b) →
      evalFunction X display overflowChecks .sum true values =
        evalFunction X display overflowChecks .sum false (distinctValues values)) ∧
    ((values.filterMap id).Nodup →
      evalFunction X display overflowChecks .avg true values =
        evalFunction X display overflowChecks .avg false (distinctValues values)) ∧
    (evalCountSolutions debug true rows = evalCountSolutions debug false (oncePerMapping rows) ↔
      ∀ a ∈ rows, ∀ b ∈ rows, a.sol.get = b.sol.get → debug a = debug b) :=
  ⟨count_distinct_iff, sum_distinct, avg_distinct, countSolutions_distinct_iff hdebug⟩

/-- The text of a term, where no character needs an escape. -/
def printTerm : Term → String
  | .namedNode n => "<" ++ n.iri ++ ">"
  | .blankNode b => "_:" ++ b.id
  | .literal l => "\"" ++ l.value ++ "\"^^<" ++ l.datatype.iri ++ ">"
  | .triple s p o => "<<( " ++ " ".intercalate s.strings ++ " <" ++ p.iri ++ "> " ++ printTerm o ++ " )>>"

/-- The debug print of a value: IRIs as they are printed, and the text of other terms. -/
def debugValue : Option Term → String
  | none => "None"
  | some (.namedNode n) => "Some(NamedNode(NamedNode \x7b iri: \"" ++ n.iri ++ "\" \x7d))"
  | some t => "Some(" ++ printTerm t ++ ")"

/-- The debug print of a row, with the keys of its cache. -/
def debugRow (row : CachedRow) : String :=
  "Solution \x7b vars: [" ++ ", ".intercalate (row.sol.vars.map fun v => "Variable \x7b name: \"" ++ v.name ++ "\" \x7d") ++
    "], values: [" ++ ", ".intercalate (row.sol.values.map debugValue) ++ "], bnode_cache: " ++
    (match row.bnodeCache with
      | none => "OnceLock(<uninit>)"
      | some entries => "OnceLock(" ++ ", ".intercalate (entries.map Prod.fst) ++ ")") ++ " \x7d"

/-- A row of `?x` and `?y`, bound in this order. -/
def pairRow (v w : Variable) (t u : String) : CachedRow :=
  ⟨(Solution.new.insert v (.namedNode ⟨t⟩)).insert w (.namedNode ⟨u⟩), none⟩

/-- Two numbers, and two rows of one layout, one of them twice. -/
theorem distinct_aggregates_of_two :
    evalFunction wholeNumbers64 printTerm true .count true
          [some (IntegerLiteral.ofInt 1).term, some (IntegerLiteral.ofInt 4).term] =
        evalFunction wholeNumbers64 printTerm true .count false
          (distinctValues [some (IntegerLiteral.ofInt 1).term, some (IntegerLiteral.ofInt 4).term]) ∧
      evalFunction wholeNumbers64 printTerm true .avg true
          [some (IntegerLiteral.ofInt 1).term, some (IntegerLiteral.ofInt 4).term] =
        evalFunction wholeNumbers64 printTerm true .avg false
          (distinctValues [some (IntegerLiteral.ofInt 1).term, some (IntegerLiteral.ofInt 4).term]) ∧
      evalCountSolutions debugRow true
          [pairRow ⟨"x"⟩ ⟨"y"⟩ "a" "b", pairRow ⟨"x"⟩ ⟨"y"⟩ "a" "c", pairRow ⟨"x"⟩ ⟨"y"⟩ "a" "b"] =
        evalCountSolutions debugRow false (oncePerMapping
          [pairRow ⟨"x"⟩ ⟨"y"⟩ "a" "b", pairRow ⟨"x"⟩ ⟨"y"⟩ "a" "c", pairRow ⟨"x"⟩ ⟨"y"⟩ "a" "b"]) := by
  have hprint : ∀ a ∈ [pairRow ⟨"x"⟩ ⟨"y"⟩ "a" "b", pairRow ⟨"x"⟩ ⟨"y"⟩ "a" "c", pairRow ⟨"x"⟩ ⟨"y"⟩ "a" "b"],
      ∀ b ∈ [pairRow ⟨"x"⟩ ⟨"y"⟩ "a" "b", pairRow ⟨"x"⟩ ⟨"y"⟩ "a" "c", pairRow ⟨"x"⟩ ⟨"y"⟩ "a" "b"],
      (debugRow a = debugRow b → a = b) ∧ (a.sol.get ⟨"y"⟩ = b.sol.get ⟨"y"⟩ → debugRow a = debugRow b) := by
    decide +kernel
  obtain ⟨hcount, -, havg, hrows⟩ := distinct_aggregates wholeNumbers64 printTerm true
    [some (IntegerLiteral.ofInt 1).term, some (IntegerLiteral.ofInt 4).term] debugRow
    [pairRow ⟨"x"⟩ ⟨"y"⟩ "a" "b", pairRow ⟨"x"⟩ ⟨"y"⟩ "a" "c", pairRow ⟨"x"⟩ ⟨"y"⟩ "a" "b"]
    fun a ha b hb heq => by rw [(hprint a ha b hb).1 heq]
  refine ⟨hcount.mpr (by decide +kernel), havg (by decide +kernel), hrows.mpr fun a ha b hb heq => ?_⟩
  exact (hprint a ha b hb).2 (congrFun heq _)

/-- One mapping in two layouts is counted twice; the average of 1, 1 and 4 is not that of 1 and
4; and 1 and 01 are summed as one. -/
theorem distinct_forms_differ :
    evalCountSolutions debugRow true [pairRow ⟨"x"⟩ ⟨"y"⟩ "a" "b", pairRow ⟨"y"⟩ ⟨"x"⟩ "b" "a"] ≠
        evalCountSolutions debugRow false (oncePerMapping [pairRow ⟨"x"⟩ ⟨"y"⟩ "a" "b", pairRow ⟨"y"⟩ ⟨"x"⟩ "b" "a"]) ∧
      evalFunction wholeNumbers64 printTerm true .avg true
          [some (typedTerm "1" "integer"), some (typedTerm "1" "integer"), some (typedTerm "4" "integer")] ≠
        evalFunction wholeNumbers64 printTerm true .avg false (distinctValues
          [some (typedTerm "1" "integer"), some (typedTerm "1" "integer"), some (typedTerm "4" "integer")]) ∧
      evalFunction wholeNumbers64 printTerm true .sum true
          [some (typedTerm "1" "integer"), some (typedTerm "01" "integer")] ≠
        evalFunction wholeNumbers64 printTerm true .sum false (distinctValues
          [some (typedTerm "1" "integer"), some (typedTerm "01" "integer")]) := by
  refine ⟨fun heq => ?_, by decide +kernel, by decide +kernel⟩
  have hprint : ∀ a ∈ [pairRow ⟨"x"⟩ ⟨"y"⟩ "a" "b", pairRow ⟨"y"⟩ ⟨"x"⟩ "b" "a"],
      ∀ b ∈ [pairRow ⟨"x"⟩ ⟨"y"⟩ "a" "b", pairRow ⟨"y"⟩ ⟨"x"⟩ "b" "a"], debugRow a = debugRow b → a = b := by
    decide +kernel
  have hrows := (countSolutions_distinct_iff fun a ha b hb h => by rw [hprint a ha b hb h]).mp heq
  have hsame : (pairRow ⟨"x"⟩ ⟨"y"⟩ "a" "b").sol.get = (pairRow ⟨"y"⟩ ⟨"x"⟩ "b" "a").sol.get := by
    funext v
    simp only [pairRow, Solution.get_insert]
    by_cases hx : v = ⟨"x"⟩
    · rw [hx]
      decide
    · simp [hx]
  have htext := hrows _ mem_cons_self _ (mem_cons_of_mem _ mem_cons_self) hsame
  revert htext
  decide +kernel

end Distinct

end Nova
