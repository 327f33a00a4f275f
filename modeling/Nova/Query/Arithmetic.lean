import Mathlib.Algebra.Order.Ring.Abs
import Nova.Query.Aggregates

/-!
# Arithmetic on integers

`numeric_binop` and `numeric_unary` take integers to doubles, calculate there, and cast the
result back: it is rounded at each step, and saturates at the ends of the range.

* `integer_arithmetic_iff`: when `a + b`, `a - b`, `a * b` and `-a` are the exact integer,
  or an error where it has no room in 64 bits.
-/

namespace Nova

open Nova.Lib

/-! ## The operators -/

namespace Eval

/-- `l.datatype().as_str().strip_prefix(XSD)`. -/
def xsdLocal (n : NamedNode) : Option String :=
  if (xsd "").iri.toList.isPrefixOf n.iri.toList then
    some (String.ofList (n.iri.toList.drop (xsd "").iri.toList.length))
  else none

/-- `literal_as_f64`. -/
def literalAsF64 (X : XsdNumbers) (l : Literal) : Option X.XsdDbl :=
  if l.datatype = xsdBoolean then
    if l.value = "true" ∨ l.value = "1" then some (X.f64FromI64 1)
    else if l.value = "false" ∨ l.value = "0" then some (X.f64FromI64 0)
    else none
  else if l.datatype ∈ Numeric.integerNames.map xsd then (i64FromStr l.value).map X.f64FromI64
  else if l.datatype ∈ ["decimal", "float", "double"].map xsd then X.f64FromStr l.value
  else none

def termAsF64 (X : XsdNumbers) : Term → Option X.XsdDbl
  | .literal l => literalAsF64 X l
  | _ => none

/-- `format_decimal_div`: there is always a decimal point. -/
def formatDecimalDiv (X : XsdNumbers) (f : X.XsdDbl) : String :=
  let s := X.f64Display f
  if s.toList.any fun c => c ∈ ['.', 'e', 'E', 'n', 'i'] then s else s ++ ".0"

/-- `make_typed_numeric`. -/
def makeTypedNumeric (X : XsdNumbers) (value : X.XsdDbl) (typeLocal : String) : Term :=
  let lex :=
    if typeLocal ∈ Numeric.integerNames then toString (X.f64AsI64 value)
    else if typeLocal = "decimal" then formatDecimalDiv X value
    else X.f64Display value
  .literal (.newTypedLiteral lex (xsd typeLocal))

/-- The type of a result, by the promotion of its arguments. -/
def resultType {X : XsdTypes} (a b : Numeric X) : String :=
  if a.isInteger && b.isInteger then "integer"
  else if a.isDouble || b.isDouble then "double"
  else if a.isFloat || b.isFloat then "float"
  else "decimal"

/-- `numeric_binop`. -/
def numericBinop (X : XsdNumbers) (op : X.XsdDbl → X.XsdDbl → X.XsdDbl) (a b : Term) : Option Term := do
  let an ← numberOf X a
  let bn ← numberOf X b
  let af ← an.toF64
  let bf ← bn.toF64
  return makeTypedNumeric X (op af bf) (resultType an bn)

/-- `numeric_unary`. -/
def numericUnary (X : XsdNumbers) (a : Term) (result : X.XsdDbl) : Option Term :=
  match a with
  | .literal l => (xsdLocal l.datatype).map fun typeLocal => makeTypedNumeric X result typeLocal
  | _ => none

end Eval

open Eval

/-- The evaluator's functions with this arithmetic. -/
def Scalars.computing (scalars : Scalars) (X : XsdNumbers) : Scalars :=
  { scalars with
    binary := fun op a b =>
      match op with
      | .add => numericBinop X X.f64Add a b
      | .subtract => numericBinop X X.f64Sub a b
      | .multiply => numericBinop X X.f64Mul a b
      | _ => scalars.binary op a b
    unaryMinus := fun a => (termAsF64 X a).bind fun n => numericUnary X a (X.f64Neg n) }

/-! ## Through doubles and back -/

section Detour

/-- What is left of a whole double in 64 bits is this number: the double is it, or lies beyond
the end of the range that it is. -/
def LandsOn (m n : Int) : Prop := m = n ∨ (n = i64Max ∧ i64Max < m) ∨ (n = i64Min ∧ m < i64Min)

instance (m n : Int) : Decidable (LandsOn m n) := inferInstanceAs (Decidable (_ ∨ _))

variable {n : Int}

theorem clampI64_eq_iff {m : Int} (hn : InI64 n) : clampI64 m = n ↔ LandsOn m n := by
  unfold InI64 at hn
  unfold LandsOn clampI64 i64Min i64Max at *
  omega

theorem makeTypedNumeric_integer (X : XsdNumbers) (value : X.XsdDbl) :
    makeTypedNumeric X value "integer" = makeIntegerLiteral (X.f64AsI64 value) := by
  have hinteger : "integer" ∈ Numeric.integerNames := List.mem_cons_self
  unfold makeTypedNumeric makeIntegerLiteral
  rw [if_pos hinteger]

/-- The exact integer if it fits, and else an error. -/
def ExactInteger (n : Int) (r : Except QueryError (Option Term)) : Prop :=
  r = .ok (if InI64 n then some (makeIntegerLiteral n) else none)

theorem exactInteger_iff {m : Int} : ExactInteger n (.ok (some (makeIntegerLiteral (clampI64 m)))) ↔
    InI64 n ∧ LandsOn m n := by
  unfold ExactInteger
  by_cases hin : InI64 n
  · rw [if_pos hin, Except.ok.injEq, Option.some.injEq, makeIntegerLiteral_injective.eq_iff, clampI64_eq_iff hin]
    exact ⟨fun h => ⟨hin, h⟩, fun h => h.2⟩
  · rw [if_neg hin, Except.ok.injEq]
    exact ⟨fun h => (by cases h), fun h => absurd h.1 hin⟩

theorem abs_le_of_inI64 (h : InI64 n) : |n| ≤ 2 ^ 63 := by
  unfold InI64 i64Min i64Max at h
  rw [abs_le]
  omega

variable {X : XsdNumbers} {whole : X.XsdDbl → Option Int} {a b : IntegerLiteral}

/-- An operator on integers is the operator on their doubles, rounded, and cast. -/
theorem numericBinop_integers (hX : X.Integers64) (hD : X.Doubles53 whole) {op : X.XsdDbl → X.XsdDbl → X.XsdDbl}
    {f : Int → Int → Int} (hop : ∀ x y m n, whole x = some m → whole y = some n → |f m n| < 2 ^ 1023 →
      whole (op x y) = some (roundTo 53 (f m n)))
    (hf : ∀ m n, |m| ≤ 2 ^ 63 → |n| ≤ 2 ^ 63 → |f m n| < 2 ^ 1023) (ha : InI64 a.value) (hb : InI64 b.value) :
    numericBinop X op a.term b.term =
      some (makeIntegerLiteral (clampI64 (roundTo 53 (f (roundTo 53 a.value) (roundTo 53 b.value))))) := by
  obtain ⟨i, hi, hival⟩ := (hX.parse a).1 ha
  obtain ⟨j, hj, hjval⟩ := (hX.parse b).1 hb
  have hdouble : ∀ n, InI64 n → |roundTo 53 n| ≤ 2 ^ 63 :=
    fun n hn => natAbs_roundTo_le (by decide) (abs_le_of_inI64 hn)
  have hresult := hop _ _ _ _ (hD.fromInt i) (hD.fromInt j)
    (by rw [hival, hjval]; exact hf _ _ (hdouble _ ha) (hdouble _ hb))
  rw [hival, hjval] at hresult
  have heval : numericBinop X op a.term b.term =
      some (makeTypedNumeric X (op (X.dblFromInt i) (X.dblFromInt j)) "integer") := by
    unfold numericBinop numberOf IntegerLiteral.term
    simp only [hi, hj]
    rfl
  rw [heval, makeTypedNumeric_integer, hD.asI64 _ _ hresult]

theorem unaryMinus_integer (hD : X.Doubles53 whole) (scalars : Scalars) (ha : InI64 a.value) :
    (scalars.computing X).unaryMinus a.term = some (makeIntegerLiteral (clampI64 (-roundTo 53 a.value))) := by
  have hread : i64FromStr a.literal.value = some a.value := by
    rw [i64FromStr, a.reads, Option.filter_some, if_pos (decide_eq_true ha)]
  have hdouble : termAsF64 X a.term = some (X.f64FromI64 a.value) := by
    unfold termAsF64 IntegerLiteral.term literalAsF64
    simp only [a.isInteger, hread]
    rfl
  have hlocal : xsdLocal a.literal.datatype = some "integer" := by
    rw [a.isInteger]
    decide +kernel
  have hneg := hD.asI64 _ _ (hD.neg _ _ (hD.fromI64 _ ha))
  show ((termAsF64 X a.term).bind fun n => numericUnary X a.term (X.f64Neg n)) = _
  rw [hdouble, Option.bind_some, ← hneg, ← makeTypedNumeric_integer]
  show (xsdLocal a.literal.datatype).map _ = _
  rw [hlocal]
  rfl

/-- The negation of an integer through a double: the integer has 53 bits, or the two
roundings undo each other at the end of the range. -/
theorem landsOn_neg_iff (hn : InI64 n) :
    InI64 (-n) ∧ LandsOn (-roundTo 53 n) (-n) ↔ n ≠ i64Min ∧ (HasBits 53 n ∨ n = -i64Max) := by
  have hlow : roundTo 53 (-i64Max) = -2 ^ 63 := by decide +kernel
  rw [← roundTo_eq_self_iff (by decide)]
  unfold LandsOn InI64 at *
  by_cases hmax : n = -i64Max
  · rw [hmax, hlow]
    decide
  · unfold i64Min i64Max at *
    omega

end Detour

/-! ## The expressions -/

section Expressions

variable (X : XsdNumbers) (scalars : Scalars) (options : EvalOptions) (fuel : Nat) (ds : Dataset) (sol : Solution)
  (ag : GraphSelector)

/-- What an operator says of two integer literals. -/
def computed (op : BinaryOp) (a b : IntegerLiteral) : Except QueryError (Option Term) :=
  evalExpr (scalars.computing X) options fuel ds (.binary op (.literal a.literal) (.literal b.literal)) sol ag

def negated (a : IntegerLiteral) : Except QueryError (Option Term) :=
  evalExpr (scalars.computing X) options fuel ds (.unaryMinus (.literal a.literal)) sol ag

variable {X scalars options fuel ds sol ag} {whole : X.XsdDbl → Option Int}

theorem computed_eq {op : BinaryOp} {a b : IntegerLiteral} :
    computed X scalars options fuel ds sol ag op a b = .ok ((scalars.computing X).binary op a.term b.term) := by
  unfold computed
  rfl

theorem negated_eq {a : IntegerLiteral} :
    negated X scalars options fuel ds sol ag a = .ok ((scalars.computing X).unaryMinus a.term) := by
  unfold negated
  rfl

theorem two_add_lt : (2 : Int) ^ 63 + 2 ^ 63 < 2 ^ 1023 := by decide +kernel

theorem two_mul_lt : (2 : Int) ^ 63 * 2 ^ 63 < 2 ^ 1023 := by decide +kernel

theorem add_exact_iff (hX : X.Integers64) (hD : X.Doubles53 whole) {a b : IntegerLiteral} (ha : InI64 a.value)
    (hb : InI64 b.value) :
    ExactInteger (a.value + b.value) (computed X scalars options fuel ds sol ag .add a b) ↔
      InI64 (a.value + b.value) ∧
        LandsOn (roundTo 53 (roundTo 53 a.value + roundTo 53 b.value)) (a.value + b.value) := by
  have hsum : (scalars.computing X).binary .add a.term b.term = _ :=
    numericBinop_integers hX hD (f := fun m n => m + n) hD.add
      (fun m n hm hn => lt_of_le_of_lt ((abs_add_le m n).trans (add_le_add hm hn)) two_add_lt) ha hb
  rw [computed_eq, hsum, exactInteger_iff]

/-- The sum, the difference and the product of two integers of 64 bits are exact, or an error
where they have no room, just when they have room and the double that is nearest to the
result on the doubles nearest to the integers lands on them; the negation, just when it has
room and the integer has 53 bits or is the one above the least. -/
theorem integer_arithmetic_iff (hX : X.Integers64) (hD : X.Doubles53 whole) (a b : IntegerLiteral)
    (ha : InI64 a.value) (hb : InI64 b.value) :
    (ExactInteger (a.value + b.value) (computed X scalars options fuel ds sol ag .add a b) ↔
      InI64 (a.value + b.value) ∧
        LandsOn (roundTo 53 (roundTo 53 a.value + roundTo 53 b.value)) (a.value + b.value)) ∧
    (ExactInteger (a.value - b.value) (computed X scalars options fuel ds sol ag .subtract a b) ↔
      InI64 (a.value - b.value) ∧
        LandsOn (roundTo 53 (roundTo 53 a.value - roundTo 53 b.value)) (a.value - b.value)) ∧
    (ExactInteger (a.value * b.value) (computed X scalars options fuel ds sol ag .multiply a b) ↔
      InI64 (a.value * b.value) ∧
        LandsOn (roundTo 53 (roundTo 53 a.value * roundTo 53 b.value)) (a.value * b.value)) ∧
    (ExactInteger (-a.value) (negated X scalars options fuel ds sol ag a) ↔
      a.value ≠ i64Min ∧ (HasBits 53 a.value ∨ a.value = -i64Max)) := by
  refine ⟨add_exact_iff hX hD ha hb, ?_, ?_, ?_⟩
  · have hdiff : (scalars.computing X).binary .subtract a.term b.term = _ :=
      numericBinop_integers hX hD (f := fun m n => m - n) hD.sub
        (fun m n hm hn => lt_of_le_of_lt ((abs_sub m n).trans (add_le_add hm hn)) two_add_lt) ha hb
    rw [computed_eq, hdiff, exactInteger_iff]
  · have hprod : (scalars.computing X).binary .multiply a.term b.term = _ :=
      numericBinop_integers hX hD (f := fun m n => m * n) hD.mul (fun m n hm hn => by
        rw [abs_mul]
        exact lt_of_le_of_lt (mul_le_mul hm hn (abs_nonneg n) (by positivity)) two_mul_lt) ha hb
    rw [computed_eq, hprod, exactInteger_iff]
  · rw [negated_eq, unaryMinus_integer hD scalars ha, exactInteger_iff, landsOn_neg_iff ha]

/-- 3 and 4. -/
theorem integer_arithmetic_of_small :
    ExactInteger 7 (computed wholeNumbers64 iriScalars plainOptions 0 (storeDataset labelStore.quadStore) .new .default
        .add (.ofInt 3) (.ofInt 4)) ∧
      ExactInteger 12 (computed wholeNumbers64 iriScalars plainOptions 0 (storeDataset labelStore.quadStore) .new .default
        .multiply (.ofInt 3) (.ofInt 4)) ∧
      ExactInteger (-3) (negated wholeNumbers64 iriScalars plainOptions 0 (storeDataset labelStore.quadStore) .new .default
        (.ofInt 3)) := by
  obtain ⟨hadd, -, hmul, hneg⟩ := @integer_arithmetic_iff _ iriScalars plainOptions 0
    (storeDataset labelStore.quadStore) .new .default _ wholeNumbers64_integers wholeNumbers64_doubles
    (.ofInt 3) (.ofInt 4) (by decide) (by decide)
  refine ⟨hadd.mpr ⟨by decide, Or.inl (by decide +kernel)⟩, hmul.mpr ⟨by decide, Or.inl (by decide +kernel)⟩, ?_⟩
  exact hneg.mpr ⟨by decide, Or.inl (hasBits_of_lt (by decide))⟩

/-- `2 ^ 53 + 1` loses its last bit when nothing is added; the greatest integer stays where it is
when one is added; and the least has a negation. -/
theorem integer_arithmetic_rounds :
    computed wholeNumbers64 iriScalars plainOptions 0 (storeDataset labelStore.quadStore) .new .default .add
        (.ofInt (2 ^ 53 + 1)) (.ofInt 0) = .ok (some (makeIntegerLiteral (2 ^ 53))) ∧
      computed wholeNumbers64 iriScalars plainOptions 0 (storeDataset labelStore.quadStore) .new .default .add
        (.ofInt i64Max) (.ofInt 1) = .ok (some (makeIntegerLiteral i64Max)) ∧
      negated wholeNumbers64 iriScalars plainOptions 0 (storeDataset labelStore.quadStore) .new .default
        (.ofInt i64Min) = .ok (some (makeIntegerLiteral i64Max)) ∧
      ¬ExactInteger (2 ^ 53 + 1 + 0) (computed wholeNumbers64 iriScalars plainOptions 0
        (storeDataset labelStore.quadStore) .new .default .add (.ofInt (2 ^ 53 + 1)) (.ofInt 0)) := by
  have hround : roundTo 53 (roundTo 53 (2 ^ 53 + 1) + roundTo 53 0) = 2 ^ 53 := by decide +kernel
  refine ⟨?_, ?_, ?_, fun hexact => ?_⟩
  · rw [computed_eq]
    decide +kernel
  · rw [computed_eq]
    decide +kernel
  · rw [negated_eq]
    decide +kernel
  · have hlands := ((add_exact_iff wholeNumbers64_integers wholeNumbers64_doubles (a := .ofInt (2 ^ 53 + 1))
      (b := .ofInt 0) (by decide) (by decide)).mp hexact).2
    revert hlands
    show ¬LandsOn (roundTo 53 (roundTo 53 (2 ^ 53 + 1) + roundTo 53 0)) (2 ^ 53 + 1 + 0)
    decide

end Expressions

end Nova
