import Mathlib.Data.List.DropRight
import Nova.Lib.Rounding
import Nova.Query.Compare

/-!
# Numbers of the evaluator

The 64-bit integers of the code and the lexical forms they are read from and written to,
and the numeric library with everything the arithmetic and the aggregates call
(`XsdNumbers`). What is assumed of it is stated where it is needed: its integers are `i64`
(`XsdNumbers.Integers64`), and its doubles round whole results to 53 bits
(`XsdNumbers.Doubles53`).
-/

namespace Nova

open Nova.Lib List

/-! ## 64-bit integers -/

def i64Min : Int := -2 ^ 63

def i64Max : Int := 2 ^ 63 - 1

def InI64 (n : Int) : Prop := i64Min ≤ n ∧ n ≤ i64Max

instance (n : Int) : Decidable (InI64 n) := inferInstanceAs (Decidable (_ ∧ _))

/-- What is left of a number in 64 bits. -/
def wrapI64 (n : Int) : Int := (n + 2 ^ 63) % 2 ^ 64 - 2 ^ 63

/-- A cast that saturates. -/
def clampI64 (n : Int) : Int := max i64Min (min n i64Max)

theorem inI64_wrapI64 (n : Int) : InI64 (wrapI64 n) := by
  unfold InI64 wrapI64 i64Min i64Max
  omega

theorem wrapI64_of_inI64 {n : Int} (h : InI64 n) : wrapI64 n = n := by
  unfold InI64 i64Min i64Max at h
  unfold wrapI64
  omega

theorem wrapI64_add (m n : Int) : wrapI64 (wrapI64 m + n) = wrapI64 (m + n) := by
  unfold wrapI64
  omega

/-- A number in range is what is left of those that differ by a multiple of `2 ^ 64`. -/
theorem wrapI64_eq_iff {m n : Int} (h : InI64 n) : wrapI64 m = n ↔ (2 ^ 64 : Int) ∣ n - m := by
  unfold InI64 i64Min i64Max at h
  unfold wrapI64
  omega

/-! ## Lexical forms -/

/-- The value of an `xsd:integer` form: digits with an optional sign. -/
def lexicalInteger (s : String) : Option Int :=
  match s.toList with
  | [] => none
  | '-' :: cs => if cs = [] then none else (readDigits cs 0).map fun n => -(n : Int)
  | '+' :: cs => if cs = [] then none else (readDigits cs 0).map fun n => (n : Int)
  | cs => (readDigits cs 0).map fun n => (n : Int)

/-- `i64::from_str`: a form whose value has no room is an error. -/
def i64FromStr (s : String) : Option Int := (lexicalInteger s).filter fun n => InI64 n

/-- `make_integer_literal`. -/
def makeIntegerLiteral (n : Int) : Term := .literal (.newTypedLiteral (toString n) (xsd "integer"))

theorem readDigits_eq {cs : List Char} (h : ∀ c ∈ cs, c.isDigit = true) :
    ∀ init, readDigits cs init = some (Nat.ofDigitChars 10 cs init) := by
  induction cs with
  | nil => exact fun init => by rw [readDigits, Nat.ofDigitChars_nil]
  | cons c cs ih =>
    intro init
    obtain ⟨hc, hcs⟩ := forall_mem_cons.mp h
    rw [readDigits, if_pos hc, Nat.ofDigitChars_cons, ih hcs]

theorem readDigits_toDigits (n : Nat) : readDigits (Nat.toDigits 10 n) 0 = some n := by
  rw [readDigits_eq fun c hc => Nat.isDigit_of_mem_toDigits (by decide) (by decide) hc,
    Nat.ofDigitChars_ten_toDigits]

theorem lexicalInteger_toString (n : Int) : lexicalInteger (toString n) = some n := by
  cases n with
  | ofNat m =>
    have hlist : (toString (Int.ofNat m)).toList = Nat.toDigits 10 m := Nat.toList_repr
    unfold lexicalInteger
    rw [hlist]
    have hread := readDigits_toDigits m
    have hdigits : ∀ c ∈ Nat.toDigits 10 m, c.isDigit = true :=
      fun c hc => Nat.isDigit_of_mem_toDigits (by decide) (by decide) hc
    -- the form begins with a digit, not with a sign
    split
    · next heq => exact absurd heq Nat.toDigits_ne_nil
    · next cs heq => exact absurd (hdigits '-' (heq ▸ mem_cons_self)) (by decide)
    · next cs heq => exact absurd (hdigits '+' (heq ▸ mem_cons_self)) (by decide)
    · rw [hread]
      rfl
  | negSucc m =>
    have hlist : (toString (Int.negSucc m)).toList = '-' :: Nat.toDigits 10 (m + 1) := by
      show ("-" ++ (m + 1).repr).toList = _
      rw [String.toList_append, Nat.toList_repr]
      rfl
    unfold lexicalInteger
    rw [hlist]
    simp only [if_neg (Nat.toDigits_ne_nil (b := 10) (n := m + 1)), readDigits_toDigits]
    rfl

theorem makeIntegerLiteral_injective : Function.Injective makeIntegerLiteral := by
  intro m n heq
  have hlit : Literal.newTypedLiteral (toString m) (xsd "integer") =
      Literal.newTypedLiteral (toString n) (xsd "integer") := Term.literal.inj heq
  have hvalue : ∀ s : String, (Literal.newTypedLiteral s (xsd "integer")).value = s := by
    intro s
    rfl
  have hstring := congrArg Literal.value hlit
  rw [hvalue, hvalue] at hstring
  have hread := lexicalInteger_toString m
  rw [hstring, lexicalInteger_toString] at hread
  exact (Option.some.inj hread).symm

/-- An `xsd:integer` literal with its value. -/
structure IntegerLiteral where
  literal : Literal
  value : Int
  isInteger : literal.datatype = xsd "integer"
  reads : lexicalInteger literal.value = some value

/-- The term of such a literal. -/
def IntegerLiteral.term (l : IntegerLiteral) : Term := .literal l.literal

/-- The literal in its canonical form. -/
def IntegerLiteral.ofInt (n : Int) : IntegerLiteral where
  literal := .newTypedLiteral (toString n) (xsd "integer")
  value := n
  isInteger := by
    rw [Literal.newTypedLiteral, dif_neg (by decide)]
    rfl
  reads := by
    rw [Literal.newTypedLiteral, dif_neg (by decide)]
    exact lexicalInteger_toString n

/-! ## The numeric library -/

/-- `oxsdatatypes` and the `f64` and `f32` of the language, with what the evaluator calls. -/
structure XsdNumbers extends XsdTypes where
  /-- `i64::from`. -/
  i64FromInt : XsdInt → Int
  decFromI64 : Int → XsdDec
  decCheckedAdd : XsdDec → XsdDec → Option XsdDec
  decCheckedDiv : XsdDec → XsdDec → Option XsdDec
  decToString : XsdDec → String
  floatToString : XsdFloat → String
  dblToString : XsdDbl → String
  f64Add : XsdDbl → XsdDbl → XsdDbl
  f64Sub : XsdDbl → XsdDbl → XsdDbl
  f64Mul : XsdDbl → XsdDbl → XsdDbl
  f64Div : XsdDbl → XsdDbl → XsdDbl
  f64Neg : XsdDbl → XsdDbl
  /-- What a sum of no doubles is. -/
  f64EmptySum : XsdDbl
  f64IsNan : XsdDbl → Bool
  f64IsInfinite : XsdDbl → Bool
  f64IsNegative : XsdDbl → Bool
  /-- `v == 0.0`. -/
  f64IsZero : XsdDbl → Bool
  f64FromStr : String → Option XsdDbl
  /-- `n as f64`. -/
  f64FromI64 : Int → XsdDbl
  /-- `value as i64`. -/
  f64AsI64 : XsdDbl → Int
  /-- `format!("{v}")`. -/
  f64Display : XsdDbl → String
  /-- `format!("{v:e}")`. -/
  f64LowerExp : XsdDbl → String
  /-- `(v as f32).to_string()`. -/
  f32Display : XsdDbl → String

/-- The integers of the library are `i64`, and are read as such. -/
structure XsdNumbers.Integers64 (X : XsdNumbers) : Prop where
  fromStr : ∀ s, (X.intFromStr s).map X.i64FromInt = i64FromStr s

/-- The doubles that are whole numbers are those of the format with 53 bits: what comes of
them is rounded, and a cast to an integer saturates. `whole` tells which number a double is. -/
structure XsdNumbers.Doubles53 (X : XsdNumbers) (whole : X.XsdDbl → Option Int) : Prop where
  fromInt : ∀ i, whole (X.dblFromInt i) = some (roundTo 53 (X.i64FromInt i))
  fromI64 : ∀ n, InI64 n → whole (X.f64FromI64 n) = some (roundTo 53 n)
  add : ∀ x y a b, whole x = some a → whole y = some b → |a + b| < 2 ^ 1023 →
    whole (X.f64Add x y) = some (roundTo 53 (a + b))
  sub : ∀ x y a b, whole x = some a → whole y = some b → |a - b| < 2 ^ 1023 →
    whole (X.f64Sub x y) = some (roundTo 53 (a - b))
  mul : ∀ x y a b, whole x = some a → whole y = some b → |a * b| < 2 ^ 1023 →
    whole (X.f64Mul x y) = some (roundTo 53 (a * b))
  neg : ∀ x a, whole x = some a → whole (X.f64Neg x) = some (-a)
  asI64 : ∀ x a, whole x = some a → X.f64AsI64 x = clampI64 a

namespace XsdNumbers

variable {X : XsdNumbers}

theorem Integers64.parse (hX : X.Integers64) (l : IntegerLiteral) :
    (InI64 l.value → ∃ i, Numeric.parse X.toXsdTypes l.literal = some (.integer i) ∧ X.i64FromInt i = l.value) ∧
      (¬InI64 l.value → Numeric.parse X.toXsdTypes l.literal = none) := by
  have hfrom := hX.fromStr l.literal.value
  rw [i64FromStr, l.reads] at hfrom
  have hmem : l.literal.datatype ∈ Numeric.integerNames.map xsd := by
    rw [l.isInteger]
    exact mem_map_of_mem mem_cons_self
  have hparse : Numeric.parse X.toXsdTypes l.literal = (X.intFromStr l.literal.value).map .integer := if_pos hmem
  constructor
  · intro hin
    rw [Option.filter_some, if_pos (by simpa using hin)] at hfrom
    obtain ⟨i, hi, hval⟩ := Option.map_eq_some_iff.mp hfrom
    exact ⟨i, by rw [hparse, hi, Option.map_some], hval⟩
  · intro hout
    rw [Option.filter_some, if_neg (by simpa using hout), Option.map_eq_none_iff] at hfrom
    rw [hparse, hfrom, Option.map_none]

end XsdNumbers

/-! ## Whole numbers in 64 bits -/

/-- A number of units of `10 ^ -18`, without trailing zeros. -/
def decimalString (d : Int) : String :=
  let fraction := ((toString (10 ^ 18 + d.natAbs % 10 ^ 18)).toList.drop 1).rdropWhile (· = '0')
  (if d < 0 then "-" else "") ++ toString (d.natAbs / 10 ^ 18) ++
    if fraction = [] then "" else "." ++ String.ofList fraction

/-- The numeric library on whole numbers: integers are `i64`, decimals are counted in units of
`10 ^ -18`, and doubles have 53 bits. -/
def wholeNumbers64 : XsdNumbers where
  XsdInt := { n : Int // InI64 n }
  XsdDec := Int
  XsdFloat := Int
  XsdDbl := Int
  intFromStr s := (lexicalInteger s).bind fun n => if h : InI64 n then some ⟨n, h⟩ else none
  decFromStr s := (lexicalInteger s).map fun n => n * 10 ^ 18
  floatFromStr s := (lexicalInteger s).map (roundTo 24)
  dblFromStr s := (lexicalInteger s).map (roundTo 53)
  cmpInt a b := compare a.val b.val
  cmpDec := compare
  cmpFloat a b := some (compare a b)
  cmpDbl a b := some (compare a b)
  decFromInt a := a.val * 10 ^ 18
  dblFromInt a := roundTo 53 a.val
  dblFromFloat := id
  f64FromDec d := some (roundTo 53 (d / 10 ^ 18))
  i64FromInt := Subtype.val
  decFromI64 n := n * 10 ^ 18
  decCheckedAdd a b := if |a + b| < 2 ^ 127 then some (a + b) else none
  decCheckedDiv a b := if b = 0 then none else some (a * 10 ^ 18 / b)
  decToString := decimalString
  floatToString := toString
  dblToString := toString
  f64Add a b := roundTo 53 (a + b)
  f64Sub a b := roundTo 53 (a - b)
  f64Mul a b := roundTo 53 (a * b)
  f64Div a b := roundTo 53 (a / b)
  f64Neg a := -a
  f64EmptySum := 0
  f64IsNan _ := false
  f64IsInfinite _ := false
  f64IsNegative a := decide (a < 0)
  f64IsZero a := decide (a = 0)
  f64FromStr s := (lexicalInteger s).map (roundTo 53)
  f64FromI64 := roundTo 53
  f64AsI64 := clampI64
  f64Display := toString
  f64LowerExp a := toString a ++ "e0"
  f32Display := toString

theorem wholeNumbers64_integers : wholeNumbers64.Integers64 where
  fromStr := by
    intro s
    show (((lexicalInteger s).bind fun n =>
      if h : InI64 n then some (⟨n, h⟩ : { n : Int // InI64 n }) else none).map
      Subtype.val) = (lexicalInteger s).filter fun n => InI64 n
    cases lexicalInteger s with
    | none => rfl
    | some n =>
      rw [Option.bind_some, Option.filter_some]
      by_cases h : InI64 n
      · rw [dif_pos h, if_pos (decide_eq_true h)]
        rfl
      · rw [dif_neg h, if_neg (by simpa using h)]
        rfl

theorem wholeNumbers64_doubles : wholeNumbers64.Doubles53 some where
  fromInt := fun _ => rfl
  fromI64 := fun _ _ => rfl
  add := by
    rintro x y a b ⟨⟩ ⟨⟩ _
    rfl
  sub := by
    rintro x y a b ⟨⟩ ⟨⟩ _
    rfl
  mul := by
    rintro x y a b ⟨⟩ ⟨⟩ _
    rfl
  neg := by
    rintro x a ⟨⟩
    rfl
  asI64 := by
    rintro x a ⟨⟩
    rfl

end Nova
