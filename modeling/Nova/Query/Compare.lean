import Nova.Query.Eval

/-!
# Comparing terms

The order of terms that `<` and `ORDER BY` use, and the equality of `=`.

* `compareTermsOpt_preorder`: the order is reflexive and changes sides with its arguments,
  and it is transitive for terms whose literals are on one scale.
* `compareTermsOpt_not_transitive`: it is not transitive for an integer, a double and an
  integer.
* `rdfEqual_coherent`: where two terms are ordered, their equality is defined and agrees
  with the order; it is reflexive and symmetric, and transitive but for rounded numbers.
* `rdfEqual_not_transitive`: two integers may both be equal to a double.

The numeric types are those of a library (`XsdTypes`), of which the order of the values and
what its conversions keep is assumed (`XsdTypes.Lawful`).
-/

namespace Nova

open Option

/-- The numeric types of `oxsdatatypes`, with what the evaluator calls. A double is an `f64`
with a name of its own, and they are one type here. -/
structure XsdTypes where
  XsdInt : Type
  XsdDec : Type
  XsdFloat : Type
  XsdDbl : Type
  intFromStr : String → Option XsdInt
  decFromStr : String → Option XsdDec
  floatFromStr : String → Option XsdFloat
  dblFromStr : String → Option XsdDbl
  cmpInt : XsdInt → XsdInt → Ordering
  cmpDec : XsdDec → XsdDec → Ordering
  cmpFloat : XsdFloat → XsdFloat → Option Ordering
  cmpDbl : XsdDbl → XsdDbl → Option Ordering
  decFromInt : XsdInt → XsdDec
  dblFromInt : XsdInt → XsdDbl
  dblFromFloat : XsdFloat → XsdDbl
  /-- `d.to_string().parse().ok()`. -/
  f64FromDec : XsdDec → Option XsdDbl

/-- A comparison that gives at most. -/
def AtMost (o : Option Ordering) : Prop := ∃ r, o = some r ∧ r.isLE = true

/-- What the library promises: integers and decimals are ordered; so are floats and doubles
other than NaN; an integer is the same as a decimal, a float is the same as a double, and
rounding keeps the order. -/
structure XsdTypes.Lawful (X : XsdTypes) : Prop where
  dec : Std.TransCmp X.cmpDec
  decFromInt : ∀ a b, X.cmpDec (X.decFromInt a) (X.decFromInt b) = X.cmpInt a b
  dbl_swap : ∀ a b, X.cmpDbl b a = (X.cmpDbl a b).map Ordering.swap
  dbl_trans : ∀ a b c, AtMost (X.cmpDbl a b) → AtMost (X.cmpDbl b c) → AtMost (X.cmpDbl a c)
  dbl_total : ∀ a b, X.cmpDbl a a ≠ none → X.cmpDbl b b ≠ none → X.cmpDbl a b ≠ none
  dblFromFloat : ∀ a b, X.cmpDbl (X.dblFromFloat a) (X.dblFromFloat b) = X.cmpFloat a b
  f64FromDec : ∀ a, X.f64FromDec a ≠ none
  f64FromDec_mono : ∀ a b x y, (X.cmpDec a b).isLE = true → X.f64FromDec a = some x → X.f64FromDec b = some y →
    AtMost (X.cmpDbl x y)
  /-- An integer is rounded to the double that it is rounded to as a decimal. -/
  dblFromInt : ∀ a x, X.f64FromDec (X.decFromInt a) = some x → X.cmpDbl (X.dblFromInt a) x = some .eq

/-! ## Numbers -/

inductive Numeric (X : XsdTypes) where
  | integer (a : X.XsdInt)
  | decimal (a : X.XsdDec)
  | float (a : X.XsdFloat)
  | double (a : X.XsdDbl)

def xsd (localName : String) : NamedNode := ⟨"http://www.w3.org/2001/XMLSchema#" ++ localName⟩

namespace Numeric

variable {X : XsdTypes}

/-- The local names of the types that are read as integers. -/
def integerNames : List String := ["integer", "int", "long", "short", "byte", "nonNegativeInteger", "positiveInteger",
  "negativeInteger", "nonPositiveInteger", "unsignedLong", "unsignedInt", "unsignedShort", "unsignedByte"]

variable (X) in
def parse (l : Literal) : Option (Numeric X) :=
  if l.datatype ∈ integerNames.map xsd then (X.intFromStr l.value).map .integer
  else if l.datatype = xsd "decimal" then (X.decFromStr l.value).map .decimal
  else if l.datatype = xsd "float" then (X.floatFromStr l.value).map .float
  else if l.datatype = xsd "double" then (X.dblFromStr l.value).map .double
  else none

def partialCmpXsd : Numeric X → Numeric X → Option Ordering
  | .integer a, .integer b => some (X.cmpInt a b)
  | .decimal a, .decimal b => some (X.cmpDec a b)
  | .float a, .float b => X.cmpFloat a b
  | .double a, .double b => X.cmpDbl a b
  | .integer a, .decimal b => some (X.cmpDec (X.decFromInt a) b)
  | .decimal a, .integer b => some (X.cmpDec a (X.decFromInt b))
  | .integer a, .float b => X.cmpDbl (X.dblFromInt a) (X.dblFromFloat b)
  | .float a, .integer b => X.cmpDbl (X.dblFromFloat a) (X.dblFromInt b)
  | .integer a, .double b => X.cmpDbl (X.dblFromInt a) b
  | .double a, .integer b => X.cmpDbl a (X.dblFromInt b)
  | .decimal a, .float b => (X.f64FromDec a).bind fun af => X.cmpDbl af (X.dblFromFloat b)
  | .float a, .decimal b => (X.f64FromDec b).bind fun bf => X.cmpDbl (X.dblFromFloat a) bf
  | .decimal a, .double b => (X.f64FromDec a).bind fun af => X.cmpDbl af b
  | .double a, .decimal b => (X.f64FromDec b).bind fun bf => X.cmpDbl a bf
  | .float a, .double b => X.cmpDbl (X.dblFromFloat a) b
  | .double a, .float b => X.cmpDbl a (X.dblFromFloat b)

def eqXsd (a b : Numeric X) : Option Bool := (a.partialCmpXsd b).map fun o => o == .eq

def toF64 : Numeric X → Option X.XsdDbl
  | .integer a => some (X.dblFromInt a)
  | .decimal a => X.f64FromDec a
  | .float a => some (X.dblFromFloat a)
  | .double a => some a

/-- An integer or a decimal: numbers that are compared without rounding. -/
def isExact : Numeric X → Bool
  | .integer _ | .decimal _ => true
  | .float _ | .double _ => false

/-- The decimal that an exact number is. -/
def toDec : Numeric X → Option X.XsdDec
  | .integer a => some (X.decFromInt a)
  | .decimal a => some a
  | .float _ | .double _ => none

theorem toDec_of_exact {m : Numeric X} (h : m.isExact = true) : ∃ a, m.toDec = some a := by
  cases m with
  | integer a => exact ⟨_, rfl⟩
  | decimal a => exact ⟨_, rfl⟩
  | float a => exact absurd h Bool.false_ne_true
  | double a => exact absurd h Bool.false_ne_true

section Lawful

variable (hX : X.Lawful)

include hX

theorem partialCmpXsd_exact {m n : Numeric X} {a b : X.XsdDec} (hm : m.toDec = some a) (hn : n.toDec = some b) :
    m.partialCmpXsd n = some (X.cmpDec a b) := by
  cases m <;> cases n <;>
    simp_all [toDec, partialCmpXsd]
  rw [← hm, ← hn, hX.decFromInt]

theorem toF64_some (m : Numeric X) : ∃ x, m.toF64 = some x := by
  cases m with
  | decimal a => exact ne_none_iff_exists'.mp (hX.f64FromDec a)
  | _ => exact ⟨_, rfl⟩

theorem partialCmpXsd_rounded {m n : Numeric X} {x y : X.XsdDbl} (hinexact : m.isExact = false ∨ n.isExact = false)
    (hm : m.toF64 = some x) (hn : n.toF64 = some y) : m.partialCmpXsd n = X.cmpDbl x y := by
  cases m <;> cases n <;>
    simp_all [toF64, partialCmpXsd, isExact]
  rw [← hm, ← hn, hX.dblFromFloat]

theorem partialCmpXsd_swap (m n : Numeric X) : n.partialCmpXsd m = (m.partialCmpXsd n).map Ordering.swap := by
  have := hX.dec
  by_cases hexact : m.isExact = true ∧ n.isExact = true
  · obtain ⟨a, ha⟩ := toDec_of_exact hexact.1
    obtain ⟨b, hb⟩ := toDec_of_exact hexact.2
    rw [partialCmpXsd_exact hX ha hb, partialCmpXsd_exact hX hb ha, map_some]
    exact congrArg some Std.OrientedCmp.eq_swap
  · have hinexact : m.isExact = false ∨ n.isExact = false := by
      rw [Classical.not_and_iff_not_or_not] at hexact
      exact hexact.imp Bool.eq_false_iff.mpr Bool.eq_false_iff.mpr
    obtain ⟨x, hx⟩ := toF64_some hX m
    obtain ⟨y, hy⟩ := toF64_some hX n
    rw [partialCmpXsd_rounded hX hinexact hx hy, partialCmpXsd_rounded hX hinexact.symm hy hx]
    exact hX.dbl_swap x y

theorem partialCmpXsd_self {m : Numeric X} {o : Ordering} (h : m.partialCmpXsd m = some o) : o = .eq := by
  have hswap := partialCmpXsd_swap hX m m
  rw [h] at hswap
  cases o with
  | eq => rfl
  | lt => exact absurd (Option.some.inj hswap) (by decide)
  | gt => exact absurd (Option.some.inj hswap) (by decide)

theorem toF64_of_toDec {m : Numeric X} {a : X.XsdDec} {x : X.XsdDbl} (hm : m.toDec = some a)
    (hx : m.toF64 = some x) :
    ∃ x', X.f64FromDec a = some x' ∧ AtMost (X.cmpDbl x x') ∧ AtMost (X.cmpDbl x' x) := by
  have := hX.dec
  obtain ⟨x', hx'⟩ := ne_none_iff_exists'.mp (hX.f64FromDec a)
  refine ⟨x', hx', ?_⟩
  cases m with
  | integer i =>
    rw [toDec, Option.some.injEq] at hm
    rw [toF64, Option.some.injEq] at hx
    have heq := hX.dblFromInt i x' (by rw [hm, hx'])
    rw [hx] at heq
    refine ⟨⟨.eq, heq, rfl⟩, .eq, ?_, rfl⟩
    rw [hX.dbl_swap, heq]
    rfl
  | decimal d =>
    rw [toDec, Option.some.injEq] at hm
    rw [toF64, hm, hx', Option.some.injEq] at hx
    have hself := hX.f64FromDec_mono a a x' x' Std.ReflCmp.isLE_rfl hx' hx'
    rw [← hx]
    exact ⟨hself, hself⟩
  | float f => exact nomatch hm
  | double f => exact nomatch hm

theorem toF64_mono {m n : Numeric X} {x y : X.XsdDbl} (hm : m.isExact = true) (hn : n.isExact = true)
    (h : AtMost (m.partialCmpXsd n)) (hx : m.toF64 = some x) (hy : n.toF64 = some y) : AtMost (X.cmpDbl x y) := by
  obtain ⟨a, ha⟩ := toDec_of_exact hm
  obtain ⟨b, hb⟩ := toDec_of_exact hn
  obtain ⟨r, hr, hle⟩ := h
  rw [partialCmpXsd_exact hX ha hb, Option.some.injEq] at hr
  obtain ⟨x', hx', hxx', -⟩ := toF64_of_toDec hX ha hx
  obtain ⟨y', hy', -, hyy'⟩ := toF64_of_toDec hX hb hy
  have hround : AtMost (X.cmpDbl x' y') := hX.f64FromDec_mono a b x' y' (hr ▸ hle) hx' hy'
  exact hX.dbl_trans _ _ _ (hX.dbl_trans _ _ _ hxx' hround) hyy'

theorem atMost_rounded {m n : Numeric X} {x y : X.XsdDbl} (h : AtMost (m.partialCmpXsd n)) (hx : m.toF64 = some x)
    (hy : n.toF64 = some y) : AtMost (X.cmpDbl x y) := by
  by_cases hexact : m.isExact = true ∧ n.isExact = true
  · exact toF64_mono hX hexact.1 hexact.2 h hx hy
  · have hinexact : m.isExact = false ∨ n.isExact = false := by
      rw [Classical.not_and_iff_not_or_not] at hexact
      exact hexact.imp Bool.eq_false_iff.mpr Bool.eq_false_iff.mpr
    rwa [← partialCmpXsd_rounded hX hinexact hx hy]

/-- The order of numbers is transitive, but where two exact numbers are both compared with
one that is not: there they are rounded. -/
theorem partialCmpXsd_trans {l m n : Numeric X} (hlm : AtMost (l.partialCmpXsd m))
    (hmn : AtMost (m.partialCmpXsd n))
    (hround : ¬ (l.isExact = true ∧ m.isExact = false ∧ n.isExact = true)) : AtMost (l.partialCmpXsd n) := by
  have := hX.dec
  by_cases hexact : l.isExact = true ∧ n.isExact = true
  · have hm : m.isExact = true := by
      cases hcase : m.isExact with
      | true => rfl
      | false => exact absurd ⟨hexact.1, hcase, hexact.2⟩ hround
    obtain ⟨a, ha⟩ := toDec_of_exact hexact.1
    obtain ⟨b, hb⟩ := toDec_of_exact hm
    obtain ⟨c, hc⟩ := toDec_of_exact hexact.2
    obtain ⟨r, hr, hle⟩ := hlm
    obtain ⟨r', hr', hle'⟩ := hmn
    rw [partialCmpXsd_exact hX ha hb, Option.some.injEq] at hr
    rw [partialCmpXsd_exact hX hb hc, Option.some.injEq] at hr'
    refine ⟨_, partialCmpXsd_exact hX ha hc, ?_⟩
    rw [← hr] at hle
    rw [← hr'] at hle'
    exact Std.TransCmp.isLE_trans hle hle'
  · have hinexact : l.isExact = false ∨ n.isExact = false := by
      rw [Classical.not_and_iff_not_or_not] at hexact
      exact hexact.imp Bool.eq_false_iff.mpr Bool.eq_false_iff.mpr
    obtain ⟨x, hx⟩ := toF64_some hX l
    obtain ⟨y, hy⟩ := toF64_some hX m
    obtain ⟨z, hz⟩ := toF64_some hX n
    rw [partialCmpXsd_rounded hX hinexact hx hz]
    exact hX.dbl_trans x y z (atMost_rounded hX hlm hx hy) (atMost_rounded hX hmn hy hz)

theorem partialCmpXsd_total {m n : Numeric X} (hm : m.partialCmpXsd m ≠ none) (hn : n.partialCmpXsd n ≠ none) :
    m.partialCmpXsd n ≠ none := by
  have := hX.dec
  by_cases hexact : m.isExact = true ∧ n.isExact = true
  · obtain ⟨a, ha⟩ := toDec_of_exact hexact.1
    obtain ⟨b, hb⟩ := toDec_of_exact hexact.2
    rw [partialCmpXsd_exact hX ha hb]
    exact some_ne_none _
  · have hinexact : m.isExact = false ∨ n.isExact = false := by
      rw [Classical.not_and_iff_not_or_not] at hexact
      exact hexact.imp Bool.eq_false_iff.mpr Bool.eq_false_iff.mpr
    -- the double of a number that is not NaN is not NaN
    have hself : ∀ {k : Numeric X} {x : X.XsdDbl}, k.partialCmpXsd k ≠ none → k.toF64 = some x →
        X.cmpDbl x x ≠ none := by
      intro k x hk hx
      obtain ⟨o, ho⟩ := ne_none_iff_exists'.mp hk
      have hle : AtMost (k.partialCmpXsd k) := ⟨o, ho, by rw [partialCmpXsd_self hX ho]; rfl⟩
      obtain ⟨r, hr, -⟩ := atMost_rounded hX hle hx hx
      rw [hr]
      exact some_ne_none r
    obtain ⟨x, hx⟩ := toF64_some hX m
    obtain ⟨y, hy⟩ := toF64_some hX n
    rw [partialCmpXsd_rounded hX hinexact hx hy]
    exact hX.dbl_total x y (hself hm hx) (hself hn hy)

end Lawful

end Numeric

/-! ## Terms -/

open Eval (xsdBoolean)

def xsdDateTime : NamedNode := xsd "dateTime"

section Terms

variable (X : XsdTypes)

/-- `a.value() == "true" || a.value() == "1"`. -/
def Literal.isTrue (l : Literal) : Bool := l.value = "true" || l.value = "1"

def compareLiterals (a b : Literal) : Option Ordering :=
  match Numeric.parse X a, Numeric.parse X b with
  | some an, some bn => an.partialCmpXsd bn
  | _, _ =>
    if a.datatype = xsdBoolean ∧ b.datatype = xsdBoolean then some (compare a.isTrue b.isTrue)
    else if a.datatype = xsdDateTime ∧ b.datatype = xsdDateTime then some (compare a.value b.value)
    else if a.datatype = b.datatype then some (compare a.value b.value)
    else none

/-- `compare_terms` of two subjects: blank nodes come before IRIs. -/
def compareSubjects : Subject → Subject → Ordering
  | .namedNode a, .namedNode b => compare a.iri b.iri
  | .blankNode a, .blankNode b => compare a.id b.id
  | .blankNode _, .namedNode _ => .lt
  | .namedNode _, .blankNode _ => .gt

def compareTerms : Term → Term → Option Ordering
  | .namedNode a, .namedNode b => some (compare a.iri b.iri)
  | .blankNode a, .blankNode b => some (compare a.id b.id)
  | .literal a, .literal b => compareLiterals X a b
  | .blankNode _, .namedNode _ => some .lt
  | .namedNode _, .blankNode _ => some .gt
  | .blankNode _, .literal _ => some .lt
  | .literal _, .blankNode _ => some .gt
  | .namedNode _, .literal _ => some .lt
  | .literal _, .namedNode _ => some .gt
  | .triple .., .namedNode _ => some .gt
  | .triple .., .blankNode _ => some .gt
  | .triple .., .literal _ => some .gt
  | .namedNode _, .triple .. => some .lt
  | .blankNode _, .triple .. => some .lt
  | .literal _, .triple .. => some .lt
  | .triple s p o, .triple s' p' o' =>
    match compareSubjects s s' with
    | .eq =>
      match compare p.iri p'.iri with
      | .eq => compareTerms o o'
      | other => some other
    | other => some other

def compareTermsOpt : Option Term → Option Term → Ordering
  | none, none => .eq
  | none, some _ => .gt
  | some _, none => .lt
  | some a, some b => (compareTerms X a b).getD .eq

def literalEqual (a b : Literal) : Option Bool :=
  if a = b then some true
  else
    match Numeric.parse X a, Numeric.parse X b with
    | some an, some bn => an.eqXsd bn
    | _, _ =>
      if a.datatype ≠ b.datatype then none
      else some (a.value = b.value)

/-- `rdf_equal` of two subjects. -/
def subjectsEqual : Subject → Subject → Option Bool
  | .namedNode a, .namedNode b => some (a = b)
  | .blankNode a, .blankNode b => some (a = b)
  | _, _ => some false

def rdfEqual : Term → Term → Option Bool
  | .namedNode a, .namedNode b => some (a = b)
  | .blankNode a, .blankNode b => some (a = b)
  | .literal a, .literal b => literalEqual X a b
  | .triple s p o, .triple s' p' o' => do
    let sEq ← subjectsEqual s s'
    if !sEq then return false
    if p ≠ p' then return false
    rdfEqual o o'
  | _, _ => some false

end Terms

/-! ## Where literals decide -/

/-- The literals that two terms come down to: the terms themselves, or the objects of quoted
triples that begin alike. -/
inductive Term.Meets : Term → Term → Literal → Literal → Prop
  | literal (x y : Literal) : Meets (.literal x) (.literal y) x y
  | triple (s : Subject) (p : NamedNode) {a b : Term} {x y : Literal} (h : Meets a b x y) :
    Meets (.triple s p a) (.triple s p b) x y

variable {X : XsdTypes}

/-- A number that is not even compared with itself. -/
def Numeric.IsNaN (m : Numeric X) : Prop := m.partialCmpXsd m = none

variable (X) in
/-- Three literals on one scale: numbers, not two exact ones with one between them that they
are rounded for; or no numbers, and all of one datatype. -/
inductive OneScale (x y z : Literal) : Prop
  | numbers (l m n : Numeric X) (hx : Numeric.parse X x = some l) (hy : Numeric.parse X y = some m)
    (hz : Numeric.parse X z = some n) (hl : ¬ l.IsNaN) (hm : ¬ m.IsNaN) (hn : ¬ n.IsNaN)
    (hround : ¬ (l.isExact = true ∧ m.isExact = false ∧ n.isExact = true))
  | texts (hx : Numeric.parse X x = none) (hy : Numeric.parse X y = none) (hz : Numeric.parse X z = none)
    (hxy : x.datatype = y.datatype) (hyz : y.datatype = z.datatype)

theorem OneScale.symm {x y z : Literal} (h : OneScale X x y z) : OneScale X z y x := by
  cases h with
  | numbers l m n hx hy hz hl hm hn hround =>
    exact .numbers n m l hz hy hx hn hm hl fun hbad => hround ⟨hbad.2.2, hbad.2.1, hbad.1⟩
  | texts hx hy hz hxy hyz => exact .texts hz hy hx hyz.symm hxy.symm

section Literals

variable {x y z : Literal}

theorem compareLiterals_numbers {m n : Numeric X} (hx : Numeric.parse X x = some m)
    (hy : Numeric.parse X y = some n) :
    compareLiterals X x y = m.partialCmpXsd n := by
  rw [compareLiterals, hx, hy]

theorem compareLiterals_texts (h : Numeric.parse X x = none ∨ Numeric.parse X y = none) : compareLiterals X x y =
    if x.datatype = y.datatype then
      some (if x.datatype = xsdBoolean then compare x.isTrue y.isTrue else compare x.value y.value)
    else none := by
  have hmatch : compareLiterals X x y =
      if x.datatype = xsdBoolean ∧ y.datatype = xsdBoolean then some (compare x.isTrue y.isTrue)
      else if x.datatype = xsdDateTime ∧ y.datatype = xsdDateTime then some (compare x.value y.value)
      else if x.datatype = y.datatype then some (compare x.value y.value)
      else none := by
    rw [compareLiterals]
    rcases h with h | h
    · rw [h]
    · rw [h]
      cases Numeric.parse X x <;> rfl
  rw [hmatch]
  by_cases heq : x.datatype = y.datatype
  · rw [if_pos heq]
    by_cases hb : x.datatype = xsdBoolean
    · rw [if_pos ⟨hb, heq.symm.trans hb⟩, if_pos heq, if_pos hb]
    · rw [if_neg fun hand => hb hand.1, if_neg hb, if_pos heq]
      split <;> rfl
  · have hboth : ∀ d, ¬ (x.datatype = d ∧ y.datatype = d) := fun d hand => heq (hand.1.trans hand.2.symm)
    rw [if_neg (hboth _), if_neg (hboth _), if_neg heq, if_neg heq]

theorem compareLiterals_swap (hX : X.Lawful) (x y : Literal) :
    compareLiterals X y x = (compareLiterals X x y).map Ordering.swap := by
  by_cases htext : Numeric.parse X x = none ∨ Numeric.parse X y = none
  · rw [compareLiterals_texts htext, compareLiterals_texts htext.symm]
    by_cases heq : x.datatype = y.datatype
    · rw [if_pos heq, if_pos heq.symm, map_some, heq]
      split
      · exact congrArg some Std.OrientedCmp.eq_swap
      · exact congrArg some Std.OrientedCmp.eq_swap
    · rw [if_neg heq, if_neg fun hsymm => heq hsymm.symm]
      rfl
  · rw [not_or] at htext
    obtain ⟨m, hm⟩ := ne_none_iff_exists'.mp htext.1
    obtain ⟨n, hn⟩ := ne_none_iff_exists'.mp htext.2
    rw [compareLiterals_numbers hm hn, compareLiterals_numbers hn hm]
    exact Numeric.partialCmpXsd_swap hX m n

theorem compareLiterals_trans (hX : X.Lawful) (h : OneScale X x y z)
    (hxy : ((compareLiterals X x y).getD .eq).isLE = true) (hyz : ((compareLiterals X y z).getD .eq).isLE = true) :
    ((compareLiterals X x z).getD .eq).isLE = true := by
  cases h with
  | numbers l m n hx hy hz hl hm hn hround =>
    rw [compareLiterals_numbers hx hy] at hxy
    rw [compareLiterals_numbers hy hz] at hyz
    rw [compareLiterals_numbers hx hz]
    obtain ⟨r, hr⟩ := ne_none_iff_exists'.mp (Numeric.partialCmpXsd_total hX hl hm)
    obtain ⟨r', hr'⟩ := ne_none_iff_exists'.mp (Numeric.partialCmpXsd_total hX hm hn)
    rw [hr] at hxy
    rw [hr'] at hyz
    obtain ⟨o, ho, hle⟩ := Numeric.partialCmpXsd_trans hX ⟨r, hr, hxy⟩ ⟨r', hr', hyz⟩ hround
    rw [ho]
    exact hle
  | texts hx hy hz hdt hdt' =>
    rw [compareLiterals_texts (.inl hx), if_pos hdt, getD_some] at hxy
    rw [compareLiterals_texts (.inl hy), if_pos hdt', getD_some, ← hdt] at hyz
    rw [compareLiterals_texts (.inl hx), if_pos (hdt.trans hdt'), getD_some]
    split at hxy
    · next hb =>
      rw [if_pos hb] at hyz ⊢
      exact Std.TransCmp.isLE_trans hxy hyz
    · next hb =>
      rw [if_neg hb] at hyz ⊢
      exact Std.TransCmp.isLE_trans hxy hyz

end Literals

/-! ## The order of terms -/

/-- Blank nodes, IRIs, literals, quoted triples. -/
def Term.rank : Term → Nat
  | .blankNode _ => 0
  | .namedNode _ => 1
  | .literal _ => 2
  | .triple .. => 3

theorem compareTerms_rank {a b : Term} (h : a.rank ≠ b.rank) : compareTerms X a b = some
    (compare a.rank b.rank) := by
  cases a <;> cases b <;> first | exact absurd rfl h | rfl

def Subject.text : Subject → String
  | .namedNode a => a.iri
  | .blankNode a => a.id

instance : Ord Subject := ⟨compareSubjects⟩

theorem NamedNode.iri_inj {a b : NamedNode} : a.iri = b.iri ↔ a = b := by
  cases a
  cases b
  simp

theorem BlankNode.id_inj {a b : BlankNode} : a.id = b.id ↔ a = b := by
  cases a
  cases b
  simp

theorem compareSubjects_eq_lex :
    compareSubjects = compareLex (compareOn fun s => s.toTerm.rank) (compareOn Subject.text) := by
  funext a b
  cases a <;> cases b <;> rfl

instance : Std.TransOrd Subject := by
  show Std.TransCmp compareSubjects
  rw [compareSubjects_eq_lex]
  infer_instance

theorem compareSubjects_eq_iff (a b : Subject) : compareSubjects a b = .eq ↔ a = b := by
  cases a <;> cases b <;> simp [compareSubjects, BlankNode.id_inj, NamedNode.iri_inj]

/-- A subject with a predicate: what two quoted triples are compared by first. -/
def compareHeads : Subject × NamedNode → Subject × NamedNode → Ordering :=
  compareLex (compareOn Prod.fst) (compareOn fun h => h.2.iri)

instance : Std.TransCmp compareHeads := inferInstanceAs (Std.TransCmp (compareLex _ _))

theorem compareHeads_eq_iff {s s' : Subject} {p p' : NamedNode} :
    compareHeads (s, p) (s', p') = .eq ↔ s = s' ∧ p = p' := by
  have hthen : compareHeads (s, p) (s', p') = (compareSubjects s s').then (compare p.iri p'.iri) := rfl
  rw [hthen, Ordering.then_eq_eq, compareSubjects_eq_iff, Std.LawfulEqOrd.compare_eq_iff_eq, NamedNode.iri_inj]

/-- Quoted triples are compared by their heads, and then by their objects. -/
theorem compareTerms_triple (s s' : Subject) (p p' : NamedNode) (o o' : Term) :
    compareTerms X (.triple s p o) (.triple s' p' o') =
      match compareHeads (s, p) (s', p') with
      | .eq => compareTerms X o o'
      | other => some other := by
  have hthen : compareHeads (s, p) (s', p') = (compareSubjects s s').then (compare p.iri p'.iri) := rfl
  rw [hthen, compareTerms]
  cases compareSubjects s s' with
  | eq => cases compare p.iri p'.iri <;> rfl
  | lt => rfl
  | gt => rfl

theorem compareTerms_triple_isLE (s s' : Subject) (p p' : NamedNode) (o o' : Term) :
    ((compareTerms X (.triple s p o) (.triple s' p' o')).getD .eq).isLE = true ↔
      compareHeads (s, p) (s', p') = .lt ∨ (s = s' ∧ p = p') ∧ ((compareTerms X o o').getD .eq).isLE = true := by
  rw [compareTerms_triple, ← compareHeads_eq_iff]
  cases compareHeads (s, p) (s', p') <;> simp

theorem compareTerms_swap (hX : X.Lawful) (a : Term) : ∀ b, compareTerms X b a =
    (compareTerms X a b).map Ordering.swap := by
  induction a with
  | triple s p o ih =>
    intro b
    cases b with
    | triple s' p' o' =>
      have hswap : compareHeads (s', p') (s, p) = (compareHeads (s, p) (s', p')).swap := Std.OrientedCmp.eq_swap
      rw [compareTerms_triple, compareTerms_triple, hswap]
      cases compareHeads (s, p) (s', p') with
      | eq => exact ih o'
      | lt => rfl
      | gt => rfl
    | _ => rfl
  | literal x =>
    intro b
    cases b with
    | literal y => exact compareLiterals_swap hX x y
    | _ => rfl
  | namedNode n =>
    intro b
    cases b with
    | namedNode n' => exact congrArg some Std.OrientedCmp.eq_swap
    | _ => rfl
  | blankNode n =>
    intro b
    cases b with
    | blankNode n' => exact congrArg some Std.OrientedCmp.eq_swap
    | _ => rfl

/-- By induction on the first term: kinds first, then the parts of a quoted triple. -/
theorem compareTerms_trans (hX : X.Lawful) (a : Term) : ∀ {b c : Term},
    (∀ x y z, a.Meets b x y → b.Meets c y z → OneScale X x y z) →
    ((compareTerms X a b).getD .eq).isLE = true → ((compareTerms X b c).getD .eq).isLE = true →
      ((compareTerms X a c).getD .eq).isLE = true := by
  -- terms of different kinds are ordered by their kinds
  have hrank : ∀ {a b : Term}, ((compareTerms X a b).getD .eq).isLE = true → a.rank ≤ b.rank := by
    intro a b hab
    by_cases heq : a.rank = b.rank
    · exact heq.le
    · rw [compareTerms_rank heq, getD_some] at hab
      exact Nat.isLE_compare.mp hab
  have hkinds : ∀ {a b c : Term}, a.rank ≠ c.rank → ((compareTerms X a b).getD .eq).isLE = true →
      ((compareTerms X b c).getD .eq).isLE = true → ((compareTerms X a c).getD .eq).isLE = true := by
    intro a b c hac hab hbc
    rw [compareTerms_rank hac, getD_some]
    exact Nat.isLE_compare.mpr ((hrank hab).trans (hrank hbc))
  have hbetween : ∀ {a b c : Term}, a.rank = c.rank → ((compareTerms X a b).getD .eq).isLE = true →
      ((compareTerms X b c).getD .eq).isLE = true → b.rank = a.rank := by
    intro a b c hac hab hbc
    exact le_antisymm ((hrank hbc).trans hac.ge) (hrank hab)
  induction a with
  | triple s p o ih =>
    intro b c hscale hab hbc
    by_cases hac : (Term.triple s p o).rank = c.rank
    · have hb := hbetween hac hab hbc
      cases b with
      | triple s' p' o' =>
        cases c with
        | triple s'' p'' o'' =>
          rw [compareTerms_triple_isLE] at hab hbc ⊢
          rcases hab with hab | ⟨⟨rfl, rfl⟩, hab⟩
          · -- the first is below the second, and so below the third
            left
            rcases hbc with hbc | ⟨⟨rfl, rfl⟩, -⟩
            · exact Std.TransCmp.lt_trans hab hbc
            · exact hab
          · rcases hbc with hbc | ⟨⟨rfl, rfl⟩, hbc⟩
            · exact .inl hbc
            · exact .inr ⟨⟨rfl, rfl⟩, ih (fun x y z hxy hyz =>
                hscale x y z (.triple s p hxy) (.triple s p hyz)) hab hbc⟩
        | _ => simp [Term.rank] at hac
      | _ => simp [Term.rank] at hb
    · exact hkinds hac hab hbc
  | literal x =>
    intro b c hscale hab hbc
    by_cases hac : (Term.literal x).rank = c.rank
    · have hb := hbetween hac hab hbc
      cases b with
      | literal y =>
        cases c with
        | literal z => exact compareLiterals_trans hX (hscale x y z (.literal x y) (.literal y z)) hab hbc
        | _ => simp [Term.rank] at hac
      | _ => simp [Term.rank] at hb
    · exact hkinds hac hab hbc
  | namedNode n =>
    intro b c _ hab hbc
    by_cases hac : (Term.namedNode n).rank = c.rank
    · have hb := hbetween hac hab hbc
      cases b with
      | namedNode n' =>
        cases c with
        | namedNode n'' => exact Std.TransOrd.isLE_trans (α := String) hab hbc
        | _ => simp [Term.rank] at hac
      | _ => simp [Term.rank] at hb
    · exact hkinds hac hab hbc
  | blankNode n =>
    intro b c _ hab hbc
    by_cases hac : (Term.blankNode n).rank = c.rank
    · have hb := hbetween hac hab hbc
      cases b with
      | blankNode n' =>
        cases c with
        | blankNode n'' => exact Std.TransOrd.isLE_trans (α := String) hab hbc
        | _ => simp [Term.rank] at hac
      | _ => simp [Term.rank] at hb
    · exact hkinds hac hab hbc

/-! ## The comparison of `ORDER BY` -/

/-- Where literals meet in terms that are bound. -/
def MeetsOpt (a b : Option Term) (x y : Literal) : Prop := ∃ ta tb, a = some ta ∧ b = some tb ∧ ta.Meets tb x y

theorem compareTermsOpt_swap (hX : X.Lawful) (a b : Option Term) :
    compareTermsOpt X b a = (compareTermsOpt X a b).swap := by
  cases a with
  | none => cases b <;> rfl
  | some ta =>
    cases b with
    | none => rfl
    | some tb =>
      rw [compareTermsOpt, compareTermsOpt, compareTerms_swap hX]
      cases compareTerms X ta tb <;> rfl

theorem compareTermsOpt_isLE_trans (hX : X.Lawful) {a b c : Option Term}
    (hscale : ∀ x y z, MeetsOpt a b x y → MeetsOpt b c y z → OneScale X x y z)
    (hab : (compareTermsOpt X a b).isLE = true) (hbc : (compareTermsOpt X b c).isLE = true) :
    (compareTermsOpt X a c).isLE = true := by
  cases c with
  | none => cases a <;> rfl
  | some tc =>
    cases b with
    | none => exact absurd hbc Bool.false_ne_true
    | some tb =>
      cases a with
      | none => exact absurd hab Bool.false_ne_true
      | some ta =>
        exact compareTerms_trans hX ta
          (fun x y z hxy hyz => hscale x y z ⟨ta, tb, rfl, rfl, hxy⟩ ⟨tb, tc, rfl, rfl, hyz⟩) hab hbc

theorem Term.Meets.symm {a b : Term} {x y : Literal} (h : a.Meets b x y) : b.Meets a y x := by
  induction h with
  | literal x y => exact .literal y x
  | triple s p _ ih => exact .triple s p ih

theorem MeetsOpt.symm {a b : Option Term} {x y : Literal} (h : MeetsOpt a b x y) : MeetsOpt b a y x := by
  obtain ⟨ta, tb, ha, hb, hmeet⟩ := h
  exact ⟨tb, ta, hb, ha, hmeet.symm⟩

/-- The comparison of `ORDER BY`: every term is equal to itself, the sides may be changed,
and three terms whose literals are on one scale are in order. -/
theorem compareTermsOpt_preorder (hX : X.Lawful) :
    (∀ a, compareTermsOpt X a a = .eq) ∧
    (∀ a b, compareTermsOpt X b a = (compareTermsOpt X a b).swap) ∧
    ∀ a b c, (∀ x y z, MeetsOpt a b x y → MeetsOpt b c y z → OneScale X x y z) →
      (compareTermsOpt X a b ≠ .gt → compareTermsOpt X b c ≠ .gt → compareTermsOpt X a c ≠ .gt) ∧
      (compareTermsOpt X a b = .eq → compareTermsOpt X b c = .eq → compareTermsOpt X a c = .eq) := by
  refine ⟨?_, compareTermsOpt_swap hX, ?_⟩
  · intro a
    have hswap := compareTermsOpt_swap hX a a
    cases hcmp : compareTermsOpt X a a with
    | eq => rfl
    | lt => exact absurd (hcmp ▸ hswap) (by decide)
    | gt => exact absurd (hcmp ▸ hswap) (by decide)
  · intro a b c hscale
    constructor
    · intro hab hbc
      exact Ordering.isLE_iff_ne_gt.mp
        (compareTermsOpt_isLE_trans hX hscale (Ordering.isLE_iff_ne_gt.mpr hab) (Ordering.isLE_iff_ne_gt.mpr hbc))
    · intro hab hbc
      -- each is at most the other
      have hle : (compareTermsOpt X a c).isLE = true :=
        compareTermsOpt_isLE_trans hX hscale (by rw [hab]; rfl) (by rw [hbc]; rfl)
      have hge : (compareTermsOpt X c a).isLE = true := by
        refine compareTermsOpt_isLE_trans hX (fun x y z hxy hyz => ?_) (b := b) ?_ ?_
        · exact (hscale z y x hyz.symm hxy.symm).symm
        · rw [compareTermsOpt_swap hX b c, hbc]
          rfl
        · rw [compareTermsOpt_swap hX a b, hab]
          rfl
      rw [compareTermsOpt_swap hX a c] at hge
      cases hcmp : compareTermsOpt X a c with
      | eq => rfl
      | lt =>
        rw [hcmp] at hge
        exact absurd hge Bool.false_ne_true
      | gt =>
        rw [hcmp] at hle
        exact absurd hle Bool.false_ne_true

/-! ## Equality -/

section Equality

variable {x y z : Literal}

theorem parse_congr (hvalue : x.value = y.value) (hdt : x.datatype = y.datatype) :
    Numeric.parse X x = Numeric.parse X y := by
  rw [Numeric.parse, Numeric.parse, hvalue, hdt]

theorem literalEqual_numbers {m n : Numeric X} (hx : Numeric.parse X x = some m)
    (hy : Numeric.parse X y = some n) :
    literalEqual X x y = if x = y then some true else m.eqXsd n := by
  rw [literalEqual, hx, hy]

/-- Literals that are not both numbers are equal if they have the same datatype and lexical
form. -/
theorem literalEqual_texts (h : Numeric.parse X x = none ∨ Numeric.parse X y = none) :
    literalEqual X x y = if x.datatype = y.datatype then some (decide (x.value = y.value)) else none := by
  have hmatch : literalEqual X x y = if x = y then some true
      else if x.datatype ≠ y.datatype then none else some (decide (x.value = y.value)) := by
    rw [literalEqual]
    rcases h with h | h
    · rw [h]
    · rw [h]
      cases Numeric.parse X x <;> rfl
  rw [hmatch]
  by_cases heq : x = y
  · rw [if_pos heq, heq, if_pos rfl, decide_eq_true rfl]
  · rw [if_neg heq]
    by_cases hdt : x.datatype = y.datatype
    · rw [if_pos hdt, if_neg (not_not.mpr hdt)]
    · rw [if_neg hdt, if_pos hdt]

theorem literalEqual_self (x : Literal) : literalEqual X x x = some true := by
  rw [literalEqual, if_pos rfl]

theorem literalEqual_symm (hX : X.Lawful) (x y : Literal) : literalEqual X y x = literalEqual X x y := by
  by_cases htext : Numeric.parse X x = none ∨ Numeric.parse X y = none
  · rw [literalEqual_texts htext, literalEqual_texts htext.symm]
    simp only [eq_comm]
  · rw [not_or] at htext
    obtain ⟨m, hm⟩ := ne_none_iff_exists'.mp htext.1
    obtain ⟨n, hn⟩ := ne_none_iff_exists'.mp htext.2
    rw [literalEqual_numbers hm hn, literalEqual_numbers hn hm, Numeric.eqXsd, Numeric.eqXsd,
      Numeric.partialCmpXsd_swap hX m n, map_map]
    simp only [eq_comm]
    congr 2
    funext o
    cases o <;> rfl

theorem literalEqual_texts_true (h : Numeric.parse X x = none ∨ Numeric.parse X y = none)
    (heq : literalEqual X x y = some true) : x.value = y.value ∧ x.datatype = y.datatype := by
  rw [literalEqual_texts h] at heq
  split at heq
  · next hdt => exact ⟨of_decide_eq_true (Option.some.inj heq), hdt⟩
  · exact nomatch heq

variable (X) in
/-- Two exact numbers, and one between them that they are rounded for. -/
def Rounded (x y z : Literal) : Prop :=
  ∃ l m n, Numeric.parse X x = some l ∧ Numeric.parse X y = some m ∧ Numeric.parse X z = some n ∧
    l.isExact = true ∧ m.isExact = false ∧ n.isExact = true

/-- Equality is transitive but where the promotion of numbers rounds. -/
theorem literalEqual_trans (hX : X.Lawful) (hxy : literalEqual X x y = some true)
    (hyz : literalEqual X y z = some true) :
    literalEqual X x z = some true ∨ Rounded X x y z := by
  by_cases hx : Numeric.parse X x = none ∨ Numeric.parse X y = none
  · -- no numbers: the same datatype and the same lexical form
    obtain ⟨hvalue, hdt⟩ := literalEqual_texts_true hx hxy
    have hparse := parse_congr (X := X) hvalue hdt
    have hnone : Numeric.parse X y = none := hx.elim (fun h => hparse ▸ h) id
    obtain ⟨hvalue', hdt'⟩ := literalEqual_texts_true (.inl hnone) hyz
    left
    rw [literalEqual_texts (.inl (hparse.trans hnone)), if_pos (hdt.trans hdt'),
      decide_eq_true (hvalue.trans hvalue')]
  · rw [not_or] at hx
    obtain ⟨l, hl⟩ := ne_none_iff_exists'.mp hx.1
    obtain ⟨m, hm⟩ := ne_none_iff_exists'.mp hx.2
    cases hz : Numeric.parse X z with
    | none =>
      obtain ⟨hvalue, hdt⟩ := literalEqual_texts_true (.inr hz) hyz
      rw [parse_congr hvalue hdt, hz] at hm
      exact nomatch hm
    | some n =>
      by_cases heq : x = y
      · rw [heq]
        exact .inl hyz
      by_cases heq' : y = z
      · rw [← heq']
        exact .inl hxy
      by_cases hround : l.isExact = true ∧ m.isExact = false ∧ n.isExact = true
      · exact .inr ⟨l, m, n, hl, hm, hz, hround⟩
      left
      rw [literalEqual_numbers hl hm, if_neg heq] at hxy
      rw [literalEqual_numbers hm hz, if_neg heq'] at hyz
      rw [literalEqual_numbers hl hz]
      split
      · rfl
      have hboth : ∀ {a b : Numeric X}, a.eqXsd b = some true → a.partialCmpXsd b = some .eq := by
        intro a b hab
        obtain ⟨o, ho, htrue⟩ := map_eq_some_iff.mp hab
        rw [ho, beq_iff_eq.mp htrue]
      have hlm := hboth hxy
      have hmn := hboth hyz
      -- each of the outer numbers is at most the other
      obtain ⟨o, ho, hle⟩ := Numeric.partialCmpXsd_trans hX ⟨.eq, hlm, rfl⟩ ⟨.eq, hmn, rfl⟩ hround
      have hml : m.partialCmpXsd l = some .eq := by
        rw [Numeric.partialCmpXsd_swap hX l m, hlm]
        rfl
      have hnm : n.partialCmpXsd m = some .eq := by
        rw [Numeric.partialCmpXsd_swap hX m n, hmn]
        rfl
      obtain ⟨o', ho', hle'⟩ := Numeric.partialCmpXsd_trans hX ⟨.eq, hnm, rfl⟩ ⟨.eq, hml, rfl⟩
        fun hbad => hround ⟨hbad.2.2, hbad.2.1, hbad.1⟩
      rw [Numeric.partialCmpXsd_swap hX l n, ho, map_some, Option.some.injEq] at ho'
      rw [← ho'] at hle'
      rw [Numeric.eqXsd, ho, map_some]
      cases o with
      | eq => rfl
      | lt => exact absurd hle' (by decide)
      | gt => exact absurd hle (by decide)

/-- Booleans that are written differently. -/
def BooleanForms (x y : Literal) : Prop := x.datatype = xsdBoolean ∧ y.datatype = xsdBoolean ∧ x.value ≠ y.value

/-- Where literals are ordered, their equality is defined. It agrees with the order, but
perhaps for booleans that are written differently. -/
theorem literalEqual_of_compare (hX : X.Lawful) {o : Ordering} (h : compareLiterals X x y = some o) :
    ∃ e, literalEqual X x y = some e ∧ (e = true → o = .eq) ∧ (o = .eq → e = true ∨ BooleanForms x y) := by
  by_cases htext : Numeric.parse X x = none ∨ Numeric.parse X y = none
  · rw [compareLiterals_texts htext] at h
    rw [literalEqual_texts htext]
    split at h
    · next hdt =>
      rw [if_pos hdt]
      refine ⟨_, rfl, ?_, ?_⟩
      · intro hvalue
        have hsame : x.value = y.value := of_decide_eq_true hvalue
        rw [← Option.some.inj h, Literal.isTrue, Literal.isTrue, hsame]
        split <;> exact Std.ReflCmp.compare_self
      · intro heq
        by_cases hvalue : x.value = y.value
        · exact .inl (decide_eq_true hvalue)
        · rw [heq, Option.some.injEq] at h
          split at h
          · next hb => exact .inr ⟨hb, hdt ▸ hb, hvalue⟩
          · exact absurd (Std.LawfulEqOrd.eq_of_compare h) hvalue
    · exact nomatch h
  · rw [not_or] at htext
    obtain ⟨m, hm⟩ := ne_none_iff_exists'.mp htext.1
    obtain ⟨n, hn⟩ := ne_none_iff_exists'.mp htext.2
    rw [compareLiterals_numbers hm hn] at h
    rw [literalEqual_numbers hm hn]
    split
    · next heq =>
      rw [heq, hn, Option.some.injEq] at hm
      rw [← hm] at h
      exact ⟨true, rfl, fun _ => Numeric.partialCmpXsd_self hX h, fun _ => .inl rfl⟩
    · refine ⟨o == .eq, ?_, fun htrue => beq_iff_eq.mp htrue, fun heq => .inl (beq_iff_eq.mpr heq)⟩
      rw [Numeric.eqXsd, h]
      rfl

end Equality

theorem Term.Meets.trans {a b : Term} {x y y' z : Literal} (hab : a.Meets b x y) :
    ∀ {c}, b.Meets c y' z → y = y' ∧ a.Meets c x z := by
  induction hab with
  | literal x y =>
    intro c hbc
    cases hbc with
    | literal _ z => exact ⟨rfl, .literal x z⟩
  | triple s p _ ih =>
    intro c hbc
    cases hbc with
    | triple _ _ hbc => exact ⟨(ih hbc).1, .triple s p (ih hbc).2⟩

theorem subjectsEqual_some (s s' : Subject) : subjectsEqual s s' = some (decide (s = s')) := by
  cases s <;> cases s' <;> simp [subjectsEqual]

theorem rdfEqual_triple (s s' : Subject) (p p' : NamedNode) (o o' : Term) :
    rdfEqual X (.triple s p o) (.triple s' p' o') =
      if s = s' ∧ p = p' then rdfEqual X o o' else some false := by
  rw [rdfEqual, subjectsEqual_some]
  by_cases hs : s = s'
  · by_cases hp : p = p'
    · simp [hs, hp]
    · simp [hs, hp]
  · simp [hs]

/-- Equal terms are the same, or meet in two literals that are equal. -/
theorem rdfEqual_true_iff (a : Term) : ∀ b, rdfEqual X a b = some true ↔
    a = b ∨ ∃ x y, a.Meets b x y ∧ literalEqual X x y = some true := by
  induction a with
  -- quoted triples are compared by subject and predicate first, then by the objects
  | triple s p o ih =>
    intro b
    cases b with
    | triple s' p' o' =>
      rw [rdfEqual_triple]
      by_cases hhead : s = s' ∧ p = p'
      · obtain ⟨rfl, rfl⟩ := hhead
        rw [if_pos ⟨rfl, rfl⟩, ih]
        constructor
        · intro h
          rcases h with rfl | ⟨x, y, hmeet, heq⟩
          · exact .inl rfl
          · exact .inr ⟨x, y, .triple s p hmeet, heq⟩
        · intro h
          rcases h with heq | ⟨x, y, hmeet, heq⟩
          · exact .inl (Term.triple.inj heq).2.2
          · cases hmeet with
            | triple _ _ hmeet => exact .inr ⟨x, y, hmeet, heq⟩
      · rw [if_neg hhead]
        constructor
        · intro h
          exact absurd (Option.some.inj h) Bool.false_ne_true
        · intro h
          rcases h with heq | ⟨x, y, hmeet, -⟩
          · exact absurd ⟨(Term.triple.inj heq).1, (Term.triple.inj heq).2.1⟩ hhead
          · cases hmeet with
            | triple _ _ hmeet => exact absurd ⟨rfl, rfl⟩ hhead
    | _ =>
      simp only [rdfEqual, Option.some.injEq, Bool.false_eq_true, reduceCtorEq, false_or,
        false_iff, not_exists, not_and]
      intro x y hmeet
      cases hmeet
  | literal x =>
    intro b
    cases b with
    | literal y =>
      constructor
      · intro h
        exact .inr ⟨x, y, .literal x y, h⟩
      · intro h
        rcases h with heq | ⟨_, _, hmeet, heq⟩
        · rw [← heq]
          exact literalEqual_self x
        · cases hmeet with
          | literal _ _ => exact heq
    | _ =>
      simp only [rdfEqual, Option.some.injEq, Bool.false_eq_true, reduceCtorEq, false_or,
        false_iff, not_exists, not_and]
      intro x y hmeet
      cases hmeet
  | namedNode n =>
    intro b
    have hmeets : ∀ x y, ¬ (Term.namedNode n).Meets b x y := by
      intro x y hmeet
      cases hmeet
    cases b <;> simp [rdfEqual, hmeets]
  | blankNode n =>
    intro b
    have hmeets : ∀ x y, ¬ (Term.blankNode n).Meets b x y := by
      intro x y hmeet
      cases hmeet
    cases b <;> simp [rdfEqual, hmeets]

theorem rdfEqual_symm (hX : X.Lawful) (a : Term) : ∀ b, rdfEqual X b a = rdfEqual X a b := by
  induction a with
  | triple s p o ih =>
    intro b
    cases b with
    | triple s' p' o' =>
      rw [rdfEqual_triple, rdfEqual_triple, ih]
      simp only [eq_comm]
    | _ => rfl
  | literal x =>
    intro b
    cases b with
    | literal y => exact literalEqual_symm hX x y
    | _ => rfl
  | namedNode n =>
    intro b
    cases b <;> simp [rdfEqual, eq_comm]
  | blankNode n =>
    intro b
    cases b <;> simp [rdfEqual, eq_comm]

/-- Terms that compare are equal just when they compare as equal, two forms of one boolean apart. -/
theorem rdfEqual_of_compare (hX : X.Lawful) (a : Term) : ∀ {b : Term} {o : Ordering}, compareTerms X a b = some o →
    ∃ e, rdfEqual X a b = some e ∧ (e = true → o = .eq) ∧
      (o = .eq → e = true ∨ ∃ x y, a.Meets b x y ∧ BooleanForms x y) := by
  -- terms of different kinds are never equal
  have hkinds : ∀ {a b : Term} {o : Ordering}, a.rank ≠ b.rank → compareTerms X a b = some o →
      ∃ e, rdfEqual X a b = some e ∧ (e = true → o = .eq) ∧
        (o = .eq → e = true ∨ ∃ x y, a.Meets b x y ∧ BooleanForms x y) := by
    intro a b o hne hcmp
    have hnone : rdfEqual X a b = some false := by
      cases a <;> cases b <;> first | exact absurd rfl hne | rfl
    refine ⟨false, hnone, fun h => absurd h Bool.false_ne_true, ?_⟩
    intro heq
    rw [compareTerms_rank hne, heq, Option.some.injEq] at hcmp
    exact absurd (Nat.compare_eq_eq.mp hcmp) hne
  induction a with
  | triple s p o ih =>
    intro b r hcmp
    cases b with
    | triple s' p' o' =>
      rw [compareTerms_triple] at hcmp
      rw [rdfEqual_triple]
      by_cases hhead : s = s' ∧ p = p'
      · obtain ⟨rfl, rfl⟩ := hhead
        rw [compareHeads_eq_iff.mpr ⟨rfl, rfl⟩] at hcmp
        rw [if_pos ⟨rfl, rfl⟩]
        obtain ⟨e, he, hsound, hcomplete⟩ := ih hcmp
        refine ⟨e, he, hsound, fun heq => (hcomplete heq).imp_right ?_⟩
        intro h
        obtain ⟨x, y, hmeet, hforms⟩ := h
        exact ⟨x, y, .triple s p hmeet, hforms⟩
      · rw [if_neg hhead]
        refine ⟨false, rfl, fun h => absurd h Bool.false_ne_true, ?_⟩
        intro heq
        cases hheads : compareHeads (s, p) (s', p') with
        | eq => exact absurd (compareHeads_eq_iff.mp hheads) hhead
        | lt =>
          rw [hheads, heq] at hcmp
          exact nomatch hcmp
        | gt =>
          rw [hheads, heq] at hcmp
          exact nomatch hcmp
    | _ => exact hkinds (by simp [Term.rank]) hcmp
  | literal x =>
    intro b r hcmp
    cases b with
    | literal y =>
      obtain ⟨e, he, hsound, hcomplete⟩ := literalEqual_of_compare hX hcmp
      exact ⟨e, he, hsound, fun heq => (hcomplete heq).imp_right fun hforms => ⟨x, y, .literal x y, hforms⟩⟩
    | _ => exact hkinds (by simp [Term.rank]) hcmp
  | namedNode n =>
    intro b r hcmp
    cases b with
    | namedNode n' =>
      refine ⟨decide (n = n'), rfl, ?_, ?_⟩
      · intro heq
        rw [← Option.some.inj hcmp, of_decide_eq_true heq]
        exact Std.ReflCmp.compare_self
      · intro heq
        rw [heq] at hcmp
        exact .inl (decide_eq_true (NamedNode.iri_inj.mp (Std.LawfulEqOrd.eq_of_compare (Option.some.inj hcmp))))
    | _ => exact hkinds (by simp [Term.rank]) hcmp
  | blankNode n =>
    intro b r hcmp
    cases b with
    | blankNode n' =>
      refine ⟨decide (n = n'), rfl, ?_, ?_⟩
      · intro heq
        rw [← Option.some.inj hcmp, of_decide_eq_true heq]
        exact Std.ReflCmp.compare_self
      · intro heq
        rw [heq] at hcmp
        exact .inl (decide_eq_true (BlankNode.id_inj.mp (Std.LawfulEqOrd.eq_of_compare (Option.some.inj hcmp))))
    | _ => exact hkinds (by simp [Term.rank]) hcmp

theorem rdfEqual_trans (hX : X.Lawful) {a b c : Term} (hab : rdfEqual X a b = some true)
    (hbc : rdfEqual X b c = some true) :
    rdfEqual X a c = some true ∨ ∃ x y z, a.Meets b x y ∧ b.Meets c y z ∧ Rounded X x y z := by
  rcases (rdfEqual_true_iff a b).mp hab with rfl | ⟨x, y, hmeet, heq⟩
  · exact .inl hbc
  rcases (rdfEqual_true_iff b c).mp hbc with rfl | ⟨y', z, hmeet', heq'⟩
  · exact .inl hab
  obtain ⟨rfl, hac⟩ := hmeet.trans hmeet'
  rcases literalEqual_trans hX heq heq' with hxz | hround
  · exact .inl ((rdfEqual_true_iff a c).mpr (.inr ⟨x, z, hac, hxz⟩))
  · exact .inr ⟨x, y, z, hmeet, hmeet', hround⟩

/-- The operators `=` and `<` together: what is ordered is equal or not, in agreement with
the order, except perhaps for booleans that are written differently; equality is reflexive
and symmetric, and transitive unless two exact numbers are equal to one that they are
rounded for; and equal literals that are not numbers have the same datatype and lexical
form. -/
theorem rdfEqual_coherent (hX : X.Lawful) :
    (∀ a b o, compareTerms X a b = some o → ∃ e, rdfEqual X a b = some e ∧ (e = true → o = .eq) ∧
      (o = .eq → e = true ∨ ∃ x y, a.Meets b x y ∧ BooleanForms x y)) ∧
    (∀ a, rdfEqual X a a = some true) ∧
    (∀ a b, rdfEqual X b a = rdfEqual X a b) ∧
    (∀ a b c, rdfEqual X a b = some true → rdfEqual X b c = some true →
      rdfEqual X a c = some true ∨ ∃ x y z, a.Meets b x y ∧ b.Meets c y z ∧ Rounded X x y z) ∧
    ∀ x y, (Numeric.parse X x = none ∨ Numeric.parse X y = none) →
      rdfEqual X (.literal x) (.literal y) = some true → x.value = y.value ∧ x.datatype = y.datatype := by
  refine ⟨fun a b o => rdfEqual_of_compare hX a, ?_, rdfEqual_symm hX, fun a b c => rdfEqual_trans hX, ?_⟩
  · intro a
    exact (rdfEqual_true_iff a a).mpr (.inl rfl)
  · exact fun x y => literalEqual_texts_true


/-! ## Whole numbers -/

/-- The digits of a number. -/
def readDigits : List Char → Nat → Option Nat
  | [], n => some n
  | c :: cs, n => if c.isDigit then readDigits cs (10 * n + (c.toNat - '0'.toNat)) else none

def readWhole (bound : Nat) (s : String) : Option Nat :=
  if s = "" then none else (readDigits s.toList 0).filter fun n => n < bound

/-- The nearest double, for numbers below `2 ^ 54`: from `2 ^ 53` on, the doubles are the
even numbers, and a number between two of them goes to the one with the even half. -/
def nearestDouble (n : Nat) : Nat :=
  if n ≤ 2 ^ 53 then n else if n % 4 = 1 then n - 1 else if n % 4 = 3 then n + 1 else n

theorem nearestDouble_mono {a b : Nat} (h : a ≤ b) : nearestDouble a ≤ nearestDouble b := by
  unfold nearestDouble
  split_ifs <;> omega

/-- The numeric types for whole numbers that are written in digits. -/
def wholeNumbers : XsdTypes where
  XsdInt := Nat
  XsdDec := Nat
  XsdFloat := Nat
  XsdDbl := Nat
  intFromStr := readWhole (2 ^ 54)
  decFromStr := readWhole (2 ^ 54)
  floatFromStr := readWhole (2 ^ 24)
  dblFromStr s := (readWhole (2 ^ 54) s).map nearestDouble
  cmpInt := compare
  cmpDec := compare
  cmpFloat a b := some (compare a b)
  cmpDbl a b := some (compare a b)
  decFromInt := id
  dblFromInt := nearestDouble
  dblFromFloat := id
  f64FromDec d := some (nearestDouble d)

theorem wholeNumbers_lawful : wholeNumbers.Lawful where
  dec := inferInstanceAs (Std.TransOrd Nat)
  decFromInt := fun _ _ => rfl
  dbl_swap := fun (_ _ : Nat) => congrArg some Std.OrientedCmp.eq_swap
  dbl_trans := by
    intro a b c hab hbc
    obtain ⟨r, hr, hle⟩ := hab
    obtain ⟨r', hr', hle'⟩ := hbc
    rw [← Option.some.inj hr] at hle
    rw [← Option.some.inj hr'] at hle'
    exact ⟨_, rfl, Std.TransOrd.isLE_trans (α := Nat) hle hle'⟩
  dbl_total := fun _ _ _ _ => some_ne_none _
  dblFromFloat := fun _ _ => rfl
  f64FromDec := fun _ => some_ne_none _
  f64FromDec_mono := by
    intro a b x y hle hx hy
    rw [← Option.some.inj hx, ← Option.some.inj hy]
    exact ⟨_, rfl, Nat.isLE_compare.mpr (nearestDouble_mono (Nat.isLE_compare.mp hle))⟩
  dblFromInt := by
    intro a x hx
    rw [← Option.some.inj hx]
    exact congrArg some (Std.ReflOrd.compare_self (α := Nat))

def typedTerm (value localName : String) : Term := .literal (.newTypedLiteral value (xsd localName))

/-- An integer, a decimal and a double are on one scale. -/
theorem compareTermsOpt_preorder_numbers :
    (compareTermsOpt wholeNumbers (some (typedTerm "5" "integer")) (some (typedTerm "7" "decimal")) ≠ .gt →
      compareTermsOpt wholeNumbers (some (typedTerm "7" "decimal")) (some (typedTerm "9" "double")) ≠ .gt →
        compareTermsOpt wholeNumbers (some (typedTerm "5" "integer")) (some (typedTerm "9" "double")) ≠ .gt) ∧
    (compareTermsOpt wholeNumbers (some (typedTerm "5" "integer")) (some (typedTerm "7" "decimal")) = .eq →
      compareTermsOpt wholeNumbers (some (typedTerm "7" "decimal")) (some (typedTerm "9" "double")) = .eq →
        compareTermsOpt wholeNumbers (some (typedTerm "5" "integer")) (some (typedTerm "9" "double")) = .eq) := by
  refine (compareTermsOpt_preorder wholeNumbers_lawful).2.2 _ _ _ ?_
  intro x y z hxy hyz
  obtain ⟨_, _, ha, hb, hmeet⟩ := hxy
  obtain ⟨_, _, hb', hc, hmeet'⟩ := hyz
  rw [← Option.some.inj ha, ← Option.some.inj hb] at hmeet
  rw [← Option.some.inj hb', ← Option.some.inj hc] at hmeet'
  cases hmeet
  cases hmeet'
  exact .numbers (.integer (5 : Nat)) (.decimal (7 : Nat))
    (.double (9 : Nat)) rfl rfl rfl (some_ne_none _) (some_ne_none _)
    (some_ne_none _) (by decide)

/-- Two integers that are rounded to one double: each is equal to it, and the first is above
the second. -/
theorem compareTermsOpt_not_transitive :
    ¬ ∀ a b c, compareTermsOpt wholeNumbers a b ≠ .gt → compareTermsOpt wholeNumbers b c ≠ .gt →
      compareTermsOpt wholeNumbers a c ≠ .gt := by
  intro h
  exact h (some (typedTerm "9007199254740993" "integer")) (some (typedTerm "9007199254740992" "double"))
    (some (typedTerm "9007199254740992" "integer")) (by decide +kernel) (by decide +kernel) (by decide +kernel)

/-- An integer and a double that are equal. -/
theorem rdfEqual_coherent_numbers :
    ∃ e, rdfEqual wholeNumbers (typedTerm "5" "integer") (typedTerm "5" "double") = some e ∧
      (e = true → Ordering.eq = .eq) ∧
      (Ordering.eq = .eq → e = true ∨
        ∃ x y, (typedTerm "5" "integer").Meets (typedTerm "5" "double") x y ∧ BooleanForms x y) :=
  (rdfEqual_coherent wholeNumbers_lawful).1 _ _ .eq (by decide +kernel)

/-- Two integers that are both equal to the double that they are rounded to. -/
theorem rdfEqual_not_transitive :
    rdfEqual wholeNumbers (typedTerm "9007199254740993" "integer") (typedTerm "9007199254740992" "double") = some true ∧
      rdfEqual wholeNumbers (typedTerm "9007199254740992" "double") (typedTerm "9007199254740992" "integer") = some true ∧
      rdfEqual wholeNumbers (typedTerm "9007199254740993" "integer") (typedTerm "9007199254740992" "integer") =
        some false := by
  refine ⟨?_, ?_, ?_⟩ <;> decide +kernel

end Nova
