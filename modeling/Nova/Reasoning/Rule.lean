import Nova.Reasoning.Join
import Nova.Lib.SemiNaive

/-!
# Rules

A rule is a head and a body over the variables `0 .. numVars`. `RuleSet` indexes
the rules by the constant predicates of their bodies; `activeRules` lists those
that a fact of the last round may touch, by predicate, and every rule with a
variable in a predicate position (`mem_activeRules`).

`Instance rules body a` says that a rule gives `a` from the rows of `body` under
some assignment of its variables.
-/

namespace Nova.Reasoning

open Nova.Lib List

/-- The variable is below the bound. -/
def AtomField.below (n : Nat) : AtomField → Bool
  | .const _ => true
  | .var v => v < n

def RuleAtom.below (n : Nat) (a : RuleAtom) : Bool := a.s.below n && a.p.below n && a.o.below n

/-- `Rule`: `head :- body[0], …, body[n-1]`; `numVars` bounds the variables. -/
structure Rule where
  name : String
  body : List RuleAtom
  head : RuleAtom
  numVars : Nat
  bounded : ((head :: body).all fun a => a.below numVars) = true := by rfl

namespace Rule

/-! ## The rule table -/

def transitive (predicate : Nat) : Rule where
  name := "transitive"
  body := [⟨.var 0, .const predicate, .var 1⟩, ⟨.var 1, .const predicate, .var 2⟩]
  head := ⟨.var 0, .const predicate, .var 2⟩
  numVars := 3

def typePropagation (rdfType subClassOf : Nat) : Rule where
  name := "type_propagation"
  body := [⟨.var 0, .const rdfType, .var 1⟩, ⟨.var 1, .const subClassOf, .var 2⟩]
  head := ⟨.var 0, .const rdfType, .var 2⟩
  numVars := 3

def subpropertyPropagation (subPropertyOf : Nat) : Rule where
  name := "subproperty_propagation"
  body := [⟨.var 0, .const subPropertyOf, .var 1⟩, ⟨.var 2, .var 0, .var 3⟩]
  head := ⟨.var 2, .var 1, .var 3⟩
  numVars := 4

def domain (rdfsDomain rdfType : Nat) : Rule where
  name := "domain"
  body := [⟨.var 0, .const rdfsDomain, .var 1⟩, ⟨.var 2, .var 0, .var 3⟩]
  head := ⟨.var 2, .const rdfType, .var 1⟩
  numVars := 4

def range (rdfsRange rdfType : Nat) : Rule where
  name := "range"
  body := [⟨.var 0, .const rdfsRange, .var 1⟩, ⟨.var 2, .var 0, .var 3⟩]
  head := ⟨.var 3, .const rdfType, .var 1⟩
  numVars := 4

def transitiveProperty (rdfType owlTransitiveProperty : Nat) : Rule where
  name := "transitive_property"
  body := [⟨.var 0, .const rdfType, .const owlTransitiveProperty⟩, ⟨.var 1, .var 0, .var 2⟩,
    ⟨.var 2, .var 0, .var 3⟩]
  head := ⟨.var 1, .var 0, .var 3⟩
  numVars := 4

def symmetricProperty (rdfType owlSymmetricProperty : Nat) : Rule where
  name := "symmetric_property"
  body := [⟨.var 0, .const rdfType, .const owlSymmetricProperty⟩, ⟨.var 1, .var 0, .var 2⟩]
  head := ⟨.var 2, .var 0, .var 1⟩
  numVars := 3

def equivalentClassForward (owlEquivalentClass rdfsSubClassOf : Nat) : Rule where
  name := "equivalent_class_forward"
  body := [⟨.var 0, .const owlEquivalentClass, .var 1⟩]
  head := ⟨.var 0, .const rdfsSubClassOf, .var 1⟩
  numVars := 2

def equivalentClassBackward (owlEquivalentClass rdfsSubClassOf : Nat) : Rule where
  name := "equivalent_class_backward"
  body := [⟨.var 0, .const owlEquivalentClass, .var 1⟩]
  head := ⟨.var 1, .const rdfsSubClassOf, .var 0⟩
  numVars := 2

def equivalentPropertyForward (owlEquivalentProperty rdfsSubPropertyOf : Nat) : Rule where
  name := "equivalent_property_forward"
  body := [⟨.var 0, .const owlEquivalentProperty, .var 1⟩]
  head := ⟨.var 0, .const rdfsSubPropertyOf, .var 1⟩
  numVars := 2

def equivalentPropertyBackward (owlEquivalentProperty rdfsSubPropertyOf : Nat) : Rule where
  name := "equivalent_property_backward"
  body := [⟨.var 0, .const owlEquivalentProperty, .var 1⟩]
  head := ⟨.var 1, .const rdfsSubPropertyOf, .var 0⟩
  numVars := 2

def inverseForward (owlInverseOf : Nat) : Rule where
  name := "inverse_forward"
  body := [⟨.var 0, .const owlInverseOf, .var 1⟩, ⟨.var 2, .var 0, .var 3⟩]
  head := ⟨.var 3, .var 1, .var 2⟩
  numVars := 4

def inverseBackward (owlInverseOf : Nat) : Rule where
  name := "inverse_backward"
  body := [⟨.var 0, .const owlInverseOf, .var 1⟩, ⟨.var 2, .var 1, .var 3⟩]
  head := ⟨.var 3, .var 0, .var 2⟩
  numVars := 4

/-- `body_predicates`. -/
def bodyPredicates (r : Rule) : List Nat :=
  r.body.filterMap fun a =>
    match a.p with
    | .const id => some id
    | .var _ => none

/-- `has_variable_predicate`. -/
def hasVariablePredicate (r : Rule) : Bool :=
  r.body.any fun a =>
    match a.p with
    | .const _ => false
    | .var _ => true

end Rule

/-! ## Rule sets -/

/-- `RuleSet`: the rules, and where to find those of a predicate. -/
structure RuleSet where
  rules : List Rule
  byPredicate : Nat → List Nat
  wildcardRules : List Nat

/-- `RuleSet::new`. -/
def RuleSet.new (rules : List Rule) : RuleSet where
  rules := rules
  byPredicate pred := (rules.zipIdx.filter fun r => pred ∈ r.1.bodyPredicates).map Prod.snd
  wildcardRules := (rules.zipIdx.filter fun r => r.1.hasVariablePredicate).map Prod.snd

/-- `active_rules`. -/
def RuleSet.activeRules (rs : RuleSet) (delta : List Row) : List Nat :=
  Sorted.ofList (rs.wildcardRules ++ delta.flatMap fun row => rs.byPredicate row.p)

/-- The fact may match an atom of the body, by its predicate. -/
def Rule.Activates (r : Rule) (row : Row) : Prop :=
  r.hasVariablePredicate = true ∨ row.p ∈ r.bodyPredicates

theorem mem_activeRules {rules : List Rule} {delta : List Row} {idx : Nat} :
    idx ∈ (RuleSet.new rules).activeRules delta ↔ ∃ r, rules[idx]? = some r ∧
      (r.hasVariablePredicate = true ∨ ∃ row ∈ delta, row.p ∈ r.bodyPredicates) := by
  simp only [RuleSet.activeRules, RuleSet.new, Sorted.mem_ofList, mem_append,
    mem_map, mem_filter, mem_flatMap, Prod.exists, mem_zipIdx_iff_getElem?,
    decide_eq_true_eq]
  constructor
  · rintro (⟨r, i, ⟨hr, hw⟩, rfl⟩ | ⟨row, hrow, r, i, ⟨hr, hp⟩, rfl⟩)
    · exact ⟨r, hr, .inl hw⟩
    · exact ⟨r, hr, .inr ⟨row, hrow, hp⟩⟩
  · rintro ⟨r, hr, hw | ⟨row, hrow, hp⟩⟩
    · exact .inl ⟨r, idx, ⟨hr, hw⟩, rfl⟩
    · exact .inr ⟨row, hrow, r, idx, ⟨hr, hp⟩, rfl⟩

/-- In a round that has facts, the active rules are those that one of them
activates. -/
theorem mem_activeRules_of_nonempty {rules : List Rule} {delta : List Row} (hne : delta ≠ [])
    {idx : Nat} : idx ∈ (RuleSet.new rules).activeRules delta ↔
      ∃ r, rules[idx]? = some r ∧ ∃ row ∈ delta, r.Activates row := by
  rw [mem_activeRules]
  refine exists_congr fun r => and_congr_right fun _ => ?_
  constructor
  · rintro (hw | ⟨row, hrow, hp⟩)
    · rcases exists_mem_of_ne_nil delta hne with ⟨row, hrow⟩
      exact ⟨row, hrow, .inl hw⟩
    · exact ⟨row, hrow, .inr hp⟩
  · rintro ⟨row, hrow, hw | hp⟩
    · exact .inl hw
    · exact .inr ⟨row, hrow, hp⟩

variable {a : RuleAtom} {b : Nat → Nat}

theorem Rule.activates_of_fits {r : Rule} (ha : a ∈ r.body) {v : Nat}
    {row : Row} (h : a.Fits b v row) : r.Activates row := by
  cases hp : a.p with
  | const id =>
    right
    have hid : row.p = id := (h 1).1 id hp
    rw [hid]
    exact mem_filterMap.mpr ⟨a, ha, by rw [hp]⟩
  | var u =>
    left
    exact any_eq_true.mpr ⟨a, ha, by rw [hp]⟩

/-! ## Instances -/

def AtomField.value (b : Nat → Nat) : AtomField → Nat
  | .const id => id
  | .var v => b v

/-- The row of an atom under an assignment. -/
def RuleAtom.ground (b : Nat → Nat) (a : RuleAtom) : Row := ⟨a.s.value b, a.p.value b, a.o.value b⟩

theorem RuleAtom.get_ground (b : Nat → Nat) (a : RuleAtom) (i : Fin 3) :
    (a.ground b).get i = (a.get i).value b := by
  fin_cases i <;> rfl

/-- A rule gives the row from the rows of its body. -/
def Instance (rules : List Rule) (body : List Row) (a : Row) : Prop :=
  ∃ r ∈ rules, ∃ b, body = r.body.map (RuleAtom.ground b) ∧ a = r.head.ground b

/-- What the rules must keep to: the head has only variables of the body, and
every atom of the body has a variable and none twice. -/
structure Rule.Safe (r : Rule) : Prop where
  head : ∀ u, r.head.Mentions u → ∃ a ∈ r.body, a.Mentions u
  mentions : ∀ a ∈ r.body, ∃ u, a.Mentions u
  linear : ∀ a ∈ r.body, a.Linear

/-- The variable of a field. -/
def AtomField.toVar : AtomField → Option Nat
  | .const _ => none
  | .var v => some v

theorem AtomField.toVar_eq_some {f : AtomField} {u : Nat} : f.toVar = some u ↔ f = .var u := by
  cases f with
  | const id => simp [AtomField.toVar]
  | var v => simp [AtomField.toVar]

def RuleAtom.vars (a : RuleAtom) : List Nat :=
  a.s.toVar.toList ++ (a.p.toVar.toList ++ a.o.toVar.toList)

theorem RuleAtom.mem_vars {u : Nat} : u ∈ a.vars ↔ a.Mentions u := by
  rw [← RuleAtom.isActiveForVar_iff]
  simp [RuleAtom.vars, RuleAtom.isActiveForVar, AtomField.toVar_eq_some, or_assoc]

theorem RuleAtom.linear_of_nodup (h : a.vars.Nodup) : a.Linear := by
  rw [RuleAtom.vars, nodup_append, nodup_append] at h
  rcases h with ⟨_, ⟨_, _, hpo⟩, hs⟩
  have hmem : ∀ {f : AtomField} {u}, f = .var u → u ∈ f.toVar.toList := by
    rintro f u rfl
    exact mem_singleton_self u
  have hsp : ∀ u, a.s = .var u → a.p ≠ .var u := fun u h h' =>
    hs u (hmem h) u (mem_append_left _ (hmem h')) rfl
  have hso : ∀ u, a.s = .var u → a.o ≠ .var u := fun u h h' =>
    hs u (hmem h) u (mem_append_right _ (hmem h')) rfl
  have hpo' : ∀ u, a.p = .var u → a.o ≠ .var u := fun u h h' => hpo u (hmem h) u (hmem h') rfl
  intro i j u hi hj
  fin_cases i <;> fin_cases j
  · rfl
  · exact absurd hj (hsp u hi)
  · exact absurd hj (hso u hi)
  · exact absurd hi (hsp u hj)
  · rfl
  · exact absurd hj (hpo' u hi)
  · exact absurd hi (hso u hj)
  · exact absurd hi (hpo' u hj)
  · rfl

/-- A rule that is safe and uses all its variables. -/
def Rule.tidy (r : Rule) : Bool :=
  (r.head.vars.all fun u => r.body.any fun a => u ∈ a.vars) &&
    (r.body.all fun a => !a.vars.isEmpty && a.vars.Nodup) &&
      (List.range r.numVars).all fun w => r.body.any fun a => w ∈ a.vars

/-- Some atom of the body mentions the variable. -/
def Rule.Uses (r : Rule) (u : Nat) : Prop := ∃ a ∈ r.body, a.Mentions u

theorem Rule.uses_iff {r : Rule} {u : Nat} : (r.body.any fun a => u ∈ a.vars) = true ↔ r.Uses u := by
  simp only [any_eq_true, decide_eq_true_eq, RuleAtom.mem_vars, Rule.Uses]

theorem Rule.safe_of_tidy {r : Rule} (h : r.tidy = true) : r.Safe ∧ ∀ w < r.numVars, r.Uses w := by
  simp only [Rule.tidy, Bool.and_eq_true, all_eq_true, Rule.uses_iff, mem_range,
    Bool.not_eq_true', isEmpty_eq_false_iff, decide_eq_true_eq] at h
  rcases h with ⟨⟨hhead, hbody⟩, huses⟩
  refine ⟨⟨fun u hu => hhead u (RuleAtom.mem_vars.mpr hu), ?_, ?_⟩, huses⟩
  · intro a ha
    rcases exists_mem_of_ne_nil _ (hbody a ha).1 with ⟨u, hu⟩
    exact ⟨u, RuleAtom.mem_vars.mp hu⟩
  · exact fun a ha => RuleAtom.linear_of_nodup (hbody a ha).2

theorem Rule.lt_numVars {r : Rule} (ha : a ∈ r.head :: r.body) {u : Nat}
    (hu : a.Mentions u) : u < r.numVars := by
  have hall := all_eq_true.mp r.bounded a ha
  simp only [RuleAtom.below, Bool.and_eq_true] at hall
  have hfield : ∀ f : AtomField, f = .var u → f.below r.numVars = true → u < r.numVars := by
    rintro f rfl hf
    simpa [AtomField.below] using hf
  rcases hu with ⟨i, hi⟩
  fin_cases i
  · exact hfield _ hi hall.1.1
  · exact hfield _ hi hall.1.2
  · exact hfield _ hi hall.2

theorem RuleAtom.fits_iff {v : Nat} {row : Row} (h : ∀ u, a.Mentions u → u < v) :
    a.Fits b v row ↔ row = a.ground b := by
  constructor
  · intro hfit
    apply Row.ext_get
    intro i
    rw [RuleAtom.get_ground]
    cases hi : a.get i with
    | const c => exact (hfit i).1 c hi
    | var u => exact (hfit i).2 u hi (h u ⟨i, hi⟩)
  · rintro rfl i
    rw [RuleAtom.get_ground]
    constructor
    · intro c hc
      rw [hc]
      rfl
    · intro u hu _
      rw [hu]
      rfl

theorem RuleAtom.ground_congr {b' : Nat → Nat} (h : ∀ u, a.Mentions u → b u = b' u) :
    a.ground b = a.ground b' := by
  apply Row.ext_get
  intro i
  rw [RuleAtom.get_ground, RuleAtom.get_ground]
  cases hi : a.get i with
  | const c => rfl
  | var u => exact h u ⟨i, hi⟩

theorem Rule.fits_iff {r : Rule} (ha : a ∈ r.head :: r.body)
    {row : Row} : a.Fits b r.numVars row ↔ row = a.ground b :=
  a.fits_iff fun _ hu => r.lt_numVars ha hu

end Nova.Reasoning
