import Nova.Reasoning.Engine

/-!
# What the rules mean

`Entails` says in terms what one application of a rule of the engine gives, from
which triples. The engine works on ids: `entails_of_instance` and
`instance_of_entails` say that its rules are these, whatever the ids of the
vocabulary are.
-/

namespace Nova.Reasoning

open Nova List

/-- A triple of terms; the rules may put any term anywhere. -/
structure Triple where
  subject : Term
  predicate : Term
  object : Term
deriving DecidableEq, Repr

def Vocab.term (v : Vocab) : Term := .namedNode v.node

/-- One application of a rule: the premises and the conclusion. -/
inductive Entails : List Triple → Triple → Prop
  | subClassOf_trans (a b c : Term) :
    Entails [⟨a, Vocab.rdfsSubClassOf.term, b⟩, ⟨b, Vocab.rdfsSubClassOf.term, c⟩]
      ⟨a, Vocab.rdfsSubClassOf.term, c⟩
  | subPropertyOf_trans (a b c : Term) :
    Entails [⟨a, Vocab.rdfsSubPropertyOf.term, b⟩, ⟨b, Vocab.rdfsSubPropertyOf.term, c⟩]
      ⟨a, Vocab.rdfsSubPropertyOf.term, c⟩
  | type_subClassOf (x c d : Term) :
    Entails [⟨x, Vocab.rdfType.term, c⟩, ⟨c, Vocab.rdfsSubClassOf.term, d⟩] ⟨x, Vocab.rdfType.term, d⟩
  | subPropertyOf (p q x y : Term) :
    Entails [⟨p, Vocab.rdfsSubPropertyOf.term, q⟩, ⟨x, p, y⟩] ⟨x, q, y⟩
  | domain (p c x y : Term) :
    Entails [⟨p, Vocab.rdfsDomain.term, c⟩, ⟨x, p, y⟩] ⟨x, Vocab.rdfType.term, c⟩
  | range (p c x y : Term) :
    Entails [⟨p, Vocab.rdfsRange.term, c⟩, ⟨x, p, y⟩] ⟨y, Vocab.rdfType.term, c⟩
  | transitive (p x y z : Term) :
    Entails [⟨p, Vocab.rdfType.term, Vocab.owlTransitiveProperty.term⟩, ⟨x, p, y⟩, ⟨y, p, z⟩] ⟨x, p, z⟩
  | symmetric (p x y : Term) :
    Entails [⟨p, Vocab.rdfType.term, Vocab.owlSymmetricProperty.term⟩, ⟨x, p, y⟩] ⟨y, p, x⟩
  | equivalentClass_forward (c d : Term) :
    Entails [⟨c, Vocab.owlEquivalentClass.term, d⟩] ⟨c, Vocab.rdfsSubClassOf.term, d⟩
  | equivalentClass_backward (c d : Term) :
    Entails [⟨c, Vocab.owlEquivalentClass.term, d⟩] ⟨d, Vocab.rdfsSubClassOf.term, c⟩
  | equivalentProperty_forward (p q : Term) :
    Entails [⟨p, Vocab.owlEquivalentProperty.term, q⟩] ⟨p, Vocab.rdfsSubPropertyOf.term, q⟩
  | equivalentProperty_backward (p q : Term) :
    Entails [⟨p, Vocab.owlEquivalentProperty.term, q⟩] ⟨q, Vocab.rdfsSubPropertyOf.term, p⟩
  | inverse_forward (p q x y : Term) :
    Entails [⟨p, Vocab.owlInverseOf.term, q⟩, ⟨x, p, y⟩] ⟨y, q, x⟩
  | inverse_backward (p q x y : Term) :
    Entails [⟨p, Vocab.owlInverseOf.term, q⟩, ⟨x, q, y⟩] ⟨y, p, x⟩

/-- The triple of a row, and the row of a triple. -/
def Row.decode (dec : Nat → Term) (row : Row) : Triple := ⟨dec row.s, dec row.p, dec row.o⟩

def Triple.encode (enc : Term → Nat) (t : Triple) : Row := ⟨enc t.subject, enc t.predicate, enc t.object⟩

variable {k : Vocab → Nat} {body : List Row} {a : Row}

theorem entails_of_instance {dec : Nat → Term} (hk : ∀ v, dec (k v) = v.term)
    (h : Instance (engineRules k) body a) : Entails (body.map (Row.decode dec)) (a.decode dec) := by
  rcases h with ⟨r, hr, b, rfl, rfl⟩
  simp only [engineRules, mem_cons, not_mem_nil, or_false] at hr
  rcases hr with rfl | rfl | rfl | rfl | rfl | rfl | rfl | rfl | rfl | rfl | rfl | rfl | rfl | rfl
  all_goals
    simp only [Rule.transitive, Rule.typePropagation, Rule.subpropertyPropagation, Rule.domain, Rule.range,
      Rule.transitiveProperty, Rule.symmetricProperty, Rule.equivalentClassForward,
      Rule.equivalentClassBackward, Rule.equivalentPropertyForward, Rule.equivalentPropertyBackward,
      Rule.inverseForward, Rule.inverseBackward, map_cons, map_nil, RuleAtom.ground,
      AtomField.value, Row.decode, hk]
  · exact .subClassOf_trans _ _ _
  · exact .subPropertyOf_trans _ _ _
  · exact .type_subClassOf _ _ _
  · exact .subPropertyOf _ _ _ _
  · exact .domain _ _ _ _
  · exact .range _ _ _ _
  · exact .transitive _ _ _ _
  · exact .symmetric _ _ _
  · exact .equivalentClass_forward _ _
  · exact .equivalentClass_backward _ _
  · exact .equivalentProperty_forward _ _
  · exact .equivalentProperty_backward _ _
  · exact .inverse_forward _ _ _ _
  · exact .inverse_backward _ _ _ _

/-- The value of the first four variables. -/
def assignment (x₀ x₁ x₂ x₃ : Nat) : Nat → Nat
  | 0 => x₀
  | 1 => x₁
  | 2 => x₂
  | _ => x₃

/-- One rule of the engine for each rule of entailment. -/
theorem instance_of_entails {enc : Term → Nat} (hk : ∀ v : Vocab, enc v.term = k v)
    {body : List Triple} {a : Triple} (h : Entails body a) :
    Instance (engineRules k) (body.map (Triple.encode enc)) (a.encode enc) := by
  have hrule : ∀ i r, (engineRules k)[i]? = some r → r ∈ engineRules k := fun _ _ => mem_of_getElem?
  cases h with
  | subClassOf_trans a b c =>
    exact ⟨_, hrule 0 _ rfl, assignment (enc a) (enc b) (enc c) 0,
      by simp [Triple.encode, hk]; rfl, by simp [Triple.encode, hk]; rfl⟩
  | subPropertyOf_trans a b c =>
    exact ⟨_, hrule 1 _ rfl, assignment (enc a) (enc b) (enc c) 0,
      by simp [Triple.encode, hk]; rfl, by simp [Triple.encode, hk]; rfl⟩
  | type_subClassOf x c d =>
    exact ⟨_, hrule 2 _ rfl, assignment (enc x) (enc c) (enc d) 0,
      by simp [Triple.encode, hk]; rfl, by simp [Triple.encode, hk]; rfl⟩
  | subPropertyOf p q x y =>
    exact ⟨_, hrule 3 _ rfl, assignment (enc p) (enc q) (enc x) (enc y),
      by simp [Triple.encode, hk]; rfl, rfl⟩
  | domain p c x y =>
    exact ⟨_, hrule 4 _ rfl, assignment (enc p) (enc c) (enc x) (enc y),
      by simp [Triple.encode, hk]; rfl, by simp [Triple.encode, hk]; rfl⟩
  | range p c x y =>
    exact ⟨_, hrule 5 _ rfl, assignment (enc p) (enc c) (enc x) (enc y),
      by simp [Triple.encode, hk]; rfl, by simp [Triple.encode, hk]; rfl⟩
  | transitive p x y z =>
    exact ⟨_, hrule 6 _ rfl, assignment (enc p) (enc x) (enc y) (enc z),
      by simp [Triple.encode, hk]; rfl, rfl⟩
  | symmetric p x y =>
    exact ⟨_, hrule 7 _ rfl, assignment (enc p) (enc x) (enc y) 0,
      by simp [Triple.encode, hk]; rfl, rfl⟩
  | equivalentClass_forward c d =>
    exact ⟨_, hrule 8 _ rfl, assignment (enc c) (enc d) 0 0,
      by simp [Triple.encode, hk]; rfl, by simp [Triple.encode, hk]; rfl⟩
  | equivalentClass_backward c d =>
    exact ⟨_, hrule 9 _ rfl, assignment (enc c) (enc d) 0 0,
      by simp [Triple.encode, hk]; rfl, by simp [Triple.encode, hk]; rfl⟩
  | equivalentProperty_forward p q =>
    exact ⟨_, hrule 10 _ rfl, assignment (enc p) (enc q) 0 0,
      by simp [Triple.encode, hk]; rfl, by simp [Triple.encode, hk]; rfl⟩
  | equivalentProperty_backward p q =>
    exact ⟨_, hrule 11 _ rfl, assignment (enc p) (enc q) 0 0,
      by simp [Triple.encode, hk]; rfl, by simp [Triple.encode, hk]; rfl⟩
  | inverse_forward p q x y =>
    exact ⟨_, hrule 12 _ rfl, assignment (enc p) (enc q) (enc x) (enc y),
      by simp [Triple.encode, hk]; rfl, rfl⟩
  | inverse_backward p q x y =>
    exact ⟨_, hrule 13 _ rfl, assignment (enc p) (enc q) (enc x) (enc y),
      by simp [Triple.encode, hk]; rfl, rfl⟩

end Nova.Reasoning
