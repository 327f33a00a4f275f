import Mathlib.Tactic.Common

/-!
# RDF terms

The term model the store works with: IRIs, blank nodes, the four kinds of
literal, and quoted triples, which may only stand in object position and so
nest in one direction. A subject is never a literal or a triple and a
predicate is always an IRI; both facts are carried by the types.
-/

namespace Nova

/-- The errors the storage layer can return. -/
inductive Oxigraph where
  | storage (message : String)
  | idSpaceExhausted
  | graphSpaceExhausted
deriving DecidableEq, Repr

/-- What makes the code panic: an index or slice out of range, an
`unreachable!`, or a failed `expect`. -/
inductive Panic where
  | outOfBounds
  | unreachable (message : String)
  | expect (message : String)
deriving DecidableEq, Repr

/-- Why a call did not return a value. -/
inductive Fault where
  | err (e : Oxigraph)
  | panic (p : Panic)
deriving DecidableEq, Repr

structure NamedNode where
  iri : String
deriving DecidableEq, Repr

structure BlankNode where
  id : String
deriving DecidableEq, Repr

/-- Base direction of a directional language-tagged string. -/
inductive BaseDirection where
  | ltr
  | rtl
deriving DecidableEq, Repr

def xsdString : NamedNode := ⟨"http://www.w3.org/2001/XMLSchema#string"⟩
def rdfLangString : NamedNode := ⟨"http://www.w3.org/1999/02/22-rdf-syntax-ns#langString"⟩
def rdfDirLangString : NamedNode := ⟨"http://www.w3.org/1999/02/22-rdf-syntax-ns#dirLangString"⟩

/-- An RDF literal. A typed literal never has datatype `xsd:string`: that is a
simple literal, and the constructor of typed literals normalises it. -/
inductive Literal where
  | string (value : String)
  | languageTagged (value language : String)
  | directional (value language : String) (direction : BaseDirection)
  | typed (value : String) (datatype : NamedNode) (h : datatype ≠ xsdString)
deriving DecidableEq, Repr

namespace Literal

/-- `Literal::new_typed_literal`: `xsd:string` collapses to a simple literal. -/
def newTypedLiteral (value : String) (datatype : NamedNode) : Literal :=
  if h : datatype = xsdString then .string value else .typed value datatype h

def value : Literal → String
  | .string v => v
  | .languageTagged v _ => v
  | .directional v _ _ => v
  | .typed v _ _ => v

def language : Literal → Option String
  | .languageTagged _ l => some l
  | .directional _ l _ => some l
  | _ => none

def direction : Literal → Option BaseDirection
  | .directional _ _ d => some d
  | _ => none

def datatype : Literal → NamedNode
  | .string _ => xsdString
  | .languageTagged _ _ => rdfLangString
  | .directional _ _ _ => rdfDirLangString
  | .typed _ d _ => d

end Literal

/-- `NamedOrBlankNode`: what may stand in subject position. -/
inductive Subject where
  | namedNode (n : NamedNode)
  | blankNode (b : BlankNode)
deriving DecidableEq, Repr

inductive Term where
  | namedNode (n : NamedNode)
  | blankNode (b : BlankNode)
  | literal (l : Literal)
  | triple (subject : Subject) (predicate : NamedNode) (object : Term)
deriving DecidableEq, Repr

/-- `Term::from(subject)` / `subject_to_term`. -/
def Subject.toTerm : Subject → Term
  | .namedNode n => .namedNode n
  | .blankNode b => .blankNode b

theorem Subject.toTerm_injective : Function.Injective Subject.toTerm := by
  intro s t h
  cases s <;> cases t <;> simp_all [Subject.toTerm]

inductive GraphName where
  | defaultGraph
  | namedNode (n : NamedNode)
  | blankNode (b : BlankNode)
deriving DecidableEq, Repr

structure Quad where
  subject : Subject
  predicate : NamedNode
  object : Term
  graphName : GraphName
deriving DecidableEq, Repr

/-! ## The strings a value is made of -/

def Subject.strings : Subject → List String
  | .namedNode n => [n.iri]
  | .blankNode b => [b.id]

def Literal.strings : Literal → List String
  | .string v => [v]
  | .languageTagged v l => [v, l]
  | .directional v l _ => [v, l]
  | .typed v d _ => [v, d.iri]

def Term.strings : Term → List String
  | .namedNode n => [n.iri]
  | .blankNode b => [b.id]
  | .literal l => l.strings
  | .triple s p o => s.strings ++ p.iri :: o.strings

def GraphName.strings : GraphName → List String
  | .defaultGraph => []
  | .namedNode n => [n.iri]
  | .blankNode b => [b.id]

def Quad.strings (q : Quad) : List String :=
  q.graphName.strings ++ (q.subject.strings ++ q.predicate.iri :: q.object.strings)

end Nova
