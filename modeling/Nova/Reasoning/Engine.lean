import Nova.Reasoning.Fixpoint
import Nova.Reasoning.SameAs

/-!
# The fixpoint engine

`infer` computes what the fourteen rules of the engine derive from the merge of
all graphs of a dataset and is no base fact. Ids of terms come from the dataset; a
term of the rules that the dataset does not know gets a synthetic id far above
them. The fixpoint is seeded with the quads of the vocabulary and the edges of
declared properties, as `find_quads` returns them, and joins over the scans of the
graphs.

A diagnostic is given by its parts, of which the source makes a text. The scans of
the graphs are lists of keys, and the fixpoint and the joins of the consistency
checks run on `fuel`.
-/

namespace Nova.Reasoning

open Nova Nova.Lib

/-! ## The vocabulary -/

/-- The terms that the rules and the checks mention. -/
inductive Vocab where
  | rdfType
  | rdfsSubClassOf
  | rdfsSubPropertyOf
  | rdfsDomain
  | rdfsRange
  | owlTransitiveProperty
  | owlSymmetricProperty
  | owlEquivalentClass
  | owlEquivalentProperty
  | owlInverseOf
  | owlAsymmetricProperty
  | owlIrreflexiveProperty
  | owlDisjointWith
deriving DecidableEq, Repr

def Vocab.node : Vocab → NamedNode
  | .rdfType => ⟨"http://www.w3.org/1999/02/22-rdf-syntax-ns#type"⟩
  | .rdfsSubClassOf => ⟨"http://www.w3.org/2000/01/rdf-schema#subClassOf"⟩
  | .rdfsSubPropertyOf => ⟨"http://www.w3.org/2000/01/rdf-schema#subPropertyOf"⟩
  | .rdfsDomain => ⟨"http://www.w3.org/2000/01/rdf-schema#domain"⟩
  | .rdfsRange => ⟨"http://www.w3.org/2000/01/rdf-schema#range"⟩
  | .owlTransitiveProperty => ⟨"http://www.w3.org/2002/07/owl#TransitiveProperty"⟩
  | .owlSymmetricProperty => ⟨"http://www.w3.org/2002/07/owl#SymmetricProperty"⟩
  | .owlEquivalentClass => ⟨"http://www.w3.org/2002/07/owl#equivalentClass"⟩
  | .owlEquivalentProperty => ⟨"http://www.w3.org/2002/07/owl#equivalentProperty"⟩
  | .owlInverseOf => ⟨"http://www.w3.org/2002/07/owl#inverseOf"⟩
  | .owlAsymmetricProperty => ⟨"http://www.w3.org/2002/07/owl#AsymmetricProperty"⟩
  | .owlIrreflexiveProperty => ⟨"http://www.w3.org/2002/07/owl#IrreflexiveProperty"⟩
  | .owlDisjointWith => ⟨"http://www.w3.org/2002/07/owl#disjointWith"⟩

def owlSameAs : NamedNode := ⟨"http://www.w3.org/2002/07/owl#sameAs"⟩

def owlDifferentFrom : NamedNode := ⟨"http://www.w3.org/2002/07/owl#differentFrom"⟩

/-- In the order in which `infer` resolves them. -/
def Vocab.all : List Vocab :=
  [.rdfType, .rdfsSubClassOf, .rdfsSubPropertyOf, .rdfsDomain, .rdfsRange, .owlTransitiveProperty,
    .owlSymmetricProperty, .owlEquivalentClass, .owlEquivalentProperty, .owlInverseOf,
    .owlAsymmetricProperty, .owlIrreflexiveProperty, .owlDisjointWith]

/-! ## Term ids -/

/-- Why `infer` does not return quads: the dataset fails, or a join does not
return. -/
inductive InferError where
  | store (f : Fault)
  | stop (s : Stop)
deriving DecidableEq, Repr

def ofStore {α : Type} (r : Except Fault α) : Except InferError α := r.mapError .store

def ofPanic {α : Type} (r : Except Panic α) : Except InferError α := r.mapError fun p => .store (.panic p)

def ofStop {α : Type} (r : Except Stop α) : Except InferError α := r.mapError .stop

def syntheticIdBase : Nat := 2 ^ 63

structure TermResolver where
  synthetic : List (Nat × Term)
  nextSynthetic : Nat

namespace TermResolver

def new : TermResolver := ⟨[], syntheticIdBase⟩

def resolve (ds : Dataset) (res : TermResolver) (t : Term) : Except InferError (Nat × TermResolver) := do
  match ← ofPanic (ds.lftjInternTerm t) with
  | some id => return (id, res)
  | none =>
    return (res.nextSynthetic, ⟨(res.nextSynthetic, t) :: res.synthetic, res.nextSynthetic + 1⟩)

def decode (ds : Dataset) (res : TermResolver) (id : Nat) : Except InferError (Option Term) :=
  match res.synthetic.lookup id with
  | some t => .ok (some t)
  | none => ofPanic (ds.lftjDecodeTerm id)

/-- The ids of the vocabulary. -/
def resolveVocab (ds : Dataset) :
    TermResolver → List Vocab → Except InferError ((Vocab → Nat) × TermResolver)
  | res, [] => .ok (fun _ => 0, res)
  | res, v :: vs => do
    let (id, res) ← resolve ds res (.namedNode v.node)
    let (ids, res) ← resolveVocab ds res vs
    return (fun w => if w = v then id else ids w, res)

end TermResolver

/-- `decode_quad`. -/
def decodeQuad (ds : Dataset) (res : TermResolver) (row : Row) : Except InferError (Option Quad) := do
  match ← res.decode ds row.s with
  | none => return none
  | some s =>
    match ← res.decode ds row.p with
    | none => return none
    | some p =>
      match ← res.decode ds row.o with
      | none => return none
      | some o =>
        let subject : Option Subject :=
          match s with
          | .namedNode n => some (.namedNode n)
          | .blankNode b => some (.blankNode b)
          | _ => none
        match subject, p with
        | some subject, .namedNode predicate => return some ⟨subject, predicate, o, .defaultGraph⟩
        | _, _ => return none

/-! ## Rules and seeds -/

/-- The rules of the engine. -/
def engineRules (k : Vocab → Nat) : List Rule :=
  [.transitive (k .rdfsSubClassOf),
    .transitive (k .rdfsSubPropertyOf),
    .typePropagation (k .rdfType) (k .rdfsSubClassOf),
    .subpropertyPropagation (k .rdfsSubPropertyOf),
    .domain (k .rdfsDomain) (k .rdfType),
    .range (k .rdfsRange) (k .rdfType),
    .transitiveProperty (k .rdfType) (k .owlTransitiveProperty),
    .symmetricProperty (k .rdfType) (k .owlSymmetricProperty),
    .equivalentClassForward (k .owlEquivalentClass) (k .rdfsSubClassOf),
    .equivalentClassBackward (k .owlEquivalentClass) (k .rdfsSubClassOf),
    .equivalentPropertyForward (k .owlEquivalentProperty) (k .rdfsSubPropertyOf),
    .equivalentPropertyBackward (k .owlEquivalentProperty) (k .rdfsSubPropertyOf),
    .inverseForward (k .owlInverseOf),
    .inverseBackward (k .owlInverseOf)]

/-- All quads of a predicate, in every graph. -/
def edgePattern (predicate : NamedNode) : QuadPattern :=
  ⟨.wildcard, .bound (.namedNode predicate), .wildcard, .union⟩

/-- The declarations of a class of properties. -/
def declarationPattern (declClass : Vocab) : QuadPattern :=
  ⟨.wildcard, .bound (.namedNode Vocab.rdfType.node), .bound (.namedNode declClass.node), .union⟩

/-- The predicates whose quads are all in the seed. -/
def corePredicates : List Vocab :=
  [.rdfType, .rdfsSubClassOf, .rdfsSubPropertyOf, .rdfsDomain, .rdfsRange, .owlEquivalentClass,
    .owlEquivalentProperty, .owlInverseOf, .owlDisjointWith]

/-- The classes whose members have all their edges in the seed. -/
def declaredClasses : List (Vocab × String) :=
  [(.owlTransitiveProperty, "prp-trp"), (.owlSymmetricProperty, "prp-symp"),
    (.owlAsymmetricProperty, "prp-asyp"), (.owlIrreflexiveProperty, "prp-irp")]

/-- `Diagnostic`: what the message is made of. -/
inductive Diagnostic where
  | nonIriSubject (rule : String) (declClass : Vocab) (subject : Term)
  | asymmetric (p x y : Option Term)
  | irreflexive (p x : Option Term)
  | disjoint (x c₁ c₂ : Option Term)
  | eqDiff (subject object : Term)
  | undecoded (row : Row)
deriving DecidableEq, Repr

/-- The rows of quads that were found. -/
def resolveMatches (ds : Dataset) :
    TermResolver → List QuadMatch → Except InferError (List Row × TermResolver)
  | res, [] => .ok ([], res)
  | res, m :: ms => do
    let (s, res) ← res.resolve ds m.subject
    let (p, res) ← res.resolve ds m.predicate
    let (o, res) ← res.resolve ds m.object
    let (rows, res) ← resolveMatches ds res ms
    return (⟨s, p, o⟩ :: rows, res)

def seedCore (ds : Dataset) :
    TermResolver → List Vocab → Except InferError (List Row × TermResolver)
  | res, [] => .ok ([], res)
  | res, v :: vs => do
    let quads ← ofStore (ds.findQuads (edgePattern v.node))
    let (rows, res) ← resolveMatches ds res quads
    let (more, res) ← seedCore ds res vs
    return (rows ++ more, res)

/-- The edges of one declared property. -/
def resolveEdges (ds : Dataset) (p : Nat) :
    TermResolver → List QuadMatch → Except InferError (List Row × TermResolver)
  | res, [] => .ok ([], res)
  | res, m :: ms => do
    let (s, res) ← res.resolve ds m.subject
    let (o, res) ← res.resolve ds m.object
    let (rows, res) ← resolveEdges ds p res ms
    return (⟨s, p, o⟩ :: rows, res)

/-- The declarations of one class. -/
def seedDeclared (ds : Dataset) (declClass : Vocab) (ruleName : String) :
    TermResolver → List QuadMatch → Except InferError (List Row × List Diagnostic × TermResolver)
  | res, [] => .ok ([], [], res)
  | res, m :: ms =>
    match m.subject with
    | .namedNode node => do
      let (p, res) ← res.resolve ds m.subject
      let edges ← ofStore (ds.findQuads (edgePattern node))
      let (rows, res) ← resolveEdges ds p res edges
      let (more, diagnostics, res) ← seedDeclared ds declClass ruleName res ms
      return (rows ++ more, diagnostics, res)
    | _ => do
      let (rows, diagnostics, res) ← seedDeclared ds declClass ruleName res ms
      return (rows, .nonIriSubject ruleName declClass m.subject :: diagnostics, res)

def seedClasses (ds : Dataset) :
    TermResolver → List (Vocab × String) → Except InferError (List Row × List Diagnostic × TermResolver)
  | res, [] => .ok ([], [], res)
  | res, (declClass, ruleName) :: rest => do
    let quads ← ofStore (ds.findQuads (declarationPattern declClass))
    let (rows, diagnostics, res) ← seedDeclared ds declClass ruleName res quads
    let (more, diagnostics', res) ← seedClasses ds res rest
    return (rows ++ more, diagnostics ++ diagnostics', res)

/-- One graph more in the scan of all of them. -/
def addScan (ds : Dataset) (bound : Fin 3 → Option Nat) (target : Fin 3) (acc : Scan) (g : GraphSelector) :
    Scan :=
  match fieldScan ds bound target g with
  | some scan => unionTrieIter acc scan
  | none => acc

/-- `DatasetAtomSource`: the scans of the graphs united. -/
def datasetAtomSource (ds : Dataset) (graphs : List GraphSelector) : AtomSource := fun bound target =>
  graphs.foldl (addScan ds bound target) []

/-! ## Consistency -/

/-- The atoms of the check `prp-asyp`. -/
def asymmetricAtoms (k : Vocab → Nat) : List RuleAtom :=
  [⟨.var 0, .const (k .rdfType), .const (k .owlAsymmetricProperty)⟩, ⟨.var 1, .var 0, .var 2⟩,
    ⟨.var 2, .var 0, .var 1⟩]

/-- The atoms of the check `prp-irp`. -/
def irreflexiveAtoms (k : Vocab → Nat) : List RuleAtom :=
  [⟨.var 0, .const (k .rdfType), .const (k .owlIrreflexiveProperty)⟩, ⟨.var 1, .var 0, .var 2⟩]

/-- The atoms of the check `cax-dw`. -/
def disjointAtoms (k : Vocab → Nat) : List RuleAtom :=
  [⟨.var 0, .const (k .owlDisjointWith), .var 1⟩, ⟨.var 2, .const (k .rdfType), .var 0⟩,
    ⟨.var 2, .const (k .rdfType), .var 1⟩]

/-- The bindings of three atoms over the closure. -/
def joinClosure (fuel : Nat) (closureRows : List Row) (atoms : List RuleAtom) :
    Except InferError (List (Nat × Nat × Nat)) := do
  let bindings ← ofStop (leapfrogJoin (atoms.map fun a => ⟨a, sliceSource closureRows⟩) 3 fuel)
  return bindings.map fun b => (b.getD 0 0, b.getD 1 0, b.getD 2 0)

/-- The loop of `prp-asyp`: a pair of ids is reported once. -/
def reportAsymmetric (ds : Dataset) (res : TermResolver) :
    List (Nat × Nat) → List (Nat × Nat × Nat) → Except InferError (List Diagnostic)
  | _, [] => .ok []
  | seen, (p, x, y) :: rest =>
    let key := (min x y, max x y)
    if key ∈ seen then reportAsymmetric ds res seen rest
    else do
      let p ← res.decode ds p
      let x ← res.decode ds x
      let y ← res.decode ds y
      let more ← reportAsymmetric ds res (key :: seen) rest
      return .asymmetric p x y :: more

/-- `check_consistency`. -/
def checkConsistency (fuel : Nat) (ds : Dataset) (res : TermResolver) (closureRows : List Row)
    (k : Vocab → Nat) : Except InferError (List Diagnostic) := do
  let asymmetric ← reportAsymmetric ds res [] (← joinClosure fuel closureRows (asymmetricAtoms k))
  let loops := (← joinClosure fuel closureRows (irreflexiveAtoms k)).filter fun b => b.2.1 = b.2.2
  let irreflexive ← loops.mapM fun b => do
    let p ← res.decode ds b.1
    let x ← res.decode ds b.2.1
    return .irreflexive p x
  let disjoint ← (← joinClosure fuel closureRows (disjointAtoms k)).mapM fun b => do
    let c₁ ← res.decode ds b.1
    let c₂ ← res.decode ds b.2.1
    let x ← res.decode ds b.2.2
    return .disjoint x c₁ c₂
  return asymmetric ++ irreflexive ++ disjoint

/-- `build_same_as_tracker`. -/
def buildSameAsTracker (ds : Dataset) : Except InferError SameAsTracker := do
  let quads ← ofStore (ds.findQuads (edgePattern owlSameAs))
  return .build (quads.map fun m => (m.subject, m.object))

/-- The check `eq-diff`. -/
def checkDifferent (ds : Dataset) : Except InferError (List Diagnostic) := do
  let sameAs ← buildSameAsTracker ds
  if sameAs.isEmpty then return []
  else
    let quads ← ofStore (ds.findQuads (edgePattern owlDifferentFrom))
    return (quads.filter fun m => sameAs.canonicalize m.subject = sameAs.canonicalize m.object).map
      fun m => .eqDiff m.subject m.object

/-! ## Inference -/

/-- The last loop of `infer`: derived rows that are no base facts. -/
def collectInferred (ds : Dataset) (res : TermResolver) (seed : List Row) :
    List Row → Except InferError (List Quad × List Diagnostic)
  | [] => .ok ([], [])
  | row :: rows =>
    if row ∈ seed then collectInferred ds res seed rows
    else do
      match ← decodeQuad ds res row with
      | none =>
        let (quads, diagnostics) ← collectInferred ds res seed rows
        return (quads, .undecoded row :: diagnostics)
      | some q =>
        let found ← ofStore (ds.findQuads
          ⟨.bound q.subject.toTerm, .bound (.namedNode q.predicate), .bound q.object, .union⟩)
        let (quads, diagnostics) ← collectInferred ds res seed rows
        -- a base fact of any graph is no inference
        if found.isEmpty then return (q :: quads, diagnostics)
        else return (quads, diagnostics)

/-- `infer`. -/
def infer (fuel : Nat) (ds : Dataset) : Except InferError (List Quad × List Diagnostic) := do
  if ds.supportsLftj then
    let named ← ofStore ds.namedGraphs
    let graphs := GraphSelector.default :: named.map .named
    let (k, res) ← TermResolver.resolveVocab ds .new Vocab.all
    let (core, res) ← seedCore ds res corePredicates
    let (declared, skipped, res) ← seedClasses ds res declaredClasses
    let seed := core ++ declared
    let rows ← ofStop (closureOverStore fuel (RuleSet.new (engineRules k))
      (datasetAtomSource ds graphs) seed)
    let violations ← checkConsistency fuel ds res rows k
    let different ← checkDifferent ds
    let (inferred, undecoded) ← collectInferred ds res seed rows
    return (inferred, skipped ++ violations ++ different ++ undecoded)
  else return ([], [])

end Nova.Reasoning
