import Nova.Query.Dataset

/-!
# The shape catalog

A BGP whose patterns are classified (`PatternSpec`) is looked up in a catalog of
shapes. A hit gives a plan: which constants stand in which place of the shape, and
which variables are bound to its corners.
-/

namespace Nova

/-- `FieldSpec`: a constant, or the join variable with this index. -/
inductive FieldSpec where
  | const (id : Nat)
  | joinVar (i : Nat)
deriving DecidableEq, Repr

structure PatternSpec where
  s : FieldSpec
  p : FieldSpec
  o : FieldSpec
deriving DecidableEq, Repr

/-- `field_as_join`. -/
def FieldSpec.asJoin : FieldSpec → Option Nat
  | .joinVar i => some i
  | .const _ => none

/-- `field_as_const`. -/
def FieldSpec.asConst : FieldSpec → Option Nat
  | .const id => some id
  | .joinVar _ => none

namespace Shapes

/-! ## Plans -/

structure WedgePlan where
  predicate : Nat
  a : Nat
  b : Nat
  c : Nat
deriving DecidableEq, Repr

structure DirectedTrianglePlan where
  p1 : Nat
  p2 : Nat
  p3 : Nat
  a : Nat
  b : Nat
  c : Nat
deriving DecidableEq, Repr

structure KChainPlan where
  p1 : Nat
  p2 : Nat
  p3 : Nat
  a : Nat
  b : Nat
  c : Nat
  d : Nat
deriving DecidableEq, Repr

structure StarPlan where
  p1 : Nat
  p2 : Nat
  p3 : Nat
  s : Nat
  o1 : Nat
  o2 : Nat
  o3 : Nat
deriving DecidableEq, Repr

structure SpExpansionPlan where
  pFilter : Nat
  oFilter : Nat
  pExpand : Nat
  sIdx : Nat
  oIdx : Nat
deriving DecidableEq, Repr

structure TwoHopPlan where
  p1 : Nat
  p2 : Nat
  a : Nat
  b : Nat
  c : Nat
deriving DecidableEq, Repr

inductive ShapePlan where
  | spExpansion (plan : SpExpansionPlan)
  | twoHop (plan : TwoHopPlan)
  | wedge (plan : WedgePlan)
  | directedTriangle (plan : DirectedTrianglePlan)
  | kChain (plan : KChainPlan)
  | star (plan : StarPlan)
deriving DecidableEq, Repr

/-- `to_physical`: the constants of a plan. -/
def ShapePlan.toPhysical : ShapePlan → PhysicalShape
  | .spExpansion plan => .spExpansion plan.pFilter plan.oFilter plan.pExpand
  | .twoHop plan => .twoHop plan.p1 plan.p2
  | .wedge plan => .wedge plan.predicate
  | .directedTriangle plan => .directedTriangle plan.p1 plan.p2 plan.p3
  | .kChain plan => .kChain plan.p1 plan.p2 plan.p3
  | .star plan => .star plan.p1 plan.p2 plan.p3

/-! ## Recognizers -/

/-- A pattern between two join variables below `n`, with a constant predicate. -/
structure Edge where
  s : Nat
  o : Nat
  p : Nat
deriving DecidableEq, Repr

def edgeOf (n : Nat) (sp : PatternSpec) : Option Edge := do
  let s ← sp.s.asJoin
  let p ← sp.p.asConst
  let o ← sp.o.asJoin
  if s = o ∨ s ≥ n ∨ o ≥ n then none else some ⟨s, o, p⟩

/-- Two edges between the same variables. -/
def Edge.same (e e' : Edge) : Bool := e.s = e'.s && e.o = e'.o

/-- `PERMS`. -/
def perms : List (Nat × Nat × Nat) := [(0, 1, 2), (0, 2, 1), (1, 0, 2), (1, 2, 0), (2, 0, 1), (2, 1, 0)]

/-- All indices below `n` are among the corners. -/
def allSeen (n : Nat) (corners : List Nat) : Bool := (List.range n).all fun i => i ∈ corners

def tryRecognizeWedge (specs : List PatternSpec) (nVars : Nat) : Option WedgePlan := do
  guard (specs.length = 3 ∧ nVars = 3)
  match ← specs.mapM (edgeOf 3) with
  | [e, e', e''] =>
    guard (e.p = e'.p ∧ e.p = e''.p)
    guard (!e.same e' && !e.same e'' && !e'.same e'')
    let has := fun x y => [e, e', e''].any fun edge => edge.s = x && edge.o = y
    perms.findSome? fun (a, b, c) => if has a b && has b c && has a c then some ⟨e.p, a, b, c⟩ else none
  | _ => none

def tryRecognizeDirectedTriangle (specs : List PatternSpec) (nVars : Nat) : Option DirectedTrianglePlan := do
  guard (specs.length = 3 ∧ nVars = 3)
  match ← specs.mapM (edgeOf 3) with
  | [e, e', e''] =>
    guard (!e.same e' && !e.same e'' && !e'.same e'')
    let find := fun x y => ([e, e', e''].find? fun edge => edge.s = x && edge.o = y).map Edge.p
    perms.findSome? fun (a, b, c) => do
      let p1 ← find a b
      let p2 ← find b c
      let p3 ← find c a
      return ⟨p1, p2, p3, a, b, c⟩
  | _ => none

def tryRecognizeKChain (specs : List PatternSpec) (nVars : Nat) : Option KChainPlan := do
  guard (specs.length = 3 ∧ nVars = 4)
  match ← specs.mapM (edgeOf 4) with
  | [e, e', e''] =>
    guard (!e.same e' && !e.same e'' && !e'.same e'')
    perms.findSome? fun (i, j, k) => do
      let e₁ ← [e, e', e''][i]?
      let e₂ ← [e, e', e''][j]?
      let e₃ ← [e, e', e''][k]?
      guard (e₁.o = e₂.s ∧ e₂.o = e₃.s)
      guard ([e₁.s, e₂.s, e₃.s, e₃.o].Nodup)
      guard (allSeen 4 [e₁.s, e₂.s, e₃.s, e₃.o])
      return ⟨e₁.p, e₂.p, e₃.p, e₁.s, e₂.s, e₃.s, e₃.o⟩
  | _ => none

def tryRecognizeStar (specs : List PatternSpec) (nVars : Nat) : Option StarPlan := do
  guard (specs.length = 3 ∧ nVars = 4)
  match ← specs.mapM (edgeOf 4) with
  | [e, e', e''] =>
    guard (e'.s = e.s ∧ e''.s = e.s)
    guard ([e.o, e'.o, e''.o].Nodup)
    guard ([e.p, e'.p, e''.p].Nodup)
    guard (allSeen 4 [e.s, e.o, e'.o, e''.o])
    return ⟨e.p, e'.p, e''.p, e.s, e.o, e'.o, e''.o⟩
  | _ => none

/-- A pattern of an expansion: it filters the subject, or expands it. -/
inductive Arm where
  | filter (s p o : Nat)
  | expand (s p o : Nat)
deriving DecidableEq, Repr

def armOf (sp : PatternSpec) : Option Arm := do
  let s ← sp.s.asJoin
  let p ← sp.p.asConst
  match sp.o with
  | .joinVar o => if o ≠ s then some (.expand s p o) else none
  | .const o => some (.filter s p o)

def tryRecognizeSpExpansion (specs : List PatternSpec) (nVars : Nat) : Option SpExpansionPlan := do
  guard (specs.length = 2 ∧ nVars = 2)
  let build := fun (fs pFilter oFilter es pExpand oIdx : Nat) =>
    if fs ≠ es ∨ fs ≥ 2 ∨ oIdx ≥ 2 ∨ fs = oIdx then none
    else some (⟨pFilter, oFilter, pExpand, fs, oIdx⟩ : SpExpansionPlan)
  match ← specs.mapM armOf with
  | [.filter fs pf of, .expand es pe oi] => build fs pf of es pe oi
  | [.expand es pe oi, .filter fs pf of] => build fs pf of es pe oi
  | _ => none

def tryRecognizeTwoHop (specs : List PatternSpec) (nVars : Nat) : Option TwoHopPlan := do
  guard (specs.length = 2 ∧ nVars = 3)
  match ← specs.mapM (edgeOf 3) with
  | [e, e'] =>
    guard (!e.same e')
    [(e, e'), (e', e)].findSome? fun (e₁, e₂) => do
      guard (e₁.o = e₂.s)
      guard ([e₁.s, e₂.s, e₂.o].Nodup)
      guard (allSeen 3 [e₁.s, e₂.s, e₂.o])
      return ⟨e₁.p, e₂.p, e₁.s, e₂.s, e₂.o⟩
  | _ => none

/-- `recognize_shape`: the first recognizer of the catalog that hits. -/
def recognizeShape (specs : List PatternSpec) (nVars : Nat) : Option ShapePlan :=
  ((tryRecognizeWedge specs nVars).map .wedge).or
    (((tryRecognizeDirectedTriangle specs nVars).map .directedTriangle).or
      (((tryRecognizeKChain specs nVars).map .kChain).or
        (((tryRecognizeStar specs nVars).map .star).or
          (((tryRecognizeSpExpansion specs nVars).map .spExpansion).or
            ((tryRecognizeTwoHop specs nVars).map .twoHop)))))

/-! ## A plan is the BGP -/

/-- The edge between two corners. -/
def edgeSpec (s p o : Nat) : PatternSpec := ⟨.joinVar s, .const p, .joinVar o⟩

/-- The patterns that a plan stands for. -/
def ShapePlan.patterns : ShapePlan → List PatternSpec
  | .spExpansion plan =>
    [⟨.joinVar plan.sIdx, .const plan.pFilter, .const plan.oFilter⟩, edgeSpec plan.sIdx plan.pExpand plan.oIdx]
  | .twoHop plan => [edgeSpec plan.a plan.p1 plan.b, edgeSpec plan.b plan.p2 plan.c]
  | .wedge plan => [edgeSpec plan.a plan.predicate plan.b, edgeSpec plan.b plan.predicate plan.c,
      edgeSpec plan.a plan.predicate plan.c]
  | .directedTriangle plan => [edgeSpec plan.a plan.p1 plan.b, edgeSpec plan.b plan.p2 plan.c,
      edgeSpec plan.c plan.p3 plan.a]
  | .kChain plan => [edgeSpec plan.a plan.p1 plan.b, edgeSpec plan.b plan.p2 plan.c,
      edgeSpec plan.c plan.p3 plan.d]
  | .star plan => [edgeSpec plan.s plan.p1 plan.o1, edgeSpec plan.s plan.p2 plan.o2,
      edgeSpec plan.s plan.p3 plan.o3]

/-- The variables at its corners, in the order of the rows that its walk emits. -/
def ShapePlan.corners : ShapePlan → List Nat
  | .spExpansion plan => [plan.sIdx, plan.oIdx]
  | .twoHop plan => [plan.a, plan.b, plan.c]
  | .wedge plan => [plan.a, plan.b, plan.c]
  | .directedTriangle plan => [plan.a, plan.b, plan.c]
  | .kChain plan => [plan.a, plan.b, plan.c, plan.d]
  | .star plan => [plan.s, plan.o1, plan.o2, plan.o3]

end Shapes

end Nova
