import Mathlib.Data.Finset.Prod
import Nova.Lib.Automaton
import Nova.Query.PathBound

/-!
# Composed paths over the index

A composed path is compiled to an automaton, and the pairs of a node and a state are
searched.

* `compile_recognises`: the automaton of an expression recognises what the expression
  relates.
* `productBfs_returns`: the search ends, with the nodes that the automaton reaches.
* `ringEvalRpq_denotes`: the pairs that are returned are those of the expression that agree
  with the bound ends, from whichever end the search starts.

The expressions that have a search of their own are declined by `ring_eval_rpq`; their
automata are covered all the same.
-/

namespace Nova

open Nova.Lib Relation List

namespace Path

/-! ## What an expression relates -/

/-- An edge with a predicate that is none of these. -/
def AlongOther (triples : List Row) (predId : NamedNode → Option Nat) (excluded : List NamedNode)
    (x y : Nat) : Prop :=
  ∃ pId, (∀ p ∈ excluded, predId p ≠ some pId) ∧ Along triples pId x y

/-- The relation between ids that an expression stands for. -/
def Relates (triples : List Row) (predId : NamedNode → Option Nat) : PropertyPathExpression → Nat → Nat → Prop
  | .namedNode p => fun x y => ∃ pId, predId p = some pId ∧ Along triples pId x y
  | .reverse e => Function.swap (Relates triples predId e)
  | .sequence a b => Relation.Comp (Relates triples predId a) (Relates triples predId b)
  | .alternative a b => fun x y => Relates triples predId a x y ∨ Relates triples predId b x y
  | .zeroOrMore e => ReflTransGen (Relates triples predId e)
  | .oneOrMore e => TransGen (Relates triples predId e)
  | .zeroOrOne e => fun x y => x = y ∨ Relates triples predId e x y
  | .negatedPropertySet ps => AlongOther triples predId ps

/-- A relation or the other way round. -/
def Oriented (rev : Bool) (r : Nat → Nat → Prop) : Nat → Nat → Prop := if rev then Function.swap r else r

theorem oriented_reflTransGen (rev : Bool) (r : Nat → Nat → Prop) (x y : Nat) :
    ReflTransGen (Oriented rev r) x y ↔ Oriented rev (ReflTransGen r) x y := by
  cases rev with
  | false => exact Iff.rfl
  | true => exact reflTransGen_swap

theorem oriented_transGen (rev : Bool) (r : Nat → Nat → Prop) (x y : Nat) :
    TransGen (Oriented rev r) x y ↔ Oriented rev (TransGen r) x y := by
  cases rev with
  | false => exact Iff.rfl
  | true => exact transGen_swap

theorem sameOrNodes_trans {N : Finset Nat} {x z y : Nat} (h : x = z ∨ x ∈ N ∧ z ∈ N) (h' : z = y ∨ z ∈ N ∧ y ∈ N) :
    x = y ∨ x ∈ N ∧ y ∈ N := by
  rcases h with rfl | hx
  · exact h'
  · rcases h' with rfl | hy
    · exact .inr hx
    · exact .inr ⟨hx.1, hy.2⟩

theorem Relates.target {triples : List Row} {predId : NamedNode → Option Nat} (e : PropertyPathExpression) :
    ∀ {x y : Nat}, Relates triples predId e x y → x = y ∨ x ∈ nodes triples ∧ y ∈ nodes triples := by
  induction e with
  | namedNode p =>
    intro x y h
    obtain ⟨pId, -, h⟩ := h
    exact .inr h.nodes
  | reverse e ih =>
    intro x y h
    rcases ih h with heq | hnodes
    · exact .inl heq.symm
    · exact .inr hnodes.symm
  | sequence a b iha ihb =>
    intro x y h
    obtain ⟨z, hxz, hzy⟩ := h
    exact sameOrNodes_trans (iha hxz) (ihb hzy)
  | alternative a b iha ihb => exact fun h => h.elim iha ihb
  | zeroOrMore e ih =>
    intro x y h
    induction h with
    | refl => exact .inl rfl
    | tail _ hstep ihn => exact sameOrNodes_trans ihn (ih hstep)
  | oneOrMore e ih =>
    intro x y h
    induction h with
    | single hstep => exact ih hstep
    | tail _ hstep ihn => exact sameOrNodes_trans ihn (ih hstep)
  | zeroOrOne e ih => exact fun h => h.elim .inl ih
  | negatedPropertySet ps =>
    intro x y h
    obtain ⟨pId, -, h⟩ := h
    exact .inr h.nodes

/-! ## The automaton of an expression -/

/-- The state that a transition leads to. -/
def Edge.next : Edge → Nat
  | .fwd _ next | .rev _ next | .negFwd _ next | .negRev _ next | .eps next => next

/-- The nodes that a transition relates. -/
def Edge.rel (triples : List Row) (predId : NamedNode → Option Nat) : Edge → Nat → Nat → Prop
  | .fwd p _ => Relates triples predId (.namedNode p)
  | .rev p _ => Relates triples predId (.reverse (.namedNode p))
  | .negFwd ps _ => Relates triples predId (.negatedPropertySet ps)
  | .negRev ps _ => Relates triples predId (.reverse (.negatedPropertySet ps))
  | .eps _ => Eq

def moves (triples : List Row) (predId : NamedNode → Option Nat) : Moves Edge Nat where
  target := Edge.next
  rel := Edge.rel triples predId
  eps := .eps
  target_eps := fun _ => rfl
  rel_eps := fun _ _ _ => Iff.rfl

/-- A fragment with its first state. -/
def Fragment.piece (f : Fragment) (n : Nat) : Piece Edge := ⟨n, f.start, f.accept, f.next, f.edges⟩

def Fragment.ofPiece (p : Piece Edge) : Fragment := ⟨p.start, p.accept, p.next, p.edges⟩

variable {e : PropertyPathExpression}

section Compile

variable {triples : List Row} {predId : NamedNode → Option Nat}

/-- The piece of a closure or of an optional path. -/
theorem compile_wrap {n : Nat} {i : Fragment} {rev : Bool} {R : Nat → Nat → Prop}
    (hi : Recognises (moves triples predId) (i.piece (n + 2)) (Oriented rev (Relates triples predId e)))
    (skip loop : Bool)
    (hrel : ∀ x y, (skip = true ∧ x = y ∨ ∃ z, Rounds loop (Oriented rev (Relates triples predId e)) x z ∧
      Oriented rev (Relates triples predId e) z y) ↔ R x y) :
    Recognises (moves triples predId) (.wrap .eps skip loop n (i.piece (n + 2))) R :=
  (hi.wrap skip loop rfl).congr hrel

/-- An expression whose inverses are pushed to the leaves, forwards or the other way round,
is compiled to an automaton that recognises its relation. -/
theorem compile_pushReverse (e : PropertyPathExpression) : ∀ (rev : Bool) (n : Nat),
    ∃ f, compile (pushReverse rev e) n = .ok f ∧
      Recognises (moves triples predId) (f.piece n) (Oriented rev (Relates triples predId e)) := by
  induction e with
  | namedNode p =>
    intro rev n
    cases rev with
    | false => exact ⟨_, rfl, recognises_leaf rfl fun x y => Iff.rfl⟩
    | true => exact ⟨_, rfl, recognises_leaf rfl fun x y => Iff.rfl⟩
  | negatedPropertySet ps =>
    intro rev n
    cases rev with
    | false => exact ⟨_, rfl, recognises_leaf rfl fun x y => Iff.rfl⟩
    | true => exact ⟨_, rfl, recognises_leaf rfl fun x y => Iff.rfl⟩
  | reverse e ih =>
    intro rev n
    obtain ⟨f, hf, hrec⟩ := ih (!rev) n
    refine ⟨f, ?_, hrec.congr fun x y => ?_⟩
    · rw [← hf]
      cases rev <;> rfl
    · cases rev <;> exact Iff.rfl
  | sequence a b iha ihb =>
    intro rev n
    cases rev with
    | false =>
      obtain ⟨f, hf, hrec⟩ := iha false n
      obtain ⟨g, hg, hrec'⟩ := ihb false f.next
      refine ⟨.ofPiece (.seq Edge.eps (f.piece n) (g.piece f.next)), ?_, hrec.seq hrec' rfl⟩
      rw [pushReverse, compile, hf]
      show (compile (pushReverse false b) f.next >>= _) = _
      rw [hg]
      rfl
    | true =>
      -- the parts change places
      obtain ⟨f, hf, hrec⟩ := ihb true n
      obtain ⟨g, hg, hrec'⟩ := iha true f.next
      refine ⟨.ofPiece (.seq Edge.eps (f.piece n) (g.piece f.next)), ?_,
        (hrec.seq hrec' rfl).congr fun x y => ?_⟩
      · rw [pushReverse, compile, hf]
        show (compile (pushReverse true a) f.next >>= _) = _
        rw [hg]
        rfl
      · exact exists_congr fun z => and_comm
  | alternative a b iha ihb =>
    intro rev n
    obtain ⟨f, hf, hrec⟩ := iha rev (n + 2)
    obtain ⟨g, hg, hrec'⟩ := ihb rev f.next
    refine ⟨.ofPiece (.alt Edge.eps n (f.piece (n + 2)) (g.piece f.next)), ?_,
      (hrec.alt hrec' rfl rfl).congr fun x y => ?_⟩
    · have hpush : pushReverse rev (.alternative a b) = .alternative (pushReverse rev a) (pushReverse rev b) := by
        cases rev <;> rfl
      rw [hpush, compile, hf]
      show (compile (pushReverse rev b) f.next >>= _) = _
      rw [hg]
      rfl
    · cases rev <;> exact Iff.rfl
  | zeroOrMore e ih =>
    intro rev n
    obtain ⟨i, hi, hrec⟩ := ih rev (n + 2)
    refine ⟨.ofPiece (.wrap Edge.eps true true n (i.piece (n + 2))), ?_, compile_wrap hrec true true ?_⟩
    · have hpush : pushReverse rev (.zeroOrMore e) = .zeroOrMore (pushReverse rev e) := by
        cases rev <;> rfl
      rw [hpush, compile, hi]
      rfl
    · intro x y
      rw [Relates, ← oriented_reflTransGen, ReflTransGen.cases_tail_iff]
      simp [Rounds, eq_comm]
  | oneOrMore e ih =>
    intro rev n
    obtain ⟨i, hi, hrec⟩ := ih rev (n + 2)
    refine ⟨.ofPiece (.wrap Edge.eps false true n (i.piece (n + 2))), ?_, compile_wrap hrec false true ?_⟩
    · have hpush : pushReverse rev (.oneOrMore e) = .oneOrMore (pushReverse rev e) := by
        cases rev <;> rfl
      rw [hpush, compile, hi]
      rfl
    · intro x y
      rw [Relates, ← oriented_transGen, TransGen.tail'_iff]
      simp [Rounds]
  | zeroOrOne e ih =>
    intro rev n
    obtain ⟨i, hi, hrec⟩ := ih rev (n + 2)
    refine ⟨.ofPiece (.wrap Edge.eps true false n (i.piece (n + 2))), ?_, compile_wrap hrec true false ?_⟩
    · have hpush : pushReverse rev (.zeroOrOne e) = .zeroOrOne (pushReverse rev e) := by
        cases rev <;> rfl
      rw [hpush, compile, hi]
      rfl
    · intro x y
      cases rev <;> simp [Rounds, Relates, Oriented, Function.swap, eq_comm]

variable (triples predId) in
/-- The automaton of an expression. -/
theorem compile_recognises (e : PropertyPathExpression) : ∃ f, compile (normalizeReverse e) 0 = .ok f ∧
    Recognises (moves triples predId) (f.piece 0) (Relates triples predId e) :=
  compile_pushReverse e false 0

variable (triples predId) in
theorem compile_recognises_reverse (e : PropertyPathExpression) :
    ∃ f, compile (normalizeReverse (.reverse e)) 0 = .ok f ∧
      Recognises (moves triples predId) (f.piece 0) (Function.swap (Relates triples predId e)) :=
  compile_pushReverse e true 0

end Compile

/-! ## Transitions without an edge of the graph -/

/-- A transition that keeps the node, and one that follows an edge of the graph. -/
def EpsStep (edges : List (Nat × Edge)) (a b : Nat × Nat) : Prop := a.1 = b.1 ∧ (a.2, Edge.eps b.2) ∈ edges

def MoveStep (triples : List Row) (predId : NamedNode → Option Nat) (edges : List (Nat × Edge))
    (a b : Nat × Nat) : Prop :=
  ∃ e, (a.2, e) ∈ edges ∧ (∀ q, e ≠ .eps q) ∧ e.next = b.2 ∧ e.rel triples predId a.1 b.1

/-- The states that transitions lead to. -/
def targets (edges : List (Nat × Edge)) : Finset Nat := (edges.map fun e => e.2.next).toFinset

section Search

variable {ds : Dataset} {ag : GraphSelector} {triples : List Row} {predId : NamedNode → Option Nat}
  {edges : List (Nat × Edge)}

theorem mem_targets {q : Nat} {e : Edge} (h : (q, e) ∈ edges) : e.next ∈ targets edges :=
  mem_toFinset.mpr (mem_map.mpr ⟨(q, e), h, rfl⟩)

theorem step_iff (a b : Nat × Nat) :
    (moves triples predId).Step edges a b ↔ EpsStep edges a b ∨ MoveStep triples predId edges a b := by
  constructor
  · intro h
    obtain ⟨e, he, htarget, hrel⟩ := h
    by_cases heps : ∃ q, e = .eps q
    · obtain ⟨q, rfl⟩ := heps
      have hq : q = b.2 := htarget
      rw [hq] at he
      exact .inl ⟨hrel, he⟩
    · exact .inr ⟨e, he, fun q hq => heps ⟨q, hq⟩, htarget, hrel⟩
  · intro h
    rcases h with ⟨heq, he⟩ | ⟨e, he, -, htarget, hrel⟩
    · exact ⟨.eps b.2, he, rfl, heq⟩
    · exact ⟨e, he, htarget, hrel⟩

theorem mem_outgoing {q : Nat} {e : Edge} : e ∈ outgoing edges q ↔ (q, e) ∈ edges := by
  simp [outgoing]

theorem mem_epsTargets {q q' : Nat} : q' ∈ epsTargets edges q ↔ (q, Edge.eps q') ∈ edges := by
  rw [epsTargets, mem_filterMap]
  constructor
  · intro h
    obtain ⟨e, he, heq⟩ := h
    cases e with
    | eps next =>
      rw [← Option.some.inj heq]
      exact mem_outgoing.mp he
    | _ => exact nomatch heq
  · intro h
    exact ⟨.eps q', mem_outgoing.mpr h, rfl⟩

theorem reflTransGen_epsStep {a b : Nat × Nat} : ReflTransGen (EpsStep edges) a b ↔
    a.1 = b.1 ∧ ReflTransGen (fun q q' => q' ∈ epsTargets edges q) a.2 b.2 := by
  constructor
  · intro h
    induction h with
    | refl => exact ⟨rfl, .refl⟩
    | tail _ hstep ih => exact ⟨ih.1.trans hstep.1, ih.2.tail (mem_epsTargets.mpr hstep.2)⟩
  · intro h
    obtain ⟨x, q⟩ := a
    obtain ⟨y, q'⟩ := b
    obtain ⟨heq, hreach⟩ := h
    have hxy : x = y := heq
    subst hxy
    have hlift : ∀ q', ReflTransGen (fun q q' => q' ∈ epsTargets edges q) q q' →
        ReflTransGen (EpsStep edges) (x, q) (x, q') := by
      intro q' hq'
      induction hq' with
      | refl => exact .refl
      | tail _ hstep ih => exact ih.tail ⟨rfl, mem_epsTargets.mp hstep⟩
    exact hlift q' hreach

theorem inClosure_returns (edges : List (Nat × Edge)) (a : Nat × Nat) :
    ∃ out, Returns (fun fuel => inClosure fuel edges a) out ∧ out.Nodup ∧ ∀ b, b ∈ out ↔
      ReflTransGen (EpsStep edges) a b := by
  have hclosed : ∀ q ∈ insert a.2 (targets edges), ∀ q' ∈ epsTargets edges q, q' ∈ insert a.2 (targets edges) :=
    fun q _ q' hq' => Finset.mem_insert_of_mem (mem_targets (e := .eps q') (mem_epsTargets.mp hq'))
  have hsearch : ∃ st : Search.State Nat Nat,
      Returns (fun fuel => Search.run id (fun s =>
        .ok (epsTargets edges s)) PathError.fuel fuel ⟨[a.2], [a.2], []⟩) st ∧
        st.found.Nodup ∧ ∀ q, q ∈ st.found ↔ q ≠ a.2 ∧ ReflTransGen (fun q q' => q' ∈ epsTargets edges q) a.2 q :=
    Search.run_from_returns PathError.fuel (fun x _ y _ heq => heq) hclosed (fun _ _ => rfl)
      (Finset.mem_insert_self a.2 (targets edges))
  obtain ⟨st, hret, hnodup, hfound⟩ := hsearch
  refine ⟨(a.2 :: st.found).map fun q => (a.1, q), ?_, ?_, ?_⟩
  · exact (hret.bind (Returns.of_ok (a.2 :: st.found))).bind (Returns.of_ok _)
  · refine List.Nodup.map (fun q q' heq => (Prod.mk.inj heq).2) (nodup_cons.mpr ⟨?_, hnodup⟩)
    intro hmem
    exact ((hfound a.2).mp hmem).1 rfl
  · intro b
    rw [reflTransGen_epsStep]
    simp only [mem_map, mem_cons, hfound]
    constructor
    · intro h
      obtain ⟨q, hq, rfl⟩ := h
      rcases hq with rfl | hq
      · exact ⟨rfl, .refl⟩
      · exact ⟨rfl, hq.2⟩
    · intro h
      refine ⟨b.2, ?_, Prod.ext h.1 rfl⟩
      by_cases heq : b.2 = a.2
      · exact .inl heq
      · exact .inr ⟨heq, h.2⟩

/-! ## Transitions along an edge of the graph -/

theorem excludedIds_ok (h : IndexedGraph ds ag triples predId) (ps : List NamedNode) :
    ∃ ids, excludedIds ds ps = .ok ids ∧ ∀ id, id ∈ ids ↔ ∃ p ∈ ps, predId p = some id := by
  induction ps with
  | nil => exact ⟨[], rfl, by simp⟩
  | cons p ps ih =>
    obtain ⟨ids, hids, hmem⟩ := ih
    refine ⟨(predId p).toList ++ ids, ?_, ?_⟩
    · rw [excludedIds, h.intern, hids]
      rfl
    · intro id
      simp only [mem_append, hmem, mem_cons, exists_eq_or_imp, Option.mem_toList]

variable {r : Nat → Nat → Prop}

theorem mem_others {y : Nat} {ids preds : List Nat} {excluded : List NamedNode} {next : Nat → List Nat}
    (hids : ∀ id, id ∈ ids ↔ ∃ p ∈ excluded, predId p = some id)
    (hnext : ∀ p y, y ∈ next p ↔ r p y) (hpreds : ∀ p y, r p y → p ∈ preds) :
    y ∈ ((preds.filter fun p => p ∉ ids).map next).flatten ↔
      ∃ pId, (∀ p ∈ excluded, predId p ≠ some pId) ∧ r pId y := by
  simp only [mem_flatten, mem_map, mem_filter, decide_eq_true_eq, hids, not_exists, not_and]
  constructor
  · intro hy
    obtain ⟨_, ⟨p, ⟨-, hp⟩, rfl⟩, hy⟩ := hy
    exact ⟨p, hp, (hnext p y).mp hy⟩
  · intro hy
    obtain ⟨p, hp, hr⟩ := hy
    exact ⟨_, ⟨p, ⟨hpreds p y hr, hp⟩, rfl⟩, (hnext p y).mpr hr⟩

theorem mem_withNext {ys : List Nat} {next : Nat} {r : Nat → Prop} (hys : ∀ y, y ∈ ys ↔ r y) (b : Nat × Nat) :
    b ∈ (ys.map fun y => (y, next)) ↔ next = b.2 ∧ r b.1 := by
  simp only [mem_map, hys]
  constructor
  · intro hb
    obtain ⟨y, hy, rfl⟩ := hb
    exact ⟨rfl, hy⟩
  · intro hb
    exact ⟨b.1, hb.2, Prod.ext rfl hb.1⟩

/-- A transition along a predicate, in either direction. -/
theorem followPred_ok (h : IndexedGraph ds ag triples predId) (p : NamedNode) (next : Nat)
    {run : Nat → Except PathError (List Nat)} {ends : Nat → List Nat}
    (hrun : ∀ pId, run pId = .ok (ends pId)) (hends : ∀ pId y, y ∈ ends pId ↔ r pId y) : ∃ out, (do
        match ← PathError.ofPanic (ds.lftjInternTerm (.namedNode p)) with
        | none => return []
        | some pId => return (← run pId).map fun y => (y, next) : Except PathError (List (Nat × Nat))) = .ok out ∧
      ∀ b, b ∈ out ↔ next = b.2 ∧ ∃ pId, predId p = some pId ∧ r pId b.1 := by
  have hintern : PathError.ofPanic (ds.lftjInternTerm (.namedNode p)) = .ok (predId p) := by
    rw [h.intern]
    rfl
  rw [hintern]
  cases hp : predId p with
  | none =>
    -- no edge has a predicate that is not in the dictionary
    exact ⟨[], rfl, fun b => by simp⟩
  | some pId =>
    refine ⟨(ends pId).map fun y => (y, next), ?_, fun b => ?_⟩
    · show (run pId >>= _) = _
      rw [hrun]
      rfl
    · rw [mem_withNext (hends pId)]
      simp

/-- A transition along the predicates that are not excluded, in either direction. -/
theorem followOthers_ok (h : IndexedGraph ds ag triples predId) (excluded : List NamedNode) (next : Nat)
    {preds : List Nat} {run : Nat → Except PathError (List Nat)} {ends : Nat → List Nat}
    (hrun : ∀ pId, run pId = .ok (ends pId)) (hends : ∀ pId y, y ∈ ends pId ↔ r pId y)
    (hpreds : ∀ pId y, r pId y → pId ∈ preds) {listed : Except PathError (List Nat)} (hlisted : listed = .ok preds) :
    ∃ out, (do
        let ids ← excludedIds ds excluded
        let preds ← listed
        let found ← (preds.filter fun p => p ∉ ids).mapM run
        return found.flatten.map fun y => (y, next) : Except PathError (List (Nat × Nat))) = .ok out ∧
      ∀ b, b ∈ out ↔ next = b.2 ∧ ∃ pId, (∀ p ∈ excluded, predId p ≠ some pId) ∧ r pId b.1 := by
  obtain ⟨ids, hids, hmem⟩ := excludedIds_ok h excluded
  refine ⟨(((preds.filter fun p => p ∉ ids).map ends).flatten).map fun y => (y, next), ?_, fun b => ?_⟩
  · rw [hids, hlisted]
    show ((preds.filter fun p => p ∉ ids).mapM run >>= _) = _
    rw [mapM_congr_left fun p _ => hrun p, mapM_ok]
    rfl
  · exact mem_withNext (fun y => mem_others hmem hends hpreds) b

/-- A move follows the edges of the graph, forwards or backwards. -/
theorem follow_ok (h : IndexedGraph ds ag triples predId) (node : Nat) (e : Edge) :
    ∃ out, follow ds ag node e = .ok out ∧
      ∀ b, b ∈ out ↔ (∀ q, e ≠ .eps q) ∧ e.next = b.2 ∧ e.rel triples predId node b.1 := by
  cases e with
  | eps next =>
    refine ⟨[], rfl, fun b => ?_⟩
    simp
  | fwd p next =>
    obtain ⟨out, hout, hmem⟩ :=
      followPred_ok h p next (fun pId => successors_ok h pId node) fun pId y => mem_after h
    refine ⟨out, hout, fun b => ?_⟩
    rw [hmem]
    simp [Edge.rel, Relates, Edge.next]
  | rev p next =>
    obtain ⟨out, hout, hmem⟩ :=
      followPred_ok h p next (fun pId => predecessors_ok h pId node) fun pId y => mem_before h
    refine ⟨out, hout, fun b => ?_⟩
    rw [hmem]
    simp [Edge.rel, Relates, Edge.next, Function.swap]
  | negFwd excluded next =>
    have hpreds : ∀ p y, Along triples p node y → p ∈ Lftj.keys ds ag (some node) none none 1 := by
      intro p y hy
      exact (mem_keys h (by omega) rfl).mpr ⟨_, hy, rfl, by simp [GraphRing.Matches]⟩
    obtain ⟨out, hout, hmem⟩ := followOthers_ok h excluded next (fun pId => successors_ok h pId node)
      (fun pId y => mem_after h) hpreds (scan_ok h (by omega) rfl)
    refine ⟨out, hout, fun b => ?_⟩
    rw [hmem]
    simp [Edge.rel, Relates, AlongOther, Edge.next]
  | negRev excluded next =>
    have hpreds : ∀ p y, Along triples p y node → p ∈ Lftj.keys ds ag none none (some node) 1 := by
      intro p y hy
      exact (mem_keys h (by omega) rfl).mpr ⟨_, hy, rfl, by simp [GraphRing.Matches]⟩
    obtain ⟨out, hout, hmem⟩ := followOthers_ok h excluded next (fun pId => predecessors_ok h pId node)
      (fun pId y => mem_before h) hpreds (scan_ok h (by omega) rfl)
    refine ⟨out, hout, fun b => ?_⟩
    rw [hmem]
    simp [Edge.rel, Relates, AlongOther, Edge.next, Function.swap]

/-- What one round leads to: an edge of the graph, and then transitions without one. -/
def RoundStep (triples : List Row) (predId : NamedNode → Option Nat) (edges : List (Nat × Edge))
    (a b : Nat × Nat) : Prop :=
  ∃ c, MoveStep triples predId edges a c ∧ ReflTransGen (EpsStep edges) c b

theorem productSuccessors_returns (h : IndexedGraph ds ag triples predId)
    (edges : List (Nat × Edge)) (a : Nat × Nat) :
    ∃ out, Returns (fun fuel => productSuccessors fuel ds ag edges a) out ∧
      ∀ b, b ∈ out ↔ RoundStep triples predId edges a b := by
  choose followed hfollow hmemFollow using follow_ok h a.1
  choose closure hclosure _ hmemClosure using inClosure_returns edges
  let reached := ((outgoing edges a.2).map followed).flatten
  have hreached : (outgoing edges a.2).mapM (follow ds ag a.1) = .ok ((outgoing edges a.2).map followed) := by
    rw [mapM_congr_left fun e _ => hfollow e, mapM_ok]
  have hall : Returns (fun fuel => reached.mapM (inClosure fuel edges)) (reached.map closure) :=
    Returns.mapM fun b _ => hclosure b
  refine ⟨(reached.map closure).flatten, ?_, ?_⟩
  · exact (Returns.bind ⟨0, fun fuel _ => hreached⟩ (hall.bind (Returns.of_ok _)))
  · intro b
    simp only [mem_flatten, mem_map, reached]
    constructor
    · intro hb
      obtain ⟨_, ⟨c, ⟨_, ⟨e, he, rfl⟩, hc⟩, rfl⟩, hb⟩ := hb
      exact ⟨c, ⟨e, mem_outgoing.mp he, (hmemFollow e c).mp hc⟩, (hmemClosure c b).mp hb⟩
    · intro hb
      obtain ⟨c, ⟨e, he, hstep⟩, hcb⟩ := hb
      exact ⟨_, ⟨c, ⟨_, ⟨e, mem_outgoing.mpr he, rfl⟩, (hmemFollow e c).mpr hstep⟩, rfl⟩,
        (hmemClosure c b).mpr hcb⟩

theorem epsStep_inside {U : Finset Nat} {a b : Nat × Nat} (h : ReflTransGen (EpsStep edges) a b)
    (ha : a ∈ U ×ˢ targets edges) : b ∈ U ×ˢ targets edges := by
  induction h with
  | refl => exact ha
  | tail _ hstep ih =>
    have hin := Finset.mem_product.mp ih
    rw [hstep.1] at hin
    exact Finset.mem_product.mpr ⟨hin.1, mem_targets hstep.2⟩

theorem Edge.rel_node {e : Edge} {x y : Nat} (hne : ∀ q, e ≠ .eps q) (h : e.rel triples predId x y) :
    y ∈ nodes triples := by
  cases e with
  | fwd p next =>
    obtain ⟨pId, -, hxy⟩ := h
    exact hxy.nodes.2
  | rev p next =>
    obtain ⟨pId, -, hyx⟩ := h
    exact hyx.nodes.1
  | negFwd ps next =>
    obtain ⟨pId, -, hxy⟩ := h
    exact hxy.nodes.2
  | negRev ps next =>
    obtain ⟨pId, -, hyx⟩ := h
    exact hyx.nodes.1
  | eps next => exact absurd rfl (hne next)

/-- The search of nodes and states ends, with the nodes that the automaton reaches in its
accepting state. -/
theorem productBfs_returns (h : IndexedGraph ds ag triples predId) (nfa : Fragment) (start : Nat) :
    ∃ ids, Returns (fun fuel => productBfs fuel ds ag nfa start) ids ∧ ids.Nodup ∧
      ∀ y, y ∈ ids ↔ ReflTransGen ((moves triples predId).Step nfa.edges) (start, nfa.start) (y, nfa.accept) := by
  choose next hnext hmemNext using productSuccessors_returns h nfa.edges
  obtain ⟨starts, hstarts, -, hmemStarts⟩ := inClosure_returns nfa.edges (start, nfa.start)
  let U := around triples start ×ˢ insert nfa.start (targets nfa.edges)
  have hsub : ∀ b, b ∈ around triples start ×ˢ targets nfa.edges → b ∈ U := by
    intro b hb
    have hin := Finset.mem_product.mp hb
    exact Finset.mem_product.mpr ⟨hin.1, Finset.mem_insert_of_mem hin.2⟩
  have hstart : ∀ b ∈ starts, b ∈ U := by
    intro b hb
    have hreach := (hmemStarts b).mp hb
    -- the first state itself need not be the target of a transition
    rcases ReflTransGen.cases_head hreach with rfl | ⟨c, hstep, hcb⟩
    · exact Finset.mem_product.mpr ⟨Finset.mem_insert_self _ _, Finset.mem_insert_self _ _⟩
    · refine hsub b (epsStep_inside hcb (Finset.mem_product.mpr ⟨?_, mem_targets hstep.2⟩))
      rw [← hstep.1]
      exact Finset.mem_insert_self _ _
  have hclosed : ∀ a ∈ U, ∀ b ∈ next a, b ∈ U := by
    intro a _ b hb
    obtain ⟨c, ⟨e, he, hne, htarget, hrel⟩, hcb⟩ := (hmemNext a b).mp hb
    refine hsub b (epsStep_inside hcb (Finset.mem_product.mpr ⟨Finset.mem_insert_of_mem (Edge.rel_node hne hrel), ?_⟩))
    rw [← htarget]
    exact mem_targets he
  have hsearch : ∃ st : Search.State (Nat × Nat) (Nat × Nat), Returns (fun fuel =>
      Search.run id (productSuccessors fuel ds ag nfa.edges) PathError.fuel fuel
        (Search.visitAll id ⟨[], [], []⟩ starts)) st ∧
      st.found.Nodup ∧ ∀ b, b ∈ st.found ↔ ∃ a ∈ starts, ReflTransGen (fun a b => b ∈ next a) a b :=
    Search.run_all_returns PathError.fuel (fun x _ y _ heq => heq) hclosed (fun a _ => hnext a) hstart
  obtain ⟨st, hret, hnodup, hfound⟩ := hsearch
  have hround : (fun a b => b ∈ next a) = RoundStep triples predId nfa.edges := by
    funext a b
    exact propext (hmemNext a b)
  have hstep : (moves triples predId).Step nfa.edges =
      fun a b => EpsStep nfa.edges a b ∨ MoveStep triples predId nfa.edges a b := by
    funext a b
    exact propext (step_iff a b)
  rw [hround] at hfound
  refine ⟨(st.found.filter fun x => x.2 = nfa.accept).map Prod.fst,
    hstarts.bind (hret.bind ⟨0, fun _ _ => rfl⟩), ?_, ?_⟩
  · -- the state is the same in all pairs that are kept
    refine List.Nodup.map_on ?_ (hnodup.filter _)
    intro a ha b hb heq
    have ha2 := of_decide_eq_true (mem_filter.mp ha).2
    have hb2 := of_decide_eq_true (mem_filter.mp hb).2
    exact Prod.ext heq (ha2.trans hb2.symm)
  · intro y
    rw [hstep, reflTransGen_or_iff]
    simp only [mem_map, mem_filter, decide_eq_true_eq, hfound, hmemStarts]
    constructor
    · intro hy
      obtain ⟨b, ⟨hreach, hb⟩, rfl⟩ := hy
      rw [← hb]
      exact hreach
    · intro hreach
      exact ⟨(y, nfa.accept), ⟨hreach, rfl⟩, rfl⟩

end Search

/-! ## The pairs of an expression -/

section Evaluate

variable {ds : Dataset} {ag : GraphSelector} {triples : List Row} {predId : NamedNode → Option Nat}

/-- The run ends with the terms of the pairs of a relation, each once. -/
def ReturnsPairs (ds : Dataset) (rel : Nat → Nat → Prop) (run : Nat → Except PathError (List TermPair)) : Prop :=
  ∃ pairs ids, Returns run pairs ∧ DecodedAs ds ids pairs ∧ ids.Nodup ∧ ∀ x y, (x, y) ∈ ids ↔ rel x y

theorem accepts_iff (h : IndexedGraph ds ag triples predId) {nfa : Fragment} {R : Nat → Nat → Prop}
    (hrec : Recognises (moves triples predId) (nfa.piece 0) R) (start : Nat) :
    ∃ ids, Returns (fun fuel => productBfs fuel ds ag nfa start) ids ∧ ids.Nodup ∧ ∀ y, y ∈ ids ↔ R start y := by
  obtain ⟨ids, hret, hnodup, hmem⟩ := productBfs_returns h nfa start
  refine ⟨ids, hret, hnodup, fun y => ?_⟩
  rw [hmem]
  exact hrec.reach_iff start y

theorem Relates.hasTerm (h : IndexedGraph ds ag triples predId) {x y : Nat}
    (hxy : Relates triples predId e x y) : (HasTerm ds x → HasTerm ds y) ∧ (HasTerm ds y → HasTerm ds x) := by
  rcases Relates.target e hxy with rfl | hnodes
  · exact ⟨id, id⟩
  · exact ⟨fun _ => h.hasTerm hnodes.2, fun _ => h.hasTerm hnodes.1⟩

/-- Pairs with one fixed end. -/
theorem decodedPairs_nodup (idPair : Nat → Nat × Nat) (pair : Term → TermPair) {ids : List Nat}
    (hterms : ∀ id ∈ ids, HasTerm ds id) (hinj : Function.Injective idPair) (hnodup : ids.Nodup)
    (hpair : ∀ id term, ds.lftjDecodeTerm id = .ok (some term) →
      ds.lftjDecodeTerm (idPair id).1 = .ok (some (pair term).1) ∧
        ds.lftjDecodeTerm (idPair id).2 = .ok (some (pair term).2)) :
    ∃ pairs, decodedPairs ds pair ids = .ok pairs ∧ DecodedAs ds (ids.map idPair) pairs ∧
      (ids.map idPair).Nodup := by
  obtain ⟨pairs, hpairs, hdecoded⟩ := decodedPairs_ok hterms idPair pair hpair
  exact ⟨pairs, hpairs, hdecoded, hnodup.map hinj⟩

/-- From a bound start the automaton is run once. -/
theorem ringEvalRpq_source (h : IndexedGraph ds ag triples predId)
    (hcomposed : isSimplePredicatePath e = false) {s : Nat} (hs : HasTerm ds s) (target : Option Nat) :
    ReturnsPairs ds (fun x y => Bound (some s) target x y ∧ Relates triples predId e x y) fun fuel =>
      ringEvalRpq fuel ds e (some s) target ag := by
  obtain ⟨nfa, hnfa, hrec⟩ := compile_recognises triples predId e
  have haccepts : ∃ ids, Returns (fun fuel => productBfs fuel ds ag nfa s) ids ∧ ids.Nodup ∧
      ∀ y, y ∈ ids ↔ Relates triples predId e s y := accepts_iff h hrec s
  obtain ⟨ids, ⟨k, hk⟩, hnodup, hmem⟩ := haccepts
  replace hk : ∀ fuel ≥ k, productBfs fuel ds ag nfa s = .ok ids := hk
  have hterms : ∀ id ∈ ids.filter (fun id => target.all fun t => id = t), HasTerm ds id := by
    intro id hid
    exact (((hmem id).mp (mem_filter.mp hid).1).hasTerm h).1 hs
  obtain ⟨term, hterm⟩ := hs
  obtain ⟨pairs, hpairs, hdecoded, hpairsNodup⟩ := decodedPairs_nodup (fun o => (s, o)) (fun o => (term, o))
    hterms (fun o o' heq => (Prod.mk.inj heq).2) (hnodup.filter _)
    fun id o ho => ⟨hterm, ho⟩
  refine ⟨pairs, _, ⟨k, fun fuel hfuel => ?_⟩, hdecoded, hpairsNodup, ?_⟩
  · show ringEvalRpq fuel ds e (some s) target ag = _
    rw [ringEvalRpq, hcomposed, hnfa]
    show (productBfs fuel ds ag nfa s >>= _) = _
    rw [hk fuel hfuel, decode_ok hterm]
    exact hpairs
  · intro x y
    simp only [mem_map, mem_filter, hmem, Prod.mk.injEq]
    constructor
    · intro hxy
      obtain ⟨_, ⟨hrel, htarget⟩, rfl, rfl⟩ := hxy
      refine ⟨⟨fun s' heq => Option.some.inj heq, fun t heq => ?_⟩, hrel⟩
      rw [heq] at htarget
      exact of_decide_eq_true htarget
    · intro hxy
      obtain ⟨hbound, hrel⟩ := hxy
      have hxs : x = s := hbound.1 s rfl
      rw [hxs] at hrel ⊢
      refine ⟨y, ⟨hrel, ?_⟩, rfl, rfl⟩
      cases target with
      | none => rfl
      | some t => exact decide_eq_true (hbound.2 t rfl)

theorem ringEvalRpq_target (h : IndexedGraph ds ag triples predId)
    (hcomposed : isSimplePredicatePath e = false) {t : Nat} (ht : HasTerm ds t) :
    ReturnsPairs ds (fun x y => Bound none (some t) x y ∧ Relates triples predId e x y) fun fuel =>
      ringEvalRpq fuel ds e none (some t) ag := by
  obtain ⟨nfa, hnfa, hrec⟩ := compile_recognises_reverse triples predId e
  have haccepts : ∃ ids, Returns (fun fuel => productBfs fuel ds ag nfa t) ids ∧ ids.Nodup ∧
      ∀ x, x ∈ ids ↔ Relates triples predId e x t := accepts_iff h hrec t
  obtain ⟨ids, ⟨k, hk⟩, hnodup, hmem⟩ := haccepts
  replace hk : ∀ fuel ≥ k, productBfs fuel ds ag nfa t = .ok ids := hk
  have hterms : ∀ id ∈ ids, HasTerm ds id := fun id hid => (((hmem id).mp hid).hasTerm h).2 ht
  obtain ⟨term, hterm⟩ := ht
  obtain ⟨pairs, hpairs, hdecoded, hpairsNodup⟩ := decodedPairs_nodup (fun s => (s, t)) (fun s => (s, term))
    hterms (fun s s' heq => (Prod.mk.inj heq).1) hnodup
    fun id s hs => ⟨hs, hterm⟩
  refine ⟨pairs, _, ⟨k, fun fuel hfuel => ?_⟩, hdecoded, hpairsNodup, ?_⟩
  · show ringEvalRpq fuel ds e none (some t) ag = _
    rw [ringEvalRpq, hcomposed, hnfa]
    show (productBfs fuel ds ag nfa t >>= _) = _
    rw [hk fuel hfuel, decode_ok hterm]
    exact hpairs
  · intro x y
    simp only [mem_map, hmem, Prod.mk.injEq]
    constructor
    · intro hxy
      obtain ⟨_, hrel, rfl, rfl⟩ := hxy
      exact ⟨⟨fun s heq => absurd heq.symm (Option.some_ne_none s), fun t' heq => Option.some.inj heq⟩, hrel⟩
    · intro hxy
      obtain ⟨hbound, hrel⟩ := hxy
      have hyt : y = t := hbound.2 t rfl
      rw [hyt] at hrel ⊢
      exact ⟨x, hrel, rfl, rfl⟩

theorem ringAllNodeIds_ok (h : IndexedGraph ds ag triples predId) :
    ∃ ids, ringAllNodeIds ds ag = .ok ids ∧ ids.Nodup ∧
    ∀ x, x ∈ ids ↔ x ∈ nodes triples := by
  refine ⟨firsts (Lftj.keys ds ag none none none 0 ++ Lftj.keys ds ag none none none 2), ?_,
    nodup_firsts _, fun x => ?_⟩
  · rw [ringAllNodeIds, scan_ok h (by omega) rfl, scan_ok h (by omega) rfl]
    rfl
  · rw [mem_firsts, mem_append, mem_keys h (by omega) rfl, mem_keys h (by omega) rfl, mem_nodes]
    simp only [GraphRing.column, GraphRing.Matches, reduceCtorEq, false_imp_iff, implies_true, and_true]
    constructor
    · intro hx
      rcases hx with ⟨t, ht, rfl⟩ | ⟨t, ht, rfl⟩
      · exact ⟨t, ht, .inl rfl⟩
      · exact ⟨t, ht, .inr rfl⟩
    · intro hx
      obtain ⟨t, ht, rfl | rfl⟩ := hx
      · exact .inl ⟨t, ht, rfl⟩
      · exact .inr ⟨t, ht, rfl⟩

theorem decodedAs_flatten {α : Type} {l : List α} {ids : α → List (Nat × Nat)} {pairs : α → List TermPair}
    (h : ∀ x ∈ l, DecodedAs ds (ids x) (pairs x)) : DecodedAs ds (l.map ids).flatten (l.map pairs).flatten := by
  induction l with
  | nil => exact .nil
  | cons x l ih =>
    rcases forall_mem_cons.mp h with ⟨hx, hl⟩
    exact rel_append hx (ih hl)

/-- The pairs of a path that starts at one node. -/
def pairsFrom (ds : Dataset) (ag : GraphSelector) (nfa : Fragment) (s fuel : Nat) :
    Except PathError (List TermPair) := do
  let ids ← productBfs fuel ds ag nfa s
  match ← decode ds s with
  | none => return []
  | some sTerm => decodedPairs ds (fun o => (sTerm, o)) ids

/-- Neither end is bound: the automaton is run from every node. -/
theorem ringEvalRpq_open (h : IndexedGraph ds ag triples predId)
    (hcomposed : isSimplePredicatePath e = false) :
    ReturnsPairs ds (fun x y => x ∈ nodes triples ∧ Relates triples predId e x y) fun fuel =>
      ringEvalRpq fuel ds e none none ag := by
  obtain ⟨nfa, hnfa, hrec⟩ := compile_recognises triples predId e
  obtain ⟨starts, hstarts, hstartsNodup, hmemStarts⟩ := ringAllNodeIds_ok h
  choose ids hret hnodup hmem using fun s => accepts_iff h hrec s
  have hpairs : ∀ s, ∃ pairs, s ∈ starts →
      Returns (pairsFrom ds ag nfa s) pairs ∧
        DecodedAs ds ((ids s).map fun o => (s, o)) pairs := by
    intro s
    by_cases hs : s ∈ starts
    · have hterm := h.hasTerm ((hmemStarts s).mp hs)
      have hterms : ∀ id ∈ ids s, HasTerm ds id := fun id hid => (((hmem s id).mp hid).hasTerm h).1 hterm
      obtain ⟨term, hterm⟩ := hterm
      obtain ⟨pairs, hpairs, hdecoded, -⟩ := decodedPairs_nodup (fun o => (s, o)) (fun o => (term, o))
        hterms (fun o o' heq => (Prod.mk.inj heq).2) (hnodup s) fun id o ho => ⟨hterm, ho⟩
      refine ⟨pairs, fun _ => ⟨(hret s).bind ⟨0, fun fuel _ => ?_⟩, hdecoded⟩⟩
      rw [decode_ok hterm]
      exact hpairs
    · exact ⟨[], fun hmem => absurd hmem hs⟩
  choose pairs hpairs using hpairs
  have hall : Returns (fun fuel => starts.mapM fun s => pairsFrom ds ag nfa s fuel) (starts.map pairs) :=
    Returns.mapM fun s hs => (hpairs s hs).1
  refine ⟨(starts.map pairs).flatten, (starts.map fun s => (ids s).map fun o => (s, o)).flatten, ?_,
    decodedAs_flatten fun s hs => (hpairs s hs).2, ?_, ?_⟩
  · obtain ⟨k, hk⟩ := hall
    refine ⟨k, fun fuel hfuel => ?_⟩
    show ringEvalRpq fuel ds e none none ag = _
    rw [ringEvalRpq, hcomposed, hnfa]
    rw [hstarts]
    exact congrArg (fun out => out >>= fun pairs => Except.ok (List.flatten pairs)) (hk fuel hfuel)
  · rw [nodup_flatten]
    constructor
    · intro l hl
      obtain ⟨s, -, rfl⟩ := mem_map.mp hl
      exact (hnodup s).map fun o o' heq => (Prod.mk.inj heq).2
    · refine pairwise_map.mpr (hstartsNodup.imp fun {s s'} hne => ?_)
      intro a ha hb
      obtain ⟨o, -, rfl⟩ := mem_map.mp ha
      obtain ⟨o', -, heq⟩ := mem_map.mp hb
      exact hne (Prod.mk.inj heq).1.symm
  · intro x y
    simp only [mem_flatten, mem_map]
    constructor
    · intro hxy
      obtain ⟨_, ⟨s, hs, rfl⟩, hxy⟩ := hxy
      obtain ⟨o, ho, heq⟩ := mem_map.mp hxy
      obtain ⟨rfl, rfl⟩ := Prod.mk.inj heq
      exact ⟨(hmemStarts s).mp hs, (hmem s o).mp ho⟩
    · intro hxy
      obtain ⟨hx, hrel⟩ := hxy
      exact ⟨_, ⟨x, (hmemStarts x).mpr hx, rfl⟩, mem_map.mpr ⟨y, (hmem x y).mpr hrel, rfl⟩⟩

/-- The search of an expression ends, forwards from a source and backwards from a target,
and the pairs that are returned are those of its relation: all that agree with the bound
ends, or all that start in a node of the graph. -/
theorem ringEvalRpq_denotes (h : IndexedGraph ds ag triples predId) (e : PropertyPathExpression) :
    (∃ nfa, compile (normalizeReverse e) 0 = .ok nfa ∧
      ∀ s, ∃ ids, Returns (fun fuel => productBfs fuel ds ag nfa s) ids ∧ ids.Nodup ∧
        ∀ t, t ∈ ids ↔ Relates triples predId e s t) ∧
    (∃ nfa, compile (normalizeReverse (.reverse e)) 0 = .ok nfa ∧
      ∀ t, ∃ ids, Returns (fun fuel => productBfs fuel ds ag nfa t) ids ∧ ids.Nodup ∧
        ∀ s, s ∈ ids ↔ Relates triples predId e s t) ∧
    (isSimplePredicatePath e = false → ∀ source target, (∀ s, source = some s → HasTerm ds s) →
      (∀ t, target = some t → HasTerm ds t) →
        ReturnsPairs ds (fun x y => Bound source target x y ∧ (source = none → target = none → x ∈ nodes triples) ∧
          Relates triples predId e x y) fun fuel => ringEvalRpq fuel ds e source target ag) := by
  refine ⟨?_, ?_, ?_⟩
  · obtain ⟨nfa, hnfa, hrec⟩ := compile_recognises triples predId e
    exact ⟨nfa, hnfa, accepts_iff h hrec⟩
  · obtain ⟨nfa, hnfa, hrec⟩ := compile_recognises_reverse triples predId e
    exact ⟨nfa, hnfa, accepts_iff h hrec⟩
  · intro hcomposed source target hsource htarget
    cases source with
    | some s =>
      obtain ⟨pairs, ids, hret, hdecoded, hnodup, hmem⟩ := ringEvalRpq_source h hcomposed (hsource s rfl) target
      refine ⟨pairs, ids, hret, hdecoded, hnodup, fun x y => ?_⟩
      simp [hmem]
    | none =>
      cases target with
      | some t =>
        obtain ⟨pairs, ids, hret, hdecoded, hnodup, hmem⟩ := ringEvalRpq_target h hcomposed (htarget t rfl)
        refine ⟨pairs, ids, hret, hdecoded, hnodup, fun x y => ?_⟩
        simp [hmem]
      | none =>
        obtain ⟨pairs, ids, hret, hdecoded, hnodup, hmem⟩ := ringEvalRpq_open h hcomposed
        refine ⟨pairs, ids, hret, hdecoded, hnodup, fun x y => ?_⟩
        simp [hmem, Bound]

end Evaluate

/-- Backwards from the node of the loop, along the star of an edge followed forwards and
then back. -/
theorem ringEvalRpq_denotes_loop :
    ReturnsPairs (Lftj.loopStore.dataset tableApi)
      (fun x y => Bound none (some 0) x y ∧
        ((none : Option Nat) = none → some 0 = none →
          x ∈ nodes (Lftj.loopStore.ringOf tableApi .default).spoTriples) ∧
          Relates (Lftj.loopStore.ringOf tableApi .default).spoTriples
            (fun p => (Lftj.loopNames.termId (.namedNode p)).map TermId.asU64)
            (.zeroOrMore (.sequence (.namedNode ⟨"http://ex/p"⟩) (.reverse (.namedNode ⟨"http://ex/p"⟩)))) x y)
      fun fuel => ringEvalRpq fuel (Lftj.loopStore.dataset tableApi)
        (.zeroOrMore (.sequence (.namedNode ⟨"http://ex/p"⟩) (.reverse (.namedNode ⟨"http://ex/p"⟩)))) none (some 0)
        .default :=
  (ringEvalRpq_denotes indexedGraph_loop _).2.2 rfl none (some 0)
    (fun s hs => absurd hs.symm (Option.some_ne_none s))
    fun t ht => by rw [← Option.some.inj ht]; exact hasTerm_loop

end Path

end Nova
