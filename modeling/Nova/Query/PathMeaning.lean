import Nova.Query.Path
import Nova.Memory.Store

/-!
# What a property path denotes

`Denotes` is the relation of a path expression over a graph: `+` is the transitive
closure, `*` and `?` add the identity on the nodes of the graph.

The generic evaluator searches from each node with the node already seen, so that
it reads `+` as leading to another node (`DenotesAway`): `pathPairs_generic`. Its
pairs are those of `Denotes` exactly if every related pair is still related under
that reading (`pathPairs_exact_iff`).
-/

namespace Nova

open Nova.Lib Relation List

/-- The edges of a graph. -/
abbrev Edges := Term → NamedNode → Term → Prop

def IsNode (E : Edges) (x : Term) : Prop := ∃ p y, E x p y ∨ E y p x

/-- The relation of a path expression, for a reading of `+`. -/
def PathRel (plus : (Term → Term → Prop) → Term → Term → Prop) (E : Edges) :
    PropertyPathExpression → Term → Term → Prop
  | .namedNode p, x, y => E x p y
  | .reverse e, x, y => PathRel plus E e y x
  | .sequence a b, x, y => ∃ m, PathRel plus E a x m ∧ PathRel plus E b m y
  | .alternative a b, x, y => PathRel plus E a x y ∨ PathRel plus E b x y
  | .zeroOrMore e, x, y => IsNode E x ∧ ReflTransGen (PathRel plus E e) x y
  | .oneOrMore e, x, y => plus (PathRel plus E e) x y
  | .zeroOrOne e, x, y => PathRel plus E e x y ∨ x = y ∧ IsNode E x
  | .negatedPropertySet ps, x, y => ∃ p, p ∉ ps ∧ E x p y

/-- The relation that the expression denotes. -/
def Denotes (E : Edges) : PropertyPathExpression → Term → Term → Prop := PathRel TransGen E

/-- The same with every `+` read as leading to another node. -/
def DenotesAway (E : Edges) : PropertyPathExpression → Term → Term → Prop :=
  PathRel (fun r x y => x ≠ y ∧ TransGen r x y) E

theorem pathRel_nodes {plus : (Term → Term → Prop) → Term → Term → Prop}
    (hplus : ∀ r x y, plus r x y → TransGen r x y) {E : Edges} (e : PropertyPathExpression) :
    ∀ {x y : Term}, PathRel plus E e x y → IsNode E x ∧ IsNode E y := by
  have hclosure : ∀ {r : Term → Term → Prop}, (∀ {x y}, r x y → IsNode E x ∧ IsNode E y) →
      ∀ {x y}, ReflTransGen r x y → IsNode E x → IsNode E y := by
    intro r hr x y h hx
    induction h with
    | refl => exact hx
    | tail _ hstep _ => exact (hr hstep).2
  induction e with
  | namedNode p => exact fun h => ⟨⟨p, _, .inl h⟩, ⟨p, _, .inr h⟩⟩
  | reverse e ih => exact fun h => (ih h).symm
  | sequence a b iha ihb =>
    rintro x y ⟨m, hl, hr⟩
    exact ⟨(iha hl).1, (ihb hr).2⟩
  | alternative a b iha ihb =>
    rintro x y (h | h)
    · exact iha h
    · exact ihb h
  | zeroOrMore e ih =>
    rintro x y ⟨hx, h⟩
    exact ⟨hx, hclosure ih h hx⟩
  | oneOrMore e ih =>
    intro x y h
    rcases TransGen.head'_iff.mp (hplus _ _ _ h) with ⟨z, hz, hzy⟩
    exact ⟨(ih hz).1, hclosure ih hzy (ih hz).2⟩
  | zeroOrOne e ih =>
    rintro x y (h | ⟨rfl, hx⟩)
    · exact ih h
    · exact ⟨hx, hx⟩
  | negatedPropertySet ps =>
    rintro x y ⟨p, _, h⟩
    exact ⟨⟨p, _, .inl h⟩, ⟨p, _, .inr h⟩⟩

/-- A narrower reading of `+` gives a narrower relation. -/
theorem pathRel_mono {plus plus' : (Term → Term → Prop) → Term → Term → Prop}
    (hplus : ∀ r r' : Term → Term → Prop, (∀ x y, r x y → r' x y) → ∀ x y, plus r x y → plus' r' x y)
    {E : Edges} (e : PropertyPathExpression) :
    ∀ {x y : Term}, PathRel plus E e x y → PathRel plus' E e x y := by
  induction e with
  | namedNode p => exact id
  | reverse e ih => exact fun h => ih h
  | sequence a b iha ihb => exact fun ⟨m, hl, hr⟩ => ⟨m, iha hl, ihb hr⟩
  | alternative a b iha ihb => exact fun h => h.imp iha ihb
  | zeroOrMore e ih => exact fun ⟨hx, h⟩ => ⟨hx, ReflTransGen.mono (fun _ _ hr => ih hr) _ _ h⟩
  | oneOrMore e ih => exact fun h => hplus _ _ (fun _ _ => ih) _ _ h
  | zeroOrOne e ih => exact fun h => h.imp_left ih
  | negatedPropertySet ps => exact id

theorem denotes_of_denotesAway {E : Edges} {e : PropertyPathExpression} {x y : Term}
    (h : DenotesAway E e x y) : Denotes E e x y :=
  pathRel_mono (fun _ _ hr _ _ h => TransGen.mono hr _ _ h.2) e h

/-! ## Elements with new keys -/

theorem mem_of_mem_firstsBy {α κ : Type} [DecidableEq κ] {key : α → κ} {x : α} :
    ∀ {xs : List α} {seen : List κ}, x ∈ firstsBy key seen xs → x ∈ xs ∧ key x ∉ seen := by
  intro xs
  induction xs with
  | nil => exact nofun
  | cons y ys ih =>
    intro seen h
    unfold firstsBy at h
    by_cases hy : key y ∈ seen
    · rw [if_pos hy] at h
      exact ⟨mem_cons_of_mem _ (ih h).1, (ih h).2⟩
    · rw [if_neg hy] at h
      rcases mem_cons.mp h with rfl | h
      · exact ⟨mem_cons_self, hy⟩
      · exact ⟨mem_cons_of_mem _ (ih h).1, fun hs => (ih h).2 (mem_cons_of_mem _ hs)⟩

theorem mem_firstsBy {α κ : Type} [DecidableEq κ] {key : α → κ} {P : Set α} (hinj : Set.InjOn key P) {x : α}
    (hx : x ∈ P) : ∀ {xs : List α} {seen : List κ}, (∀ y ∈ xs, y ∈ P) →
      (x ∈ firstsBy key seen xs ↔ x ∈ xs ∧ key x ∉ seen) := by
  intro xs
  induction xs with
  | nil => exact fun _ => by simp [firstsBy]
  | cons y ys ih =>
    intro seen hP
    rcases forall_mem_cons.mp hP with ⟨hy, hys⟩
    refine ⟨mem_of_mem_firstsBy, ?_⟩
    rintro ⟨hmem, hnew⟩
    unfold firstsBy
    by_cases hseen : key y ∈ seen
    · rw [if_pos hseen]
      rcases mem_cons.mp hmem with rfl | hmem
      · exact absurd hseen hnew
      · exact (ih hys).mpr ⟨hmem, hnew⟩
    · rw [if_neg hseen]
      by_cases heq : x = y
      · rw [heq]
        exact mem_cons_self
      · rcases mem_cons.mp hmem with rfl | hmem
        · exact absurd rfl heq
        · refine mem_cons_of_mem _ ((ih hys).mpr ⟨hmem, fun hk => ?_⟩)
          rcases mem_cons.mp hk with hk | hk
          · exact heq (hinj hx hy hk)
          · exact hnew hk

/-! ## The generic evaluator -/

namespace Path

/-- The edges of a set of quads. -/
def edgesOf (G : Finset Quad) : Edges := fun s p o =>
  ∃ q ∈ G, q.subject.toTerm = s ∧ q.predicate = p ∧ q.object = o

/-- The subjects and objects of a set of quads. -/
def nodesOf (G : Finset Quad) : Finset Term := G.image (fun q => q.subject.toTerm) ∪ G.image Quad.object

theorem mem_nodesOf {G : Finset Quad} {x : Term} : x ∈ nodesOf G ↔ IsNode (edgesOf G) x := by
  simp only [nodesOf, Finset.mem_union, Finset.mem_image, IsNode, edgesOf]
  constructor
  · rintro (⟨q, hq, rfl⟩ | ⟨q, hq, rfl⟩)
    · exact ⟨q.predicate, q.object, .inl ⟨q, hq, rfl, rfl, rfl⟩⟩
    · exact ⟨q.predicate, q.subject.toTerm, .inr ⟨q, hq, rfl, rfl, rfl⟩⟩
  · rintro ⟨p, y, ⟨q, hq, hs, _, _⟩ | ⟨q, hq, _, _, ho⟩⟩
    · exact .inl ⟨q, hq, hs⟩
    · exact .inr ⟨q, hq, ho⟩

/-- The dataset lists the quads of `G` when subject and object are left open. -/
structure Lists (ds : Dataset) (ag : GraphSelector) (G : Finset Quad) : Prop where
  all : ∃ qs : List Quad, ds.findQuads (anyQuad ag) = .ok (qs.map Quad.found) ∧ ∀ q, q ∈ qs ↔ q ∈ G
  ofPredicate : ∀ p, ∃ qs : List Quad,
    ds.findQuads ⟨.wildcard, .bound (.namedNode p), .wildcard, ag⟩ = .ok (qs.map Quad.found) ∧
      ∀ q, q ∈ qs ↔ q ∈ G ∧ q.predicate = p

theorem lists_storeDataset {st : QuadStore} {S : Finset Quad} {Asked : Term → Prop} (h : Serves st S Asked)
    (ag : GraphSelector) : Lists (storeDataset st) ag (selected S ag) := by
  constructor
  · rcases findQuads_spec h (anyQuad ag) (fun t ht => by cases ht) (fun t ht => by cases ht) with
      ⟨qs, hr, _, hmem⟩
    refine ⟨qs, hr, fun q => ?_⟩
    rw [hmem]
    exact and_iff_left ⟨fun t ht => (by cases ht), fun n hn => (by cases hn), fun t ht => (by cases ht)⟩
  · intro p
    rcases findQuads_spec h ⟨.wildcard, .bound (.namedNode p), .wildcard, ag⟩ (fun t ht => by cases ht)
      (fun t ht => by cases ht) with ⟨qs, hr, _, hmem⟩
    refine ⟨qs, hr, fun q => ?_⟩
    rw [hmem]
    simp [FindMatches, eq_comm]

section Generic

variable {fp : Term → Nat} {display : Term → String} {ds : Dataset} {ag : GraphSelector} {G : Finset Quad}

theorem injOn_pairs (hfp : Set.InjOn fp (nodesOf G)) :
    Set.InjOn (Prod.map fp fp) {pair : TermPair | pair.1 ∈ nodesOf G ∧ pair.2 ∈ nodesOf G} := by
  rintro ⟨a, b⟩ ⟨ha, hb⟩ ⟨c, d⟩ ⟨hc, hd⟩ heq
  simp only [Prod.map, Prod.mk.injEq] at heq
  exact Prod.ext (hfp ha hc heq.1) (hfp hb hd heq.2)

theorem mem_dedupPairs (hfp : Set.InjOn fp (nodesOf G)) {pairs : List TermPair}
    (hnodes : ∀ pair ∈ pairs, pair.1 ∈ nodesOf G ∧ pair.2 ∈ nodesOf G) {pair : TermPair} :
    pair ∈ dedupPairs fp pairs ↔ pair ∈ pairs := by
  constructor
  · exact fun h => (mem_of_mem_firstsBy h).1
  · exact fun h => (mem_firstsBy (injOn_pairs hfp) (hnodes pair h) hnodes).mpr ⟨h, not_mem_nil⟩

/-- `all_terms` lists the nodes. -/
theorem allTerms_spec (h : Lists ds ag G) (hdisplay : Set.InjOn display (nodesOf G)) :
    ∃ nodes, allTerms display ds ag = .ok nodes ∧ ∀ x, x ∈ nodes ↔ x ∈ nodesOf G := by
  rcases h.all with ⟨qs, hr, hmem⟩
  have hends : ∀ x, x ∈ ((qs.map Quad.found).flatMap fun q => [q.subject, q.object]) ↔ x ∈ nodesOf G := by
    intro x
    simp only [mem_flatMap, mem_map, exists_exists_and_eq_and, mem_cons, not_mem_nil,
      or_false, nodesOf, Finset.mem_union, Finset.mem_image, ← hmem, Quad.found]
    constructor
    · rintro ⟨q, hq, rfl | rfl⟩
      · exact .inl ⟨q, hq, rfl⟩
      · exact .inr ⟨q, hq, rfl⟩
    · rintro (⟨q, hq, rfl⟩ | ⟨q, hq, rfl⟩)
      · exact ⟨q, hq, .inl rfl⟩
      · exact ⟨q, hq, .inr rfl⟩
  refine ⟨_, by rw [allTerms, hr]; rfl, fun x => ?_⟩
  constructor
  · exact fun hx => (hends x).mp (mem_of_mem_firstsBy hx).1
  · intro hx
    exact (mem_firstsBy hdisplay hx fun y hy => (hends y).mp hy).mpr ⟨(hends x).mpr hx, not_mem_nil⟩

theorem mem_neighbors {direct : List TermPair} {x y : Term} : y ∈ neighbors direct x ↔ (x, y) ∈ direct := by
  simp [neighbors]

/-- The search from one node over the pairs of a relation on nodes. -/
theorem reachedFrom_returns (hfp : Set.InjOn fp (nodesOf G)) {r : Term → Term → Prop} {direct : List TermPair}
    (hdirect : ∀ x y, (x, y) ∈ direct ↔ r x y) (hnodes : ∀ x y, r x y → y ∈ nodesOf G) (includeIdentity : Bool)
    {start : Term} (hstart : start ∈ nodesOf G) :
    ∃ pairs, Returns (fun fuel => reachedFrom fp fuel direct includeIdentity start) pairs ∧
      ∀ x y, (x, y) ∈ pairs ↔ x = start ∧ ReflTransGen r x y ∧ (includeIdentity = true ∨ x ≠ y) := by
  have hrel : (fun a b => b ∈ neighbors direct a) = r := by
    funext a b
    exact propext (mem_neighbors.trans (hdirect a b))
  have hsucc : ∀ x ∈ nodesOf G, (fun x =>
      Except.ok (ε := PathError) (neighbors direct x)) x = .ok (neighbors direct x) :=
    fun _ _ => rfl
  rcases Search.run_from_returns PathError.fuel hfp
    (fun x _ y hy => hnodes x y ((hdirect x y).mp (mem_neighbors.mp hy))) hsucc hstart with ⟨st, hret, -, hfound⟩
  rw [hrel] at hfound
  refine ⟨_, hret.bind (Returns.of_ok _), fun x y => ?_⟩
  simp only [mem_map, mem_append, Prod.mk.injEq, hfound]
  constructor
  · rintro ⟨z, hz | ⟨hne, hz⟩, rfl, rfl⟩
    · cases includeIdentity with
      | false => cases hz
      | true =>
        rw [mem_singleton.mp hz]
        exact ⟨rfl, .refl, .inl rfl⟩
    · exact ⟨rfl, hz, .inr fun heq => hne heq.symm⟩
  · rintro ⟨rfl, hreach, hid⟩
    by_cases heq : y = x
    · rcases hid with rfl | hne
      · exact ⟨y, .inl (mem_singleton.mpr heq), rfl, rfl⟩
      · exact absurd heq.symm hne
    · exact ⟨y, .inr ⟨heq, hreach⟩, rfl, rfl⟩

/-- The closure of a relation on nodes. -/
theorem pathTransitive_returns (h : Lists ds ag G) (hfp : Set.InjOn fp (nodesOf G))
    (hdisplay : Set.InjOn display (nodesOf G)) {r : Term → Term → Prop}
    (hnodes : ∀ x y, r x y → x ∈ nodesOf G ∧ y ∈ nodesOf G) {direct : Nat → Except PathError (List TermPair)}
    {pairs : List TermPair} (hret : Returns direct pairs) (hdirect : ∀ x y, (x, y) ∈ pairs ↔ r x y)
    (includeIdentity : Bool) :
    ∃ out, Returns (fun fuel => pathTransitiveGeneric fp display fuel ds ag (direct fuel) includeIdentity) out ∧
      ∀ x y, (x, y) ∈ out ↔ x ∈ nodesOf G ∧ ReflTransGen r x y ∧ (includeIdentity = true ∨ x ≠ y) := by
  -- the starts are nodes, and all that lead anywhere
  have hstarts : ∃ starts, startNodes display ds ag pairs includeIdentity = .ok starts ∧
      (∀ x ∈ starts, x ∈ nodesOf G) ∧
      ∀ x ∈ nodesOf G, (includeIdentity = true ∨ ∃ y, r x y) → x ∈ starts := by
    cases includeIdentity with
    | true =>
      rcases allTerms_spec h hdisplay with ⟨nodes, hr, hmem⟩
      exact ⟨nodes, hr, fun x hx => (hmem x).mp hx, fun x hx _ => (hmem x).mpr hx⟩
    | false =>
      refine ⟨_, rfl, ?_, ?_⟩
      · intro x hx
        rcases mem_flatMap.mp (mem_firsts.mp hx) with ⟨⟨a, b⟩, hab, hx⟩
        rcases hnodes a b ((hdirect a b).mp hab) with ⟨ha, hb⟩
        rcases mem_cons.mp hx with rfl | hx
        · exact ha
        · rwa [mem_singleton.mp hx]
      · rintro x _ (hfalse | ⟨y, hy⟩)
        · cases hfalse
        · exact mem_firsts.mpr (mem_flatMap.mpr ⟨(x, y), (hdirect x y).mpr hy, mem_cons_self⟩)
  rcases hstarts with ⟨starts, hs, hsub, hall⟩
  have hone : ∀ x ∈ starts, ∃ out, Returns (fun fuel => reachedFrom fp fuel pairs includeIdentity x) out ∧
      ∀ a b, (a, b) ∈ out ↔ a = x ∧ ReflTransGen r a b ∧ (includeIdentity = true ∨ a ≠ b) := fun x hx =>
    reachedFrom_returns hfp hdirect (fun a b hab => (hnodes a b hab).2) includeIdentity (hsub x hx)
  choose! outs houts hmem using hone
  refine ⟨dedupPairs fp (starts.map outs).flatten, ?_, ?_⟩
  · refine hret.bind ?_
    simp only [hs, ok_bind]
    exact (Returns.mapM houts).bind (Returns.of_ok _)
  · have hpairs : ∀ x y, (x, y) ∈ (starts.map outs).flatten ↔
        x ∈ nodesOf G ∧ ReflTransGen r x y ∧ (includeIdentity = true ∨ x ≠ y) := by
      intro x y
      simp only [mem_flatten, mem_map, exists_exists_and_eq_and]
      constructor
      · rintro ⟨a, ha, hxy⟩
        rcases (hmem a ha x y).mp hxy with ⟨rfl, hreach⟩
        exact ⟨hsub x ha, hreach⟩
      · rintro ⟨hx, hreach, hid⟩
        have hin : x ∈ starts := by
          refine hall x hx ?_
          rcases hid with htrue | hne
          · exact .inl htrue
          · rcases ReflTransGen.cases_head hreach with rfl | ⟨z, hz, _⟩
            · exact absurd rfl hne
            · exact .inr ⟨z, hz⟩
        exact ⟨x, hin, (hmem x hin x y).mpr ⟨rfl, hreach, hid⟩⟩
    intro x y
    rw [mem_dedupPairs hfp, hpairs]
    rintro ⟨a, b⟩ hab
    rcases (hpairs a b).mp hab with ⟨ha, hreach, _⟩
    refine ⟨ha, ?_⟩
    rcases ReflTransGen.cases_tail hreach with rfl | ⟨z, _, hz⟩
    · exact ha
    · exact (hnodes z b hz).2

theorem denotesAway_nodes {e : PropertyPathExpression} {x y : Term} (h : DenotesAway (edgesOf G) e x y) :
    x ∈ nodesOf G ∧ y ∈ nodesOf G := by
  rw [mem_nodesOf, mem_nodesOf]
  exact pathRel_nodes (fun _ _ _ h => h.2) e h

theorem pathTransitive_of_generic (hring : usesRing ds ag = false) (fuel : Nat) (inner : PropertyPathExpression)
    (direct : Except PathError (List TermPair)) (includeIdentity : Bool) :
    pathTransitive fp display fuel ds ag inner direct includeIdentity =
      pathTransitiveGeneric fp display fuel ds ag direct includeIdentity := by
  cases inner with
  | namedNode p => simp [pathTransitive, pathTransitiveRing, hring, PathError.orElse]
  | _ => rfl

/-- The predicate is no member of a negated set. -/
def outside (ps : List NamedNode) (q : QuadMatch) : Bool :=
  match q.predicate with
  | .namedNode p => !(p ∈ ps : Bool)
  | _ => true

/-- The generic evaluator returns the pairs of the narrower reading. -/
theorem pathPairs_generic (h : Lists ds ag G) (hring : usesRing ds ag = false)
    (hfp : Set.InjOn fp (nodesOf G)) (hdisplay : Set.InjOn display (nodesOf G)) (e : PropertyPathExpression) :
    ∃ pairs, Returns (fun fuel => pathPairs fp display fuel ds ag e) pairs ∧
      ∀ x y, (x, y) ∈ pairs ↔ DenotesAway (edgesOf G) e x y := by
  induction e with
  | namedNode p =>
    rcases h.ofPredicate p with ⟨qs, hr, hmem⟩
    refine ⟨(qs.map Quad.found).map fun q => (q.subject, q.object), ?_, ?_⟩
    · simp only [pathPairs, hring, Bool.false_eq_true, if_false, hr]
      exact Returns.of_ok _
    · intro x y
      simp only [mem_map, exists_exists_and_eq_and, Prod.mk.injEq, hmem, Quad.found]
      constructor
      · rintro ⟨q, ⟨hq, hp⟩, hs, ho⟩
        exact ⟨q, hq, hs, hp, ho⟩
      · rintro ⟨q, hq, hs, hp, ho⟩
        exact ⟨q, ⟨hq, hp⟩, hs, ho⟩
  | reverse e ih =>
    rcases ih with ⟨pairs, hret, hmem⟩
    refine ⟨pairs.map Prod.swap, hret.bind (Returns.of_ok _), fun x y => ?_⟩
    rw [← Prod.swap_prod_mk, mem_map_of_injective Prod.swap_injective]
    exact hmem y x
  | sequence a b iha ihb =>
    rcases iha with ⟨left, hl, hleft⟩
    rcases ihb with ⟨right, hr, hright⟩
    refine ⟨_, hl.bind (hr.bind (Returns.of_ok _)), fun x y => ?_⟩
    have hpairs : ∀ x y, (x, y) ∈ (left.flatMap fun pair => (neighbors right pair.2).map fun o => (pair.1, o)) ↔
        DenotesAway (edgesOf G) (.sequence a b) x y := by
      intro x y
      simp only [mem_flatMap, mem_map, Prod.mk.injEq, Prod.exists, mem_neighbors, hright]
      constructor
      · rintro ⟨s, m, hsm, o, hmo, rfl, rfl⟩
        exact ⟨m, (hleft s m).mp hsm, hmo⟩
      · rintro ⟨m, hxm, hmy⟩
        exact ⟨x, m, (hleft x m).mpr hxm, y, hmy, rfl, rfl⟩
    rw [mem_dedupPairs hfp, hpairs]
    exact fun pair hpair => denotesAway_nodes ((hpairs pair.1 pair.2).mp hpair)
  | alternative a b iha ihb =>
    rcases iha with ⟨left, hl, hleft⟩
    rcases ihb with ⟨right, hr, hright⟩
    refine ⟨_, hl.bind (hr.bind (Returns.of_ok _)), fun x y => ?_⟩
    have hpairs : ∀ x y, (x, y) ∈ left ++ right ↔ DenotesAway (edgesOf G) (.alternative a b) x y := by
      intro x y
      rw [mem_append, hleft, hright]
      exact Iff.rfl
    rw [mem_dedupPairs hfp, hpairs]
    exact fun pair hpair => denotesAway_nodes ((hpairs pair.1 pair.2).mp hpair)
  | zeroOrMore e ih =>
    rcases ih with ⟨pairs, hret, hmem⟩
    rcases pathTransitive_returns h hfp hdisplay (fun x y => denotesAway_nodes) hret hmem true with
      ⟨out, hout, hpairs⟩
    refine ⟨out, hout.congr 0 fun fuel _ => (pathTransitive_of_generic hring fuel e _ true).symm, fun x y => ?_⟩
    rw [hpairs, mem_nodesOf]
    exact and_congr_right fun _ => and_iff_left (.inl rfl)
  | oneOrMore e ih =>
    rcases ih with ⟨pairs, hret, hmem⟩
    rcases pathTransitive_returns h hfp hdisplay (fun x y => denotesAway_nodes) hret hmem false with
      ⟨out, hout, hpairs⟩
    refine ⟨out, hout.congr 0 fun fuel _ => (pathTransitive_of_generic hring fuel e _ false).symm, fun x y => ?_⟩
    rw [hpairs]
    constructor
    -- the search leaves out the pair of a node with itself
    · rintro ⟨_, hreach, hfalse | hne⟩
      · cases hfalse
      · exact ⟨hne, (reflTransGen_iff_eq_or_transGen.mp hreach).resolve_left fun heq => hne heq.symm⟩
    · rintro ⟨hne, htrans⟩
      exact ⟨(denotesAway_nodes (e := .oneOrMore e) ⟨hne, htrans⟩).1, htrans.to_reflTransGen, .inr hne⟩
  | zeroOrOne e ih =>
    rcases ih with ⟨pairs, hret, hmem⟩
    rcases allTerms_spec h hdisplay with ⟨nodes, hnodes, hall⟩
    refine ⟨_, hret.bind (by simp only [hnodes]; exact Returns.of_ok _), fun x y => ?_⟩
    rw [mem_append, hmem]
    have hdiag : ∀ pair ∈ nodes.map fun x => (x, x), pair.1 ∈ nodesOf G ∧ pair.2 ∈ nodesOf G := by
      intro pair hpair
      rcases mem_map.mp hpair with ⟨z, hz, rfl⟩
      exact ⟨(hall z).mp hz, (hall z).mp hz⟩
    constructor
    · rintro (hxy | hxy)
      · exact .inl hxy
      · rcases mem_map.mp (mem_of_mem_firstsBy hxy).1 with ⟨z, hz, heq⟩
        cases heq
        exact .inr ⟨rfl, mem_nodesOf.mp ((hall _).mp hz)⟩
    · rintro (hxy | ⟨rfl, hx⟩)
      · exact .inl hxy
      · have hnode := mem_nodesOf.mpr hx
        by_cases hin : DenotesAway (edgesOf G) e x x
        · exact .inl hin
        · -- no pair of the inner path has the fingerprints of `(x, x)`
          refine .inr ((mem_firstsBy (injOn_pairs hfp) ⟨hnode, hnode⟩ hdiag).mpr ⟨?_, fun hseen => ?_⟩)
          · exact mem_map_of_mem ((hall x).mpr hnode)
          · rcases mem_map.mp hseen with ⟨⟨a, b⟩, hab, heq⟩
            have hpair := (hmem a b).mp hab
            cases injOn_pairs hfp (denotesAway_nodes hpair) ⟨hnode, hnode⟩ heq
            exact hin hpair
  | negatedPropertySet ps =>
    rcases h.all with ⟨qs, hr, hmem⟩
    refine ⟨_, by simp only [pathPairs, hr]; exact Returns.of_ok _, fun x y => ?_⟩
    have hpairs : ∀ x y, (x, y) ∈ ((qs.map Quad.found).filter (outside ps)).map (fun q => (q.subject, q.object)) ↔
        DenotesAway (edgesOf G) (.negatedPropertySet ps) x y := by
      intro x y
      simp only [mem_map, mem_filter, Prod.mk.injEq]
      constructor
      · rintro ⟨_, ⟨⟨q, hq, rfl⟩, hp⟩, rfl, rfl⟩
        exact ⟨q.predicate, by simpa [outside, Quad.found] using hp, q, (hmem q).mp hq, rfl, rfl, rfl⟩
      · rintro ⟨p, hp, q, hq, rfl, rfl, rfl⟩
        exact ⟨q.found, ⟨⟨q, (hmem q).mpr hq, rfl⟩, by simpa [outside, Quad.found] using hp⟩, rfl, rfl⟩
    rw [mem_dedupPairs hfp]
    · exact hpairs x y
    · exact fun pair hpair => denotesAway_nodes ((hpairs pair.1 pair.2).mp hpair)

/-- The generic evaluator returns the pairs that the expression denotes exactly if
each of them has a derivation in which no `+` leads back to its start. -/
theorem pathPairs_exact_iff {st : QuadStore} {S : Finset Quad} {Asked : Term → Prop} (h : Serves st S Asked)
    (hring : usesRing (storeDataset st) ag = false) (hfp : Set.InjOn fp (nodesOf (selected S ag)))
    (hdisplay : Set.InjOn display (nodesOf (selected S ag))) (e : PropertyPathExpression) :
    (∃ pairs, Returns (fun fuel => pathPairs fp display fuel (storeDataset st) ag e) pairs ∧
      ∀ x y, (x, y) ∈ pairs ↔ Denotes (edgesOf (selected S ag)) e x y) ↔
    ∀ x y, Denotes (edgesOf (selected S ag)) e x y → DenotesAway (edgesOf (selected S ag)) e x y := by
  obtain ⟨pairs, hret, hmem⟩ := pathPairs_generic (lists_storeDataset h ag) hring hfp hdisplay e
  constructor
  · rintro ⟨out, hout, hexact⟩ x y hxy
    have hsame := hret.unique hout
    rw [← hmem, hsame]
    exact (hexact x y).mpr hxy
  · intro haway
    refine ⟨pairs, hret, fun x y => ?_⟩
    rw [hmem]
    exact ⟨denotes_of_denotesAway, haway x y⟩

end Generic

/-! ## A chain and a loop -/

/-- The text of a term that is an IRI, and a fingerprint of it. -/
def chainDisplay : Term → String
  | .namedNode n => "<" ++ n.iri ++ ">"
  | _ => ""

def chainFp (t : Term) : Nat := (chainDisplay t).toList.foldl (fun h c => (31 * h + c.toNat) % 2 ^ 64) 0

def chainEdge (s o : String) : Quad := ⟨.namedNode ⟨s⟩, ⟨"p"⟩, .namedNode ⟨o⟩, .defaultGraph⟩

/-- `a p b` and `b p c`. -/
def chainStore : MemoryStore := ⟨[chainEdge "a" "b", chainEdge "b" "c"], [], by decide +kernel⟩

def chainQuads : Finset Quad := selected chainStore.quads.toFinset .default

/-- Along the chain `p+` is evaluated exactly, since every edge leads on. -/
theorem pathPairs_exact_chain :
    ∃ pairs, Returns (fun fuel => pathPairs chainFp chainDisplay fuel (storeDataset chainStore.quadStore) .default
        (.oneOrMore (.namedNode ⟨"p"⟩))) pairs ∧
      ∀ x y, (x, y) ∈ pairs ↔ Denotes (edgesOf chainQuads) (.oneOrMore (.namedNode ⟨"p"⟩)) x y := by
  have hfp : ∀ x ∈ nodesOf chainQuads, ∀ y ∈ nodesOf chainQuads, chainFp x = chainFp y → x = y := by
    decide +kernel
  have hdisplay : ∀ x ∈ nodesOf chainQuads, ∀ y ∈ nodesOf chainQuads, chainDisplay x = chainDisplay y → x = y := by
    decide +kernel
  refine (pathPairs_exact_iff chainStore.serves rfl (fun x hx y hy => hfp x hx y hy)
    (fun x hx y hy => hdisplay x hx y hy) _).mpr fun x y hxy => ⟨?_, hxy⟩
  have hedge : ∀ q ∈ chainQuads, chainFp q.subject.toTerm < chainFp q.object := by
    decide +kernel
  have hup : ∀ a b, edgesOf chainQuads a ⟨"p"⟩ b → chainFp a < chainFp b := by
    rintro a b ⟨q, hq, rfl, _, rfl⟩
    exact hedge q hq
  have hlt : chainFp x < chainFp y := by
    induction hxy with
    | single h => exact hup _ _ h
    | tail _ h ih => exact ih.trans (hup _ _ h)
  rintro rfl
  exact lt_irrefl _ hlt

def loopStore : MemoryStore := ⟨[chainEdge "a" "a"], [], by decide +kernel⟩

/-- Whatever the fingerprints and texts, `a p a` does not make `p+` lead from `a` to
`a`. -/
theorem pathPairs_misses_loop :
    ¬∃ (fp : Term → Nat) (display : Term → String) (pairs : List TermPair),
      Returns (fun fuel => pathPairs fp display fuel (storeDataset loopStore.quadStore) .default
        (.oneOrMore (.namedNode ⟨"p"⟩))) pairs ∧
      ∀ x y, (x, y) ∈ pairs ↔
        Denotes (edgesOf (selected loopStore.quads.toFinset .default)) (.oneOrMore (.namedNode ⟨"p"⟩)) x y := by
  rintro ⟨fp, display, pairs, hret, hexact⟩
  -- there is one node only
  have honly : ∀ x ∈ nodesOf (selected loopStore.quads.toFinset .default), x = .namedNode ⟨"a"⟩ := by
    decide +kernel
  have hinj : ∀ {κ : Type} (key : Term → κ),
      Set.InjOn key (nodesOf (selected loopStore.quads.toFinset .default)) :=
    fun key x hx y hy _ => (honly x hx).trans (honly y hy).symm
  obtain ⟨out, hout, hmem⟩ := pathPairs_generic (lists_storeDataset loopStore.serves .default) rfl (hinj fp)
    (hinj display) (.oneOrMore (.namedNode ⟨"p"⟩))
  have hloop : Denotes (edgesOf (selected loopStore.quads.toFinset .default)) (.oneOrMore (.namedNode ⟨"p"⟩))
      (.namedNode ⟨"a"⟩) (.namedNode ⟨"a"⟩) :=
    TransGen.single ⟨chainEdge "a" "a", by decide +kernel, rfl, rfl, rfl⟩
  have hin := (hexact _ _).mpr hloop
  rw [hret.unique hout, hmem] at hin
  exact hin.1 rfl

end Path

end Nova
