import Nova.Core.Ids
import Nova.Lib.Table

/-!
# Names

What the dictionary is for: a table that numbers terms and a table that numbers
graph names, both append-only. `Names.intern` and `Names.internGraph` say which
id a name gets and when the id space is full; `DictApi` lists the calls the
stores make, and `Implements` says that a dictionary answers them as the tables
do. Two names never share an id and an id never changes its name, because the
tables are `Table`s: an implementation is injective and stable by this
contract.

The contract has two reservations, because the dictionary of the source needs
them: a compaction is only promised where `CompactOk` holds, and in a sealed
dictionary (one with a compacted tier) the lookup of a quoted triple that was
never interned panics.
-/

namespace Nova

open Nova.Lib

def Term.isTriple : Term → Bool
  | .triple _ _ _ => true
  | _ => false

theorem Term.ne_triple_of_not_isTriple {t : Term} (h : t.isTriple = false) (s : Subject)
    (p : NamedNode) (o : Term) : t ≠ .triple s p o := by
  intro heq
  rw [heq] at h
  cases h

theorem Subject.toTerm_isTriple (s : Subject) : s.toTerm.isTriple = false := by
  cases s <;> rfl

/-- All terms ever interned, in id order. -/
abbrev TermTable := Table Term (maxTermId + 1)

/-- All graph names ever interned, in id order. -/
abbrev GraphTable := Table GraphName 256

/-! ## Terms -/

namespace TermTable

def idOf (T : TermTable) (t : Term) : Option TermId :=
  match T.find? t with
  | none => none
  | some i => (TermId.new i).toOption

variable {T : TermTable}

theorem idOf_eq_some {t : Term} {id : TermId} : T.idOf t = some id ↔ T.get? id.asU64 = some t := by
  rw [idOf]
  constructor
  · intro h
    cases hfind : T.find? t with
    | none =>
      rw [hfind] at h
      cases h
    | some i =>
      rw [hfind] at h
      simp only at h
      cases hnew : TermId.new i with
      | error e =>
        rw [hnew] at h
        cases h
      | ok id' =>
        rw [hnew] at h
        have hid : id' = id := Option.some.inj h
        rw [← hid, TermId.new_eq_ok hnew]
        exact Table.find?_eq_some.mp hfind
  · intro h
    rw [Table.find?_eq_some.mpr h]
    simp [Except.toOption]

/-- One term, whatever is nested in it. -/
def internOne (T : TermTable) (t : Term) : Except Oxigraph TermId × TermTable :=
  match T.intern t with
  | (some i, T') => (TermId.new i, T')
  | (none, T') => (.error .idSpaceExhausted, T')

/-- A term: what is nested in a new one is interned first. -/
def internTerm (T : TermTable) : Term → Except Oxigraph TermId × TermTable
  | .triple s p o =>
    match T.idOf (.triple s p o) with
    | some id => (.ok id, T)
    | none =>
      match T.internOne s.toTerm with
      | (.error e, T) => (.error e, T)
      | (.ok _, T) =>
        match T.internOne (.namedNode p) with
        | (.error e, T) => (.error e, T)
        | (.ok _, T) =>
          match T.internTerm o with
          | (.error e, T) => (.error e, T)
          | (.ok _, T) => T.internOne (.triple s p o)
  | .namedNode n => T.internOne (.namedNode n)
  | .blankNode b => T.internOne (.blankNode b)
  | .literal l => T.internOne (.literal l)

theorem internOne_known {t : Term} {id : TermId} (h : T.get? id.asU64 = some t) :
    T.internOne t = (.ok id, T) := by
  rw [internOne, Table.intern_known h]
  simp

theorem internOne_new {t : Term} (hnew : t ∉ T.items) (hroom : T.items.length < maxTermId + 1) :
    T.internOne t = (.ok ⟨T.items.length, Nat.le_of_lt_succ hroom⟩, T.push t hnew hroom) := by
  rw [internOne, Table.intern_new hnew hroom]
  simp [TermId.new, Nat.le_of_lt_succ hroom]

theorem internOne_full {t : Term} (hnew : t ∉ T.items) (hfull : ¬T.items.length < maxTermId + 1) :
    T.internOne t = (.error .idSpaceExhausted, T) := by
  rw [internOne, Table.intern_full hnew hfull]

theorem le_internOne (T : TermTable) (t : Term) : T.Le (T.internOne t).2 := by
  have hle := T.le_intern t
  unfold internOne
  split
  · next heq => rwa [heq] at hle
  · next heq => rwa [heq] at hle

theorem get?_internOne {t : Term} {id : TermId} (h : (T.internOne t).1 = .ok id) :
    (T.internOne t).2.get? id.asU64 = some t := by
  unfold internOne at h ⊢
  split at h
  · next i T' heq =>
    have hget := Table.get?_intern (t := T) (a := t) (i := i) (by rw [heq])
    rw [heq] at hget
    rw [TermId.new_eq_ok h]
    exact hget
  · cases h

theorem internTerm_known (T : TermTable) {t : Term} {id : TermId} (h : T.get? id.asU64 = some t) :
    T.internTerm t = (.ok id, T) := by
  cases t with
  | triple s p o => rw [internTerm, idOf_eq_some.mpr h]
  | namedNode n => exact internOne_known h
  | blankNode b => exact internOne_known h
  | literal l => exact internOne_known h

/-- Interning only adds terms, also when it fails, and a term it returns an id
for has that id. -/
theorem internTerm_spec (t : Term) : ∀ T : TermTable,
    T.Le (T.internTerm t).2 ∧
      ∀ id, (T.internTerm t).1 = .ok id → (T.internTerm t).2.get? id.asU64 = some t := by
  induction t with
  | namedNode n => exact fun T => ⟨le_internOne T _, fun id => get?_internOne⟩
  | blankNode b => exact fun T => ⟨le_internOne T _, fun id => get?_internOne⟩
  | literal l => exact fun T => ⟨le_internOne T _, fun id => get?_internOne⟩
  | triple s p o ih =>
    intro T
    rw [internTerm]
    split
    · -- known
      next id hid =>
      refine ⟨T.le_refl, ?_⟩
      intro id' heq
      cases heq
      exact idOf_eq_some.mp hid
    · have hs := le_internOne T s.toTerm
      split
      · -- the subject does not fit
        next heq =>
        rw [heq] at hs
        exact ⟨hs, fun _ h => by cases h⟩
      · next Ts heq =>
        rw [heq] at hs
        have hp := le_internOne Ts (.namedNode p)
        split
        · -- the predicate does not fit
          next heq =>
          rw [heq] at hp
          exact ⟨hs.trans hp, fun _ h => by cases h⟩
        · next Tp heq =>
          rw [heq] at hp
          have ho := (ih Tp).1
          split
          · -- the object does not fit
            next heq =>
            rw [heq] at ho
            exact ⟨(hs.trans hp).trans ho, fun _ h => by cases h⟩
          · next To heq =>
            rw [heq] at ho
            exact ⟨((hs.trans hp).trans ho).trans (le_internOne To _), fun id => get?_internOne⟩

end TermTable

/-! ## Terms and graphs -/

structure Names where
  terms : TermTable
  graphs : GraphTable
  /-- A compaction has moved terms out of the tables. -/
  isSealed : Bool

namespace Names

/-- Only the default graph has a name from the start. -/
def empty : Names where
  terms := ⟨[], .nil, Nat.zero_le _⟩
  graphs := ⟨[.defaultGraph], by simp, by simp⟩
  isSealed := false

/-- Names are only ever added. -/
def Le (n n' : Names) : Prop := n.terms.Le n'.terms ∧ n.graphs.Le n'.graphs

theorem le_refl (n : Names) : n.Le n := ⟨n.terms.le_refl, n.graphs.le_refl⟩

variable {n : Names}

variable {n' : Names}

theorem Le.trans {n'' : Names} (h : n.Le n') (h' : n'.Le n'') : n.Le n'' :=
  ⟨h.1.trans h'.1, h.2.trans h'.2⟩

/-- The same names after a compaction. -/
def withSealed (n : Names) (b : Bool) : Names := { n with isSealed := b }

theorem le_withSealed (n : Names) (b : Bool) : n.Le (n.withSealed b) := ⟨n.terms.le_refl, n.graphs.le_refl⟩

def termId (n : Names) (t : Term) : Option TermId := n.terms.idOf t

def term (n : Names) (id : TermId) : Option Term := n.terms.get? id.asU64

/-- What `get_id` answers. -/
def getId (n : Names) (t : Term) : Except Panic (Option TermId) :=
  match n.termId t with
  | some id => .ok (some id)
  | none =>
    if t.isTriple && n.isSealed then
      .error (.unreachable "quoted triples never enter the compacted FC tier")
    else .ok none

def graphId (n : Names) (g : GraphName) : Option GraphId := (n.graphs.find? g).map UInt8.ofNat

def graph (n : Names) (id : GraphId) : Option GraphName := n.graphs.get? id.toNat

def intern (n : Names) (t : Term) : Except Oxigraph TermId × Names :=
  let (r, terms) := n.terms.internTerm t
  (r, { n with terms := terms })

def internGraph (n : Names) (g : GraphName) : Except Oxigraph GraphId × Names :=
  match n.graphs.intern g with
  | (some i, graphs) => (.ok (UInt8.ofNat i), { n with graphs := graphs })
  | (none, graphs) => (.error .graphSpaceExhausted, { n with graphs := graphs })

theorem termId_eq_some {t : Term} {id : TermId} : n.termId t = some id ↔ n.term id = some t :=
  TermTable.idOf_eq_some

variable {g : GraphName}

theorem graphId_eq_some {id : GraphId} : n.graphId g = some id ↔ n.graph id = some g := by
  unfold graphId graph
  constructor
  · intro h
    rcases Option.map_eq_some_iff.mp h with ⟨i, hi, hid⟩
    have hget := Table.find?_eq_some.mp hi
    have hlt : i < 256 := Table.lt_of_get? hget
    rw [← hid, UInt8.toNat_ofNat', Nat.mod_eq_of_lt (by omega)]
    exact hget
  · intro h
    rw [Table.find?_eq_some.mpr h]
    simp

theorem term_of_le (h : n.Le n') {id : TermId} {t : Term} (hid : n.term id = some t) : n'.term id = some t :=
  Table.get?_of_le h.1 hid

theorem graph_of_le (h : n.Le n') {id : GraphId} (hid : n.graph id = some g) : n'.graph id = some g :=
  Table.get?_of_le h.2 hid

theorem le_intern (n : Names) (t : Term) : n.Le (n.intern t).2 :=
  ⟨(TermTable.internTerm_spec t n.terms).1, n.graphs.le_refl⟩

theorem term_intern {t : Term} {id : TermId} (h : (n.intern t).1 = .ok id) :
    (n.intern t).2.term id = some t :=
  (TermTable.internTerm_spec t n.terms).2 id h

theorem le_internGraph (n : Names) (g : GraphName) : n.Le (n.internGraph g).2 := by
  have hle := n.graphs.le_intern g
  unfold internGraph
  split
  · next heq =>
    rw [heq] at hle
    exact ⟨n.terms.le_refl, hle⟩
  · next heq =>
    rw [heq] at hle
    exact ⟨n.terms.le_refl, hle⟩

theorem graph_internGraph {id : GraphId}
    (h : (n.internGraph g).1 = .ok id) : (n.internGraph g).2.graph id = some g := by
  unfold internGraph at h ⊢
  split at h
  · next i graphs heq =>
    have hget := Table.get?_intern (t := n.graphs) (a := g) (i := i) (by rw [heq])
    rw [heq] at hget
    have hlt := Table.lt_of_get? hget
    cases h
    simp only [graph, UInt8.toNat_ofNat', Nat.mod_eq_of_lt hlt]
    exact hget
  · cases h

/-! ## Quads -/

/-- The ids of a quad's graph, subject, predicate and object. -/
def quadIds (n : Names) (q : Quad) : Option (GraphId × TermId × TermId × TermId) := do
  let g ← n.graphId q.graphName
  let s ← n.termId q.subject.toTerm
  let p ← n.termId (.namedNode q.predicate)
  let o ← n.termId q.object
  return (g, s, p, o)

/-- The ids of a quad as the stores look them up: `none` at the first unknown
name, and a panic where `getId` panics. -/
def lookupQuad (n : Names) (q : Quad) :
    Except Panic (Option (GraphId × TermId × TermId × TermId)) :=
  match n.graphId q.graphName with
  | none => .ok none
  | some g =>
    match n.getId q.subject.toTerm with
    | .error p => .error p
    | .ok none => .ok none
    | .ok (some s) =>
      match n.getId (.namedNode q.predicate) with
      | .error p => .error p
      | .ok none => .ok none
      | .ok (some p) =>
        match n.getId q.object with
        | .error p => .error p
        | .ok none => .ok none
        | .ok (some o) => .ok (some (g, s, p, o))

/-- The packed key of a quad all of whose names are known. -/
def keyOf (n : Names) (q : Quad) : Option Nat := do
  let (g, s, p, o) ← n.quadIds q
  return packQuad g s p o

/-- Interning a quad: the graph first, then subject, predicate and object; the
first name that does not fit ends it. -/
def internQuad (n : Names) (q : Quad) :
    Except Oxigraph (GraphId × TermId × TermId × TermId) × Names :=
  match n.internGraph q.graphName with
  | (.error e, n) => (.error e, n)
  | (.ok g, n) =>
    match n.intern q.subject.toTerm with
    | (.error e, n) => (.error e, n)
    | (.ok s, n) =>
      match n.intern (.namedNode q.predicate) with
      | (.error e, n) => (.error e, n)
      | (.ok p, n) =>
        match n.intern q.object with
        | (.error e, n) => (.error e, n)
        | (.ok o, n) => (.ok (g, s, p, o), n)

variable {q : Quad}

theorem quadIds_eq_some {g : GraphId} {s p o : TermId} :
    n.quadIds q = some (g, s, p, o) ↔ n.graph g = some q.graphName ∧
      n.term s = some q.subject.toTerm ∧ n.term p = some (.namedNode q.predicate) ∧
      n.term o = some q.object := by
  simp only [quadIds, Option.bind_eq_bind, Option.pure_def, Option.bind_eq_some_iff,
    Option.some.injEq, Prod.mk.injEq, ← graphId_eq_some, ← termId_eq_some]
  constructor
  · intro h
    rcases h with ⟨g', hg, s', hs, p', hp, o', ho, rfl, rfl, rfl, rfl⟩
    exact ⟨hg, hs, hp, ho⟩
  · intro h
    rcases h with ⟨hg, hs, hp, ho⟩
    exact ⟨g, hg, s, hs, p, hp, o, ho, rfl, rfl, rfl, rfl⟩

theorem keyOf_eq_some {k : Nat} :
    n.keyOf q = some k ↔ ∃ g s p o, n.quadIds q = some (g, s, p, o) ∧ packQuad g s p o = k := by
  simp [keyOf, Option.bind_eq_some_iff]

theorem getId_cases (n : Names) (t : Term) :
    n.getId t = .ok (n.termId t) ∨ n.termId t = none ∧ n.isSealed = true ∧ ∃ p, n.getId t = .error p := by
  unfold getId
  cases n.termId t with
  | some id => exact .inl rfl
  | none =>
    simp only
    split
    · next hpanic =>
      rw [Bool.and_eq_true] at hpanic
      exact .inr ⟨trivial, hpanic.2, _, rfl⟩
    · exact .inl rfl

/-- A lookup finds the ids of a quad whose names are known; else it finds
nothing, or panics in sealed names. -/
theorem lookupQuad_cases (n : Names) (q : Quad) :
    n.lookupQuad q = .ok (n.quadIds q) ∨
      n.quadIds q = none ∧ n.isSealed = true ∧ ∃ p, n.lookupQuad q = .error p := by
  unfold lookupQuad quadIds
  cases n.graphId q.graphName with
  | none => exact .inl rfl
  | some g =>
    rcases n.getId_cases q.subject.toTerm with hs | ⟨hs, hsealed, p, hpanic⟩
    · rw [hs]
      cases n.termId q.subject.toTerm with
      | none => exact .inl rfl
      | some sId =>
        rcases n.getId_cases (.namedNode q.predicate) with hp | ⟨hp, hsealed, p, hpanic⟩
        · rw [hp]
          cases n.termId (.namedNode q.predicate) with
          | none => exact .inl rfl
          | some pId =>
            rcases n.getId_cases q.object with ho | ⟨ho, hsealed, p, hpanic⟩
            · rw [ho]
              cases n.termId q.object with
              | none => exact .inl rfl
              | some oId => exact .inl rfl
            · exact .inr ⟨by rw [ho]; rfl, hsealed, p, by rw [hpanic]⟩
        · exact .inr ⟨by rw [hp]; rfl, hsealed, p, by rw [hpanic]⟩
    · exact .inr ⟨by rw [hs]; rfl, hsealed, p, by rw [hpanic]⟩

theorem lookupQuad_known {ids : GraphId × TermId × TermId × TermId}
    (h : n.quadIds q = some ids) : n.lookupQuad q = .ok (some ids) := by
  rcases n.lookupQuad_cases q with hr | ⟨hnone, -⟩
  · rw [hr, h]
  · rw [h] at hnone
    cases hnone

theorem lookupQuad_unsealed (h : n.isSealed = false) (q : Quad) : n.lookupQuad q = .ok (n.quadIds q) := by
  rcases n.lookupQuad_cases q with hr | ⟨-, hsealed, -⟩
  · exact hr
  · rw [h] at hsealed
    cases hsealed

theorem keyOf_eq_none : n.keyOf q = none ↔ n.quadIds q = none := by
  rw [keyOf]
  cases n.quadIds q with
  | none => simp
  | some ids => simp

theorem quadIds_of_le (h : n.Le n')
    {ids : GraphId × TermId × TermId × TermId} (hq : n.quadIds q = some ids) : n'.quadIds q = some ids := by
  rcases ids with ⟨g, s, p, o⟩
  rw [quadIds_eq_some] at hq ⊢
  rcases hq with ⟨hg, hs, hp, ho⟩
  exact ⟨graph_of_le h hg, term_of_le h hs, term_of_le h hp, term_of_le h ho⟩

theorem keyOf_of_le (h : n.Le n') {k : Nat} (hq : n.keyOf q = some k) : n'.keyOf q = some k := by
  rw [keyOf_eq_some] at hq ⊢
  rcases hq with ⟨g, s, p, o, hids, hk⟩
  exact ⟨g, s, p, o, quadIds_of_le h hids, hk⟩

theorem keyOf_inj {q' : Quad} {k : Nat} (h : n.keyOf q = some k) (h' : n.keyOf q' = some k) : q = q' := by
  rw [keyOf_eq_some] at h h'
  rcases h with ⟨g, s, p, o, hids, hk⟩
  rcases h' with ⟨g', s', p', o', hids', hk'⟩
  rcases packQuad_injective (hk.trans hk'.symm) with ⟨rfl, rfl, rfl, rfl⟩
  rw [quadIds_eq_some] at hids hids'
  rcases hids with ⟨hg, hs, hp, ho⟩
  rcases hids' with ⟨hg', hs', hp', ho'⟩
  rw [hg] at hg'
  rw [hs] at hs'
  rw [hp] at hp'
  rw [ho] at ho'
  rcases q with ⟨qs, qp, qo, qg⟩
  rcases q' with ⟨qs', qp', qo', qg'⟩
  simp only [Option.some.injEq, Term.namedNode.injEq] at hg' hs' hp' ho'
  rw [Subject.toTerm_injective hs', hp', ho', hg']

/-- Interning a quad only adds names, also when it fails, and makes its ids
known. -/
theorem internQuad_spec (n : Names) (q : Quad) :
    n.Le (n.internQuad q).2 ∧
      ∀ ids, (n.internQuad q).1 = .ok ids → (n.internQuad q).2.quadIds q = some ids := by
  unfold internQuad
  split
  · next e n₁ h₁ =>
    have hle := n.le_internGraph q.graphName
    rw [h₁] at hle
    exact ⟨hle, fun _ h => by cases h⟩
  -- the graph first, then subject, predicate and object; each step may be the last
  · next g n₁ h₁ =>
    have hle₁ := n.le_internGraph q.graphName
    have hg := @graph_internGraph n q.graphName g (by rw [h₁])
    rw [h₁] at hle₁ hg
    split
    · next e n₂ h₂ =>
      have hle := n₁.le_intern q.subject.toTerm
      rw [h₂] at hle
      exact ⟨hle₁.trans hle, fun _ h => by cases h⟩
    · next s n₂ h₂ =>
      have hle₂ := n₁.le_intern q.subject.toTerm
      have hs := @term_intern n₁ q.subject.toTerm s (by rw [h₂])
      rw [h₂] at hle₂ hs
      split
      · next e n₃ h₃ =>
        have hle := n₂.le_intern (.namedNode q.predicate)
        rw [h₃] at hle
        exact ⟨(hle₁.trans hle₂).trans hle, fun _ h => by cases h⟩
      · next p n₃ h₃ =>
        have hle₃ := n₂.le_intern (.namedNode q.predicate)
        have hp := @term_intern n₂ (.namedNode q.predicate) p (by rw [h₃])
        rw [h₃] at hle₃ hp
        split
        · next e n₄ h₄ =>
          have hle := n₃.le_intern q.object
          rw [h₄] at hle
          exact ⟨((hle₁.trans hle₂).trans hle₃).trans hle, fun _ h => by cases h⟩
        · next o n₄ h₄ =>
          have hle₄ := n₃.le_intern q.object
          have ho := @term_intern n₃ q.object o (by rw [h₄])
          rw [h₄] at hle₄ ho
          refine ⟨((hle₁.trans hle₂).trans hle₃).trans hle₄, ?_⟩
          intro ids heq
          cases heq
          rw [quadIds_eq_some]
          refine ⟨graph_of_le ((hle₂.trans hle₃).trans hle₄) hg, ?_, ?_, ho⟩
          · exact term_of_le (hle₃.trans hle₄) hs
          · exact term_of_le hle₄ hp

theorem internGraph_isSealed (n : Names) (g : GraphName) :
    (n.internGraph g).2.isSealed = n.isSealed := by
  unfold internGraph
  split <;> rfl

theorem intern_isSealed (n : Names) (t : Term) : (n.intern t).2.isSealed = n.isSealed := rfl

theorem internQuad_isSealed (n : Names) (q : Quad) : (n.internQuad q).2.isSealed = n.isSealed := by
  have hg := n.internGraph_isSealed q.graphName
  unfold internQuad
  split
  · next h₁ =>
    rw [h₁] at hg
    exact hg
  · next n₁ h₁ =>
    rw [h₁] at hg
    have hs := n₁.intern_isSealed q.subject.toTerm
    split
    · next h₂ =>
      rw [h₂] at hs
      exact hs.trans hg
    · next n₂ h₂ =>
      rw [h₂] at hs
      have hp := n₂.intern_isSealed (.namedNode q.predicate)
      split
      · next h₃ =>
        rw [h₃] at hp
        exact (hp.trans hs).trans hg
      · next n₃ h₃ =>
        rw [h₃] at hp
        have ho := n₃.intern_isSealed q.object
        split <;> next h₄ =>
          rw [h₄] at ho
          exact ((ho.trans hp).trans hs).trans hg

/-- Interning quads one after another, up to the first that does not fit. -/
def internQuads (n : Names) : List Quad → Except Oxigraph Unit × Names
  | [] => (.ok (), n)
  | q :: rest =>
    match n.internQuad q with
    | (.error e, n) => (.error e, n)
    | (.ok _, n) => n.internQuads rest

end Names

/-! ## Dictionaries -/

/-- The calls the stores make to a dictionary. A call may panic; one that changes
the dictionary returns it, also with an error. -/
structure DictApi (D : Type) where
  intern : D → Term → Except Panic (Except Oxigraph TermId × D)
  getId : D → Term → Except Panic (Option TermId)
  getTermArc : D → TermId → Except Panic (Option Term × D)
  internGraph : D → GraphName → Except Oxigraph GraphId × D
  getGraphId : D → GraphName → Option GraphId
  getGraph : D → GraphId → Option GraphName
  compact : D → Except Panic (Except Oxigraph Unit × D)

/-- A dictionary that answers as the tables of names do: `Knows d n` says which
names `d` holds. -/
structure Implements {D : Type} (A : DictApi D) (Knows : D → Names → Prop)
    (CompactOk : Names → Prop) : Prop where
  intern : ∀ d n t, Knows d n →
    ∃ d', A.intern d t = .ok ((n.intern t).1, d') ∧ Knows d' (n.intern t).2
  getId : ∀ d n t, Knows d n → A.getId d t = n.getId t
  getTermArc : ∀ d n id, Knows d n → ∃ d', A.getTermArc d id = .ok (n.term id, d') ∧ Knows d' n
  internGraph : ∀ d n g, Knows d n →
    ∃ d', A.internGraph d g = ((n.internGraph g).1, d') ∧ Knows d' (n.internGraph g).2
  getGraphId : ∀ d n g, Knows d n → A.getGraphId d g = n.graphId g
  getGraph : ∀ d n id, Knows d n → A.getGraph d id = n.graph id
  compact : ∀ d n, Knows d n → CompactOk n →
    ∃ d' b, A.compact d = .ok (.ok (), d') ∧ Knows d' (n.withSealed b)

/-- The tables themselves as a dictionary, never sealed. -/
def tableApi : DictApi Names where
  intern n t := .ok (n.intern t)
  getId := Names.getId
  getTermArc n id := .ok (n.term id, n)
  internGraph := Names.internGraph
  getGraphId := Names.graphId
  getGraph := Names.graph
  compact n := .ok (.ok (), n)

theorem tableApi_implements : Implements tableApi (fun d n => d = n ∧ n.isSealed = false) fun _ => True where
  intern := by
    intro d n t h
    rcases h with ⟨rfl, h⟩
    exact ⟨_, rfl, rfl, h⟩
  getId := by
    intro d n t h
    rw [h.1]
    rfl
  getTermArc := by
    intro d n id h
    rcases h with ⟨rfl, h⟩
    exact ⟨d, rfl, rfl, h⟩
  internGraph := by
    intro d n g h
    rcases h with ⟨rfl, h⟩
    exact ⟨_, rfl, rfl, (d.internGraph_isSealed g).trans h⟩
  getGraphId := by
    intro d n g h
    rw [h.1]
    rfl
  getGraph := by
    intro d n id h
    rw [h.1]
    rfl
  compact := by
    intro d n h _
    rcases h with ⟨rfl, h⟩
    exact ⟨d, d.isSealed, rfl, rfl, h⟩

end Nova
