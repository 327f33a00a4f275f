import Nova.Query.Path
import Nova.Reasoning.Entailment

/-!
# What the engine infers

`Backs` is what the engine needs of a dataset: `find_quads` answers for the live
quads, the join scans for a set of compacted rows, and both use one numbering of
the terms. The run starts from the triples that the scans see and from the seed,
which is live (`visible`); if every rule instance among them has a seeded premise,
`infer` returns their consequences (`infer_visible`). `infer_returns`: where the
triples that only one of the two views has are the premise of no rule instance, it
returns what the rules derive from the live quads of all graphs and is no live
triple, each quad once.
-/

namespace Nova.Reasoning

open Nova Nova.Lib Nova.Lib.SemiNaive List

/-! ## The contract of a dataset -/

/-- Ids of terms, below the synthetic ones. -/
structure Numbering where
  idOf : Term → Option Nat
  termOf : Nat → Option Term
  idOf_eq_some : ∀ t id, idOf t = some id ↔ termOf id = some t
  small : ∀ id t, termOf id = some t → id < syntheticIdBase

/-- A term whose lookup returns. -/
def Numbering.Asks (num : Numbering) (t : Term) : Prop := Askable (fun t => num.idOf t ≠ none) t

def tripleOf (q : Quad) : Triple := ⟨q.subject.toTerm, .namedNode q.predicate, q.object⟩

/-- The RDF merge of the graphs. -/
def merge (S : Finset Quad) : Set Triple := {t | ∃ q ∈ S, tripleOf q = t}

structure Backs (ds : Dataset) (num : Numbering) (live : Finset Quad) (compacted : Finset Row) : Prop where
  lftj : ds.supportsLftj = true
  find : ∀ pattern, (∀ t, pattern.subject = .bound t → num.Asks t) →
    (∀ t, pattern.object = .bound t → num.Asks t) →
    ∃ qs : List Quad, ds.findQuads pattern = .ok (qs.map Quad.found) ∧ qs.Nodup ∧
      ∀ q, q ∈ qs ↔ q ∈ selected live pattern.graph ∧ FindMatches pattern q
  intern : ∀ t, num.Asks t → ds.lftjInternTerm t = .ok (num.idOf t)
  decode : ∀ id, ds.lftjDecodeTerm id = .ok (num.termOf id)
  known : ∀ q ∈ live, num.idOf q.subject.toTerm ≠ none ∧ num.idOf (.namedNode q.predicate) ≠ none ∧
    num.idOf q.object ≠ none
  scans : ∃ named, ds.namedGraphs = .ok named ∧
    Scans (datasetAtomSource ds (.default :: named.map .named)) (· ∈ compacted)
  rows : ∀ row ∈ compacted, ∀ i, num.termOf (row.get i) ≠ none

/-! ## Ids of the vocabulary -/

theorem Vocab.mem_all (v : Vocab) : v ∈ Vocab.all := by cases v <;> decide

theorem Vocab.term_injective : Function.Injective Vocab.term := by
  intro v w h
  cases v <;> cases w <;> first | rfl | exact absurd h (by decide)

/-- What resolving part of the vocabulary does: known terms keep their ids, the
others get new synthetic ones. -/
structure Resolves (num : Numbering) (vs : List Vocab) (res res' : TermResolver) (k : Vocab → Nat) :
    Prop where
  le : res.nextSynthetic ≤ res'.nextSynthetic
  few : res'.nextSynthetic ≤ res.nextSynthetic + vs.length
  kept : ∀ id < res.nextSynthetic, res'.synthetic.lookup id = res.synthetic.lookup id
  known : ∀ v ∈ vs, ∀ id, num.idOf v.term = some id → k v = id
  minted : ∀ v ∈ vs, num.idOf v.term = none → res'.synthetic.lookup (k v) = some v.term
  only : ∀ id t, res'.synthetic.lookup id = some t → res.synthetic.lookup id = some t ∨
    res.nextSynthetic ≤ id ∧ id < res'.nextSynthetic ∧
      ∃ v ∈ vs, t = v.term ∧ num.idOf t = none ∧ k v = id

variable {res : TermResolver}

variable {id : Nat}

section Resolver

variable {ds : Dataset} {num : Numbering} {live : Finset Quad} {compacted : Finset Row}
  (h : Backs ds num live compacted)

include h

theorem resolve_known {t : Term} (hid : num.idOf t = some id) : res.resolve ds t = .ok (id, res) := by
  have hasks : num.Asks t := fun _ => ne_of_eq_of_ne hid (Option.some_ne_none id)
  rw [TermResolver.resolve, h.intern t hasks, hid]
  rfl

/-- Each word of the vocabulary gets its id, or the next synthetic one. -/
theorem resolveVocab_ok (vs : List Vocab) : vs.Nodup → ∀ res : TermResolver,
    (∀ id t, res.synthetic.lookup id = some t → id < res.nextSynthetic) →
    ∃ k res', TermResolver.resolveVocab ds res vs = .ok (k, res') ∧ Resolves num vs res res' k := by
  induction vs with
  | nil =>
    intro _ res _
    refine ⟨_, _, rfl, Nat.le_refl _, Nat.le_refl _, fun _ _ => rfl, ?_, ?_, fun _ _ => .inl⟩
    all_goals exact nofun
  | cons v vs ih =>
    intro hnodup res hres
    rcases nodup_cons.mp hnodup with ⟨hv, hnodup⟩
    have hne : ∀ w ∈ vs, w ≠ v := fun w hw heq => hv (heq ▸ hw)
    cases hid : num.idOf v.term with
    | some id =>
      rcases ih hnodup res hres with ⟨k, res', hr, hk⟩
      refine ⟨fun w => if w = v then id else k w, res', ?_, hk.le, ?_, hk.kept, ?_, ?_, ?_⟩
      · have hone : res.resolve ds (.namedNode v.node) = .ok (id, res) := resolve_known h hid
        simp only [TermResolver.resolveVocab, hone, hr, ok_bind]
        rfl
      · have hfew := hk.few
        simp only [length_cons]
        omega
      · intro w hw id' hid'
        rcases mem_cons.mp hw with rfl | hw
        · rw [if_pos rfl]
          rw [hid] at hid'
          exact Option.some.inj hid'
        · rw [if_neg (hne w hw)]
          exact hk.known w hw id' hid'
      · intro w hw hnone
        rcases mem_cons.mp hw with rfl | hw
        · rw [hid] at hnone
          cases hnone
        · rw [if_neg (hne w hw)]
          exact hk.minted w hw hnone
      · intro id' t ht
        rcases hk.only id' t ht with hold | ⟨hle, hlt, w, hw, hrest⟩
        · exact .inl hold
        · refine .inr ⟨hle, hlt, w, mem_cons_of_mem _ hw, ?_⟩
          rwa [if_neg (hne w hw)]
    | none =>
      -- the term gets the next synthetic id
      have hfresh : ∀ id t, List.lookup id ((res.nextSynthetic, v.term) :: res.synthetic) = some t →
          id < res.nextSynthetic + 1 := by
        intro id t ht
        rw [lookup_cons] at ht
        split at ht
        · next heq => have := eq_of_beq heq; omega
        · have := hres id t ht; omega
      rcases ih hnodup ⟨(res.nextSynthetic, v.term) :: res.synthetic, res.nextSynthetic + 1⟩ hfresh with
        ⟨k, res', hr, hk⟩
      have hlookup : ∀ id ≠ res.nextSynthetic,
          List.lookup id ((res.nextSynthetic, v.term) :: res.synthetic) = res.synthetic.lookup id := by
        intro id hne
        rw [lookup_cons, beq_false_of_ne hne]
      have hself : res'.synthetic.lookup res.nextSynthetic = some v.term := by
        rw [hk.kept _ (Nat.lt_succ_self _), lookup_cons, beq_self_eq_true]
      have hle := hk.le
      have hfew := hk.few
      simp only at hle hfew
      refine ⟨fun w => if w = v then res.nextSynthetic else k w, res', ?_, by omega, ?_, ?_, ?_, ?_, ?_⟩
      · have hone : res.resolve ds (.namedNode v.node) = .ok (res.nextSynthetic,
            ⟨(res.nextSynthetic, v.term) :: res.synthetic, res.nextSynthetic + 1⟩) := by
          have hasks : num.Asks v.term := fun htriple => by cases htriple
          have hintern : ds.lftjInternTerm (.namedNode v.node) = .ok none := by
            rw [← hid]
            exact h.intern _ hasks
          rw [TermResolver.resolve, hintern]
          rfl
        simp only [TermResolver.resolveVocab, hone, hr, ok_bind]
        rfl
      · simp only [length_cons]
        omega
      · intro id hlt
        rw [hk.kept id (by simp only; omega), hlookup id (by omega)]
      · intro w hw id' hid'
        rcases mem_cons.mp hw with rfl | hw
        · rw [hid] at hid'
          cases hid'
        · rw [if_neg (hne w hw)]
          exact hk.known w hw id' hid'
      · intro w hw hnone
        rcases mem_cons.mp hw with rfl | hw
        · rw [if_pos rfl]
          exact hself
        · rw [if_neg (hne w hw)]
          exact hk.minted w hw hnone
      · intro id t ht
        rcases hk.only id t ht with hold | ⟨hge, hlt, w, hw, hrest⟩
        · by_cases heq : id = res.nextSynthetic
          · subst heq
            rw [lookup_cons, beq_self_eq_true] at hold
            have ht := Option.some.inj hold
            refine .inr ⟨Nat.le_refl _, by omega, v, mem_cons_self, ht.symm, ?_, if_pos rfl⟩
            rw [← ht]
            exact hid
          · rw [hlookup id heq] at hold
            exact .inl hold
        · simp only at hge
          refine .inr ⟨by omega, hlt, w, mem_cons_of_mem _ hw, ?_⟩
          rwa [if_neg (hne w hw)]

end Resolver

/-- Ids for all terms that the engine meets, and their terms. -/
structure Coding (num : Numbering) (k : Vocab → Nat) (enc : Term → Nat) (dec : Nat → Option Term) :
    Prop where
  enc_vocab : ∀ v : Vocab, enc v.term = k v
  dec_vocab : ∀ v, dec (k v) = some v.term
  enc_known : ∀ t id, num.idOf t = some id → enc t = id
  dec_known : ∀ id t, num.termOf id = some t → dec id = some t
  enc_dec : ∀ id t, dec id = some t → enc t = id
  small : ∀ id t, dec id = some t → id < u64Max
  asks : ∀ id t, dec id = some t → num.Asks t

def encoder (num : Numbering) (k : Vocab → Nat) (t : Term) : Nat :=
  (num.idOf t).getD ((Vocab.all.find? fun v => v.term = t).elim 0 k)

def decoder (num : Numbering) (res : TermResolver) (id : Nat) : Option Term :=
  match res.synthetic.lookup id with
  | some t => some t
  | none => num.termOf id

theorem find_vocab (v : Vocab) : (Vocab.all.find? fun w => w.term = v.term) = some v := by
  rw [find?_eq_some_iff_append]
  refine ⟨by simp, ?_⟩
  rcases append_of_mem v.mem_all with ⟨as, bs, hall⟩
  refine ⟨as, bs, hall, ?_⟩
  intro w hw
  have hnodup : Vocab.all.Nodup := by decide
  rw [hall, nodup_append] at hnodup
  have hne : w ≠ v := hnodup.2.2 w hw v mem_cons_self
  simpa using fun heq => hne (Vocab.term_injective heq)

variable {num : Numbering}

/-- The vocabulary and the terms of the store are coded without a clash. -/
theorem Resolves.coding {k : Vocab → Nat}
    (h : Resolves num Vocab.all .new res k) : Coding num k (encoder num k) (decoder num res) := by
  -- a synthetic id is above the ids of terms and below the last key
  have honly : ∀ id t, res.synthetic.lookup id = some t → syntheticIdBase ≤ id ∧ id < u64Max ∧
      ∃ v : Vocab, t = v.term ∧ num.idOf t = none ∧ k v = id := by
    intro id t ht
    rcases h.only id t ht with hnone | ⟨hle, hlt, v, _, hv⟩
    · cases hnone
    · refine ⟨hle, ?_, v, hv⟩
      have hfew : res.nextSynthetic ≤ syntheticIdBase + 13 := h.few
      unfold syntheticIdBase at hfew
      unfold u64Max
      omega
  have hreal : ∀ id t, num.termOf id = some t → res.synthetic.lookup id = none := by
    intro id t ht
    cases hlook : res.synthetic.lookup id with
    | none => rfl
    | some t' =>
      have hge := (honly id t' hlook).1
      have hlt := num.small id t ht
      omega
  have henc : ∀ v : Vocab, encoder num k v.term = k v := by
    intro v
    rw [encoder, find_vocab]
    cases hid : num.idOf v.term with
    | some id => exact (h.known v v.mem_all id hid).symm
    | none => rfl
  have hdec : ∀ id t, num.termOf id = some t → decoder num res id = some t := by
    intro id t ht
    rw [decoder, hreal id t ht]
    exact ht
  refine ⟨henc, ?_, ?_, hdec, ?_, ?_, ?_⟩
  · intro v
    cases hid : num.idOf v.term with
    | some id =>
      rw [h.known v v.mem_all id hid]
      exact hdec id v.term ((num.idOf_eq_some _ _).mp hid)
    | none => rw [decoder, h.minted v v.mem_all hid]
  · intro t id hid
    rw [encoder, hid]
    rfl
  · intro id t ht
    unfold decoder at ht
    cases hlook : res.synthetic.lookup id with
    | some t' =>
      rw [hlook] at ht
      cases ht
      rcases (honly id t hlook).2.2 with ⟨v, rfl, _, hv⟩
      rw [henc, hv]
    | none =>
      rw [hlook] at ht
      rw [encoder, (num.idOf_eq_some _ _).mpr ht]
      rfl
  · intro id t ht
    unfold decoder at ht
    cases hlook : res.synthetic.lookup id with
    | some t' => exact (honly id t' hlook).2.1
    | none =>
      rw [hlook] at ht
      have hlt := num.small id t ht
      unfold syntheticIdBase at hlt
      unfold u64Max
      omega
  · intro id t ht htriple
    unfold decoder at ht
    cases hlook : res.synthetic.lookup id with
    | some t' =>
      rw [hlook] at ht
      cases ht
      rcases (honly id t hlook).2.2 with ⟨v, rfl, _⟩
      cases htriple
    | none =>
      rw [hlook] at ht
      exact ne_of_eq_of_ne ((num.idOf_eq_some _ _).mpr ht) (Option.some_ne_none id)

/-! ## The seed -/

section Seed

variable {ds : Dataset} {num : Numbering} {live : Finset Quad} {compacted : Finset Row}
  (h : Backs ds num live compacted) {k : Vocab → Nat} {enc : Term → Nat} {dec : Nat → Option Term}
  (hcode : Coding num k enc dec)

include h hcode

theorem resolve_live {t : Term} (ht : num.idOf t ≠ none) : res.resolve ds t = .ok (enc t, res) := by
  rcases Option.ne_none_iff_exists'.mp ht with ⟨id, hid⟩
  rw [hcode.enc_known t id hid]
  exact resolve_known h hid

theorem resolveMatches_live {qs : List Quad} (hqs : ∀ q ∈ qs, q ∈ live) :
    resolveMatches ds res (qs.map Quad.found) = .ok (qs.map fun q => (tripleOf q).encode enc, res) := by
  induction qs with
  | nil => rfl
  | cons q qs ih =>
    rcases forall_mem_cons.mp hqs with ⟨hq, hqs⟩
    rcases h.known q hq with ⟨hs, hp, ho⟩
    simp only [map_cons, resolveMatches, Quad.found, resolve_live h hcode hs,
      resolve_live h hcode hp, resolve_live h hcode ho, ok_bind]
    rw [ih hqs]
    rfl

theorem resolveEdges_live {p : NamedNode} {qs : List Quad} (hqs : ∀ q ∈ qs, q ∈ live ∧ q.predicate = p) :
    resolveEdges ds (enc (.namedNode p)) res (qs.map Quad.found) =
      .ok (qs.map fun q => (tripleOf q).encode enc, res) := by
  induction qs with
  | nil => rfl
  | cons q qs ih =>
    rcases forall_mem_cons.mp hqs with ⟨⟨hq, rfl⟩, hqs⟩
    rcases h.known q hq with ⟨hs, _, ho⟩
    simp only [map_cons, resolveEdges, Quad.found, resolve_live h hcode hs,
      resolve_live h hcode ho, ok_bind]
    rw [ih hqs]
    rfl

omit hcode in
theorem findEdges (p : NamedNode) : ∃ qs : List Quad, ds.findQuads (edgePattern p) = .ok (qs.map Quad.found) ∧
    ∀ q, q ∈ qs ↔ q ∈ live ∧ q.predicate = p := by
  rcases h.find (edgePattern p) (fun t ht => by cases ht) (fun t ht => by cases ht) with ⟨qs, hr, _, hmem⟩
  refine ⟨qs, hr, fun q => ?_⟩
  rw [hmem, selected, Finset.mem_filter]
  simp [edgePattern, FindMatches, graphMatches, eq_comm]

omit hcode in
theorem findDeclarations (c : Vocab) : ∃ qs : List Quad,
    ds.findQuads (declarationPattern c) = .ok (qs.map Quad.found) ∧
      ∀ q, q ∈ qs ↔ q ∈ live ∧ q.predicate = Vocab.rdfType.node ∧ q.object = c.term := by
  rcases h.find (declarationPattern c) (fun t ht => by cases ht)
    (fun t ht => by cases ht; exact fun htriple => by cases htriple) with ⟨qs, hr, _, hmem⟩
  refine ⟨qs, hr, fun q => ?_⟩
  rw [hmem, selected, Finset.mem_filter]
  simp [declarationPattern, FindMatches, graphMatches, Vocab.term, eq_comm]

theorem seedCore_ok (vs : List Vocab) (res : TermResolver) : ∃ rows, seedCore ds res vs = .ok (rows, res) ∧
    ∀ row, row ∈ rows ↔ ∃ q ∈ live, (∃ v ∈ vs, q.predicate = v.node) ∧ (tripleOf q).encode enc = row := by
  induction vs with
  | nil => exact ⟨[], rfl, by simp⟩
  | cons v vs ih =>
    rcases findEdges h v.node with ⟨qs, hfind, hqs⟩
    rcases ih with ⟨rows, hrows, hmem⟩
    refine ⟨(qs.map fun q => (tripleOf q).encode enc) ++ rows, ?_, ?_⟩
    · simp only [seedCore, hfind, ofStore, Except.mapError, ok_bind,
        resolveMatches_live h hcode fun q hq => ((hqs q).mp hq).1, hrows]
      rfl
    · intro row
      simp only [mem_append, mem_map, hqs, hmem, mem_cons, exists_eq_or_imp]
      constructor
      · rintro (⟨q, ⟨hq, hp⟩, rfl⟩ | ⟨q, hq, hv, rfl⟩)
        · exact ⟨q, hq, .inl hp, rfl⟩
        · exact ⟨q, hq, .inr hv, rfl⟩
      · rintro ⟨q, hq, hp | hv, rfl⟩
        · exact .inl ⟨q, ⟨hq, hp⟩, rfl⟩
        · exact .inr ⟨q, hq, hv, rfl⟩

/-- The seed has the triples whose predicate is declared to be of the class. -/
theorem seedDeclared_ok (c : Vocab) (name : String) (res : TermResolver) {ds' : List Quad}
    (hds : ∀ d ∈ ds', d ∈ live) :
    ∃ rows diagnostics, seedDeclared ds c name res (ds'.map Quad.found) = .ok (rows, diagnostics, res) ∧
      ∀ row, row ∈ rows ↔ ∃ q ∈ live, (∃ d ∈ ds', d.subject.toTerm = .namedNode q.predicate) ∧
        (tripleOf q).encode enc = row := by
  induction ds' with
  | nil => exact ⟨[], [], rfl, by simp⟩
  | cons d ds' ih =>
    rcases forall_mem_cons.mp hds with ⟨hd, hds⟩
    rcases ih hds with ⟨rows, diagnostics, hrest, hmem⟩
    have hsubj := (h.known d hd).1
    cases hs : d.subject with
    | namedNode p =>
      rcases findEdges h p with ⟨qs, hfind, hqs⟩
      have hp : res.resolve ds (.namedNode p) = .ok (enc (.namedNode p), res) := by
        rw [hs] at hsubj
        exact resolve_live h hcode hsubj
      refine ⟨(qs.map fun q => (tripleOf q).encode enc) ++ rows, diagnostics, ?_, ?_⟩
      · rw [map_cons, seedDeclared]
        simp only [Quad.found, hs, Subject.toTerm, hp, hfind, ofStore, Except.mapError, ok_bind,
          resolveEdges_live h hcode fun q hq => (hqs q).mp hq]
        rw [hrest]
        rfl
      · intro row
        simp only [mem_append, mem_map, hqs, hmem, mem_cons, exists_eq_or_imp, hs,
          Subject.toTerm, Term.namedNode.injEq]
        constructor
        · rintro (⟨q, ⟨hq, hp⟩, rfl⟩ | ⟨q, hq, hv, rfl⟩)
          · exact ⟨q, hq, .inl hp.symm, rfl⟩
          · exact ⟨q, hq, .inr hv, rfl⟩
        · rintro ⟨q, hq, hp | hv, rfl⟩
          · exact .inl ⟨q, ⟨hq, hp.symm⟩, rfl⟩
          · exact .inr ⟨q, hq, hv, rfl⟩
    | blankNode b =>
      refine ⟨rows, .nonIriSubject name c (.blankNode b) :: diagnostics, ?_, ?_⟩
      · rw [map_cons, seedDeclared]
        simp only [Quad.found, hs, Subject.toTerm]
        rw [hrest]
        rfl
      · intro row
        rw [hmem]
        simp [hs, Subject.toTerm]

theorem seedClasses_ok (cs : List (Vocab × String)) (res : TermResolver) :
    ∃ rows diagnostics, seedClasses ds res cs = .ok (rows, diagnostics, res) ∧
      ∀ row, row ∈ rows ↔ ∃ q ∈ live, (∃ c ∈ cs, ∃ d ∈ live,
        tripleOf d = ⟨.namedNode q.predicate, Vocab.rdfType.term, c.1.term⟩) ∧
        (tripleOf q).encode enc = row := by
  induction cs with
  | nil => exact ⟨[], [], rfl, by simp⟩
  | cons c cs ih =>
    rcases c with ⟨c, name⟩
    rcases findDeclarations h c with ⟨decls, hfind, hdecls⟩
    rcases ih with ⟨rows, diagnostics, hrest, hmem⟩
    rcases seedDeclared_ok h hcode c name res fun d hd => ((hdecls d).mp hd).1 with
      ⟨rows', diagnostics', hone, hmem'⟩
    refine ⟨rows' ++ rows, diagnostics' ++ diagnostics, ?_, ?_⟩
    · simp only [seedClasses, hfind, ofStore, Except.mapError, ok_bind, hone, hrest]
      rfl
    · intro row
      have hdecl : ∀ q : Quad, (∃ d ∈ decls, d.subject.toTerm = .namedNode q.predicate) ↔
          ∃ d ∈ live, tripleOf d = ⟨.namedNode q.predicate, Vocab.rdfType.term, c.term⟩ := by
        intro q
        refine exists_congr fun d => ?_
        rw [hdecls]
        simp [tripleOf, Vocab.term]
        tauto
      simp only [mem_append, hmem, hmem', hdecl, mem_cons, exists_eq_or_imp]
      constructor
      · rintro (⟨q, hq, hd, rfl⟩ | ⟨q, hq, hc, rfl⟩)
        · exact ⟨q, hq, .inl hd, rfl⟩
        · exact ⟨q, hq, .inr hc, rfl⟩
      · rintro ⟨q, hq, hd | hc, rfl⟩
        · exact .inl ⟨q, hq, hd, rfl⟩
        · exact .inr ⟨q, hq, hc, rfl⟩

end Seed

/-- The triples that are seeded: those of the core predicates, and the edges of
declared properties. -/
def Seeded (T : Set Triple) (t : Triple) : Prop :=
  (∃ v ∈ corePredicates, t.predicate = v.term) ∨
    ∃ c ∈ declaredClasses, ⟨t.predicate, Vocab.rdfType.term, c.1.term⟩ ∈ T

/-- The triples that the engine starts from: what the join scans see, and the
seed. -/
def visible (T stored : Set Triple) : Set Triple := stored ∪ {t | t ∈ T ∧ Seeded T t}

variable {body : List Triple}

theorem exists_core_premise {a : Triple} (h : Entails body a) :
    ∃ t ∈ body, ∃ v ∈ corePredicates, t.predicate = v.term := by
  cases h <;> exact ⟨_, mem_cons_self, _, by decide, rfl⟩

/-! ## The closure -/

theorem engineRules_tidy (k : Vocab → Nat) : ∀ r ∈ engineRules k, r.tidy = true := by
  intro r hr
  simp only [engineRules, mem_cons, not_mem_nil, or_false] at hr
  rcases hr with rfl | rfl | rfl | rfl | rfl | rfl | rfl | rfl | rfl | rfl | rfl | rfl | rfl | rfl
  all_goals rfl

theorem engineRules_constants {k : Vocab → Nat}
    (h : id ∈ (engineRules k).flatMap fun r => r.head.constants) : ∃ v, id = k v := by
  rcases mem_flatMap.mp h with ⟨r, hr, hid⟩
  simp only [engineRules, mem_cons, not_mem_nil, or_false] at hr
  rcases hr with rfl | rfl | rfl | rfl | rfl | rfl | rfl | rfl | rfl | rfl | rfl | rfl | rfl | rfl
  all_goals simp [RuleAtom.constants, Rule.transitive, Rule.typePropagation, Rule.subpropertyPropagation,
    Rule.domain, Rule.range, Rule.transitiveProperty, Rule.symmetricProperty, Rule.equivalentClassForward,
    Rule.equivalentClassBackward, Rule.equivalentPropertyForward, Rule.equivalentPropertyBackward,
    Rule.inverseForward, Rule.inverseBackward] at hid
  all_goals exact ⟨_, hid⟩

/-- The triples of the compacted rows. -/
def stored (num : Numbering) (compacted : Finset Row) : Set Triple :=
  {t | ∃ row ∈ compacted, num.termOf row.s = some t.subject ∧ num.termOf row.p = some t.predicate ∧
    num.termOf row.o = some t.object}

/-- The triples of which only one of the two views knows. -/
def discord (T stored : Set Triple) : Set Triple := (stored \ T) ∪ (T \ visible T stored)

/-- No rule instance has a triple as premise of which only one view knows. -/
def Concordant (T stored : Set Triple) : Prop :=
  ∀ t ∈ discord T stored, Unused Entails (stored ∪ T) t

variable {T : Set Triple}

theorem concordant_of_subset {stored : Set Triple} (hsub : stored ⊆ T)
    (hvis : ∀ t ∈ T, t ∈ stored ∨ Seeded T t) : Concordant T stored := by
  rintro t (⟨hst, hnot⟩ | ⟨ht, hnot⟩)
  · exact absurd (hsub hst) hnot
  · exact absurd ((hvis t ht).imp_right fun hs => ⟨ht, hs⟩) hnot

/-- A rule instance among the visible triples has a seeded premise. -/
def Roused (T stored : Set Triple) : Prop :=
  ∀ body a, Entails body a → (∀ t ∈ body, t ∈ visible T stored) → ∃ t ∈ body, t ∈ T ∧ Seeded T t

theorem roused_of_core {stored : Set Triple}
    (hcore : ∀ t ∈ stored, (∃ v ∈ corePredicates, t.predicate = v.term) → t ∈ T) : Roused T stored := by
  intro body a hent hvis
  rcases exists_core_premise hent with ⟨t, ht, hv⟩
  refine ⟨t, ht, ?_, .inl hv⟩
  rcases hvis t ht with hst | ⟨hl, _⟩
  · exact hcore t hst hv
  · exact hl

theorem roused_of_concordant {stored : Set Triple} (hagree : Concordant T stored) : Roused T stored := by
  intro body a hent hvis
  have hder : ∀ t ∈ body, Derivable Entails (stored ∪ T) t := by
    intro t ht
    rcases hvis t ht with hst | ⟨hl, _⟩
    · exact .base (.inl hst)
    · exact .base (.inr hl)
  rcases exists_core_premise hent with ⟨t, ht, hcore⟩
  refine ⟨t, ht, ?_, .inl hcore⟩
  -- the premise is live, for else only the scans would know it
  by_contra hnot
  rcases hvis t ht with hst | ⟨hl, _⟩
  · exact hagree t (.inl ⟨hst, hnot⟩) _ _ hent hder ht
  · exact hnot hl

/-- Every id of the row has a term. -/
def Row.Decodes (dec : Nat → Option Term) (row : Row) : Prop := ∀ i, dec (row.get i) ≠ none

/-- The term of an id that has one. -/
def termAt (dec : Nat → Option Term) (id : Nat) : Term := (dec id).getD (.namedNode ⟨""⟩)

theorem termAt_of_some {dec : Nat → Option Term} {t : Term} (h : dec id = some t) : termAt dec id = t := by
  rw [termAt, h]
  rfl

variable {t : Triple} {row : Row}

section Closure

variable {num : Numbering} {live : Finset Quad} {compacted : Finset Row} {k : Vocab → Nat}
  {enc : Term → Nat} {dec : Nat → Option Term} (hcode : Coding num k enc dec) {seed : List Row}

/-- The terms of the triple come back from their ids. -/
def Triple.Coded (enc : Term → Nat) (dec : Nat → Option Term) (t : Triple) : Prop :=
  dec (enc t.subject) = some t.subject ∧ dec (enc t.predicate) = some t.predicate ∧
    dec (enc t.object) = some t.object

theorem Triple.Coded.decode_encode (h : t.Coded enc dec) :
    (t.encode enc).Decodes dec ∧ (t.encode enc).decode (termAt dec) = t := by
  rcases h with ⟨hs, hp, ho⟩
  constructor
  · intro i
    fin_cases i
    · exact ne_of_eq_of_ne hs (Option.some_ne_none _)
    · exact ne_of_eq_of_ne hp (Option.some_ne_none _)
    · exact ne_of_eq_of_ne ho (Option.some_ne_none _)
  · show Triple.mk _ _ _ = Triple.mk _ _ _
    rw [Triple.mk.injEq]
    exact ⟨termAt_of_some hs, termAt_of_some hp, termAt_of_some ho⟩

include hcode

theorem coded_of_entails {a : Triple} (h : Entails body a)
    (hbody : ∀ t ∈ body, t.Coded enc dec) : a.Coded enc dec := by
  have hvocab : ∀ v : Vocab, dec (enc v.term) = some v.term := by
    intro v
    rw [hcode.enc_vocab]
    exact hcode.dec_vocab v
  cases h <;>
    simp only [forall_mem_cons, not_mem_nil, false_implies, implies_true, and_true,
      Triple.Coded] at hbody ⊢ <;>
    simp only [hbody, hvocab, and_self]

theorem encode_decode (h : row.Decodes dec) : (row.decode (termAt dec)).encode enc = row := by
  have hid : ∀ i, enc (termAt dec (row.get i)) = row.get i := by
    intro i
    rcases Option.ne_none_iff_exists'.mp (h i) with ⟨t, ht⟩
    rw [termAt_of_some ht]
    exact hcode.enc_dec _ _ ht
  apply Row.ext_get
  intro i
  fin_cases i
  · exact hid 0
  · exact hid 1
  · exact hid 2

theorem dec_enc {t : Term} (h : num.idOf t ≠ none) : dec (enc t) = some t := by
  rcases Option.ne_none_iff_exists'.mp h with ⟨id, hid⟩
  rw [hcode.enc_known t id hid]
  exact hcode.dec_known id t ((num.idOf_eq_some _ _).mp hid)

section

variable (hlive : ∀ q ∈ live, num.idOf q.subject.toTerm ≠ none ∧ num.idOf (.namedNode q.predicate) ≠ none ∧
    num.idOf q.object ≠ none)
  (hrows : ∀ row ∈ compacted, ∀ i, num.termOf (row.get i) ≠ none)
  (hseed : ∀ row, row ∈ seed ↔ ∃ q ∈ live, Seeded (merge live) (tripleOf q) ∧ (tripleOf q).encode enc = row)

include hlive in
theorem decode_encode_live {q : Quad} (hq : q ∈ live) :
    ((tripleOf q).encode enc).Decodes dec ∧ ((tripleOf q).encode enc).decode (termAt dec) = tripleOf q := by
  rcases hlive q hq with ⟨hs, hp, ho⟩
  exact Triple.Coded.decode_encode ⟨dec_enc hcode hs, dec_enc hcode hp, dec_enc hcode ho⟩

include hlive in
theorem coded_of_derived (h : Derived Entails (visible (merge live) (stored num compacted)) t) :
    t.Coded enc dec := by
  have hder : Derivable Entails (visible (merge live) (stored num compacted)) t := derivable_iff.mpr (.inr h)
  have hid : ∀ {id t}, num.termOf id = some t → dec (enc t) = some t := by
    intro id t ht
    exact dec_enc hcode (ne_of_eq_of_ne ((num.idOf_eq_some _ _).mpr ht) (Option.some_ne_none _))
  refine hder.mem_of_closed (M := {t : Triple | t.Coded enc dec}) ?_ ?_
  · rintro t (⟨row, _, hs, hp, ho⟩ | ⟨⟨q, hq, rfl⟩, _⟩)
    · exact ⟨hid hs, hid hp, hid ho⟩
    · rcases hlive q hq with ⟨hs, hp, ho⟩
      exact ⟨dec_enc hcode hs, dec_enc hcode hp, dec_enc hcode ho⟩
  · exact fun body a hr hbody => coded_of_entails hcode hr hbody

include hlive in
theorem decode_encode_derived
    (h : Derived Entails (visible (merge live) (stored num compacted)) t) :
    (t.encode enc).Decodes dec ∧ (t.encode enc).decode (termAt dec) = t :=
  (coded_of_derived hcode hlive h).decode_encode

include hrows in
theorem decodes_compacted (hrow : row ∈ compacted) :
    row.Decodes dec ∧ row.decode (termAt dec) ∈ stored num compacted := by
  have hterm : ∀ i, ∃ t, num.termOf (row.get i) = some t ∧ dec (row.get i) = some t := by
    intro i
    rcases Option.ne_none_iff_exists'.mp (hrows row hrow i) with ⟨t, ht⟩
    exact ⟨t, ht, hcode.dec_known _ t ht⟩
  constructor
  · intro i
    rcases hterm i with ⟨t, _, ht⟩
    exact ne_of_eq_of_ne ht (Option.some_ne_none _)
  · have hat : ∀ i, num.termOf (row.get i) = some (termAt dec (row.get i)) := by
      intro i
      rcases hterm i with ⟨t, ht, hdec⟩
      rw [termAt_of_some hdec, ht]
    exact ⟨row, hrow, hat 0, hat 1, hat 2⟩

include hlive hrows hseed in
theorem facts_visible (h : row ∈ facts compacted seed) :
    row.Decodes dec ∧ row.decode (termAt dec) ∈ visible (merge live) (stored num compacted) := by
  rcases h with hrow | hrow
  · rcases decodes_compacted hcode hrows hrow with ⟨hdec, hst⟩
    exact ⟨hdec, .inl hst⟩
  · rcases (hseed row).mp hrow with ⟨q, hq, hs, rfl⟩
    rcases decode_encode_live hcode hlive hq with ⟨hdec, heq⟩
    refine ⟨hdec, .inr ?_⟩
    rw [heq]
    exact ⟨⟨q, hq, rfl⟩, hs⟩

include hseed in
theorem visible_facts (h : t ∈ visible (merge live) (stored num compacted)) :
    t.encode enc ∈ facts compacted seed := by
  rcases h with ⟨row, hrow, hs, hp, ho⟩ | ⟨⟨q, hq, rfl⟩, hs⟩
  · left
    have hid : ∀ {id t}, num.termOf id = some t → enc t = id := fun hid =>
      hcode.enc_dec _ _ (hcode.dec_known _ _ hid)
    have heq : t.encode enc = row := by
      show Row.mk _ _ _ = _
      rw [hid hs, hid hp, hid ho]
    rw [heq]
    exact hrow
  · exact .inr ((hseed _).mpr ⟨q, hq, hs, rfl⟩)

theorem entails_of_fired {body : List Row} {a : Row} (h : Fired (engineRules k) body a) :
    Entails (body.map (Row.decode (termAt dec))) (a.decode (termAt dec)) :=
  entails_of_instance (fun v => termAt_of_some (hcode.dec_vocab v)) h.1

theorem fired_of_entails {a : Triple} (h : Entails body a) :
    Fired (engineRules k) (body.map (Triple.encode enc)) (a.encode enc) := by
  refine ⟨instance_of_entails hcode.enc_vocab h, ?_⟩
  rcases exists_core_premise h with ⟨t, ht, _⟩
  exact ne_nil_of_mem (mem_map_of_mem ht)

include hlive hrows hseed in
theorem dec_ids (h : id ∈ ids (engineRules k) compacted seed) : dec id ≠ none := by
  rcases Finset.mem_union.mp h with hrow | hconst
  · rcases Finset.mem_biUnion.mp hrow with ⟨row, hrow, hid⟩
    have hfact : row ∈ facts compacted seed := by simpa [facts] using hrow
    have hdec := (facts_visible hcode hlive hrows hseed hfact).1
    simp only [Finset.mem_insert, Finset.mem_singleton] at hid
    rcases hid with rfl | rfl | rfl
    · exact hdec 0
    · exact hdec 1
    · exact hdec 2
  · rcases engineRules_constants (mem_toFinset.mp hconst) with ⟨v, rfl⟩
    rw [hcode.dec_vocab v]
    exact Option.some_ne_none _

include hlive hrows hseed in
theorem derived_iff : Derived (Fired (engineRules k)) (facts compacted seed) row ↔
    row.Decodes dec ∧ Derived Entails (visible (merge live) (stored num compacted)) (row.decode (termAt dec)) := by
  have hsafe : ∀ r ∈ engineRules k, r.Safe := fun r hr => (Rule.safe_of_tidy (engineRules_tidy k r hr)).1
  constructor
  · intro h
    constructor
    · intro i
      have hover := derivable_rowsOver hsafe (derivable_iff.mpr (.inr h))
      exact dec_ids hcode hlive hrows hseed (mem_rowsOver.mp hover i)
    · refine (h.map fun body a hr => entails_of_fired hcode hr).mono ?_
      rintro _ ⟨row, hrow, rfl⟩
      exact (facts_visible hcode hlive hrows hseed hrow).2
  · rintro ⟨hdec, h⟩
    rw [← encode_decode hcode hdec]
    refine (h.map fun body a hr => fired_of_entails hcode hr).mono ?_
    rintro _ ⟨t, ht, rfl⟩
    exact visible_facts hcode hseed ht

include hlive hrows hseed in
theorem triggers_of_roused (hroused : Roused (merge live) (stored num compacted)) :
    Triggers (engineRules k) compacted seed := by
  intro body a hfired hbody
  have hvis : ∀ t ∈ body.map (Row.decode (termAt dec)), t ∈ visible (merge live) (stored num compacted) := by
    intro t ht
    rcases mem_map.mp ht with ⟨row, hrow, rfl⟩
    exact (facts_visible hcode hlive hrows hseed (hbody row hrow)).2
  rcases hroused _ _ (entails_of_fired hcode hfired) hvis with ⟨t, ht, ⟨q, hq, heq⟩, hs⟩
  rcases mem_map.mp ht with ⟨row, hrow, hdecode⟩
  refine ⟨row, hrow, (hseed row).mpr ⟨q, hq, by rwa [heq], ?_⟩⟩
  rw [heq, ← hdecode]
  exact encode_decode hcode (facts_visible hcode hlive hrows hseed (hbody row hrow)).1

omit hcode in
/-- Where the views agree, the visible triples and the live ones have the same
consequences. -/
theorem derived_visible_iff {stored : Set Triple} (hagree : Concordant T stored) :
    Derived Entails (visible T stored) t ↔ Derived Entails T t := by
  constructor
  · refine fun h => h.of_unused (M := stored ∪ T) ?_ ?_
    · exact Set.union_subset_union_right stored fun t ht => ht.1
    · rintro t (hst | ⟨hl, _⟩) hnot
      · exact hagree t (.inl ⟨hst, hnot⟩)
      · exact absurd hl hnot
  · refine fun h => h.of_unused (M := stored ∪ T) ?_ ?_
    · exact fun t ht => .inr ht
    · exact fun t ht hnot => hagree t (.inr ⟨ht, hnot⟩)

include hlive hrows hseed in
theorem closure_returns (hroused : Roused (merge live) (stored num compacted)) {store : AtomSource}
    (hstore : Scans store (· ∈ compacted)) :
    ∃ rows, Lib.Returns (fun fuel => closureOverStore fuel (RuleSet.new (engineRules k)) store seed) rows ∧
      rows.Nodup ∧ (∀ row ∈ rows, row.Decodes dec) ∧
      ∀ row, row ∈ rows ↔ row ∈ seed ∨ row.Decodes dec ∧
        Derived Entails (visible (merge live) (stored num compacted)) (row.decode (termAt dec)) := by
  have htidy := fun r hr => Rule.safe_of_tidy (engineRules_tidy k r hr)
  have hsafe : ∀ r ∈ engineRules k, r.Safe := fun r hr => (htidy r hr).1
  have hids : ∀ id ∈ ids (engineRules k) compacted seed, id < u64Max := by
    intro id hid
    rcases Option.ne_none_iff_exists'.mp (dec_ids hcode hlive hrows hseed hid) with ⟨t, ht⟩
    exact hcode.small id t ht
  rcases runFixpoint_returns hstore hsafe (triggers_of_roused hcode hlive hrows hseed hroused)
    (fun r hr => not_trapped hsafe hids (htidy r hr).2) with ⟨rows, hret, hsorted, hmem⟩
  have hiff : ∀ row, row ∈ rows ↔ row ∈ seed ∨ row.Decodes dec ∧
      Derived Entails (visible (merge live) (stored num compacted)) (row.decode (termAt dec)) := by
    intro row
    rw [hmem, derived_iff hcode hlive hrows hseed]
  refine ⟨rows, hret, hsorted.imp ne_of_lt, ?_, hiff⟩
  intro row hrow
  rcases (hiff row).mp hrow with hs | hd
  · rcases (hseed row).mp hs with ⟨q, hq, _, rfl⟩
    exact (decode_encode_live hcode hlive hq).1
  · exact hd.1

end

end Closure

/-! ## The checks return -/

/-- Atoms that use the three variables, none twice in an atom. -/
def tidyAtoms (atoms : List RuleAtom) : Bool :=
  (atoms.all fun a => a.vars.Nodup) && (List.range 3).all fun w => atoms.any fun a => w ∈ a.vars

/-- Atoms whose variables are among the three, some in each atom. -/
def boundAtoms (atoms : List RuleAtom) : Bool :=
  atoms.all fun a => !a.vars.isEmpty && a.vars.all fun u => u < 3

section Slices

variable {rows : List Row} {atoms : List RuleAtom}

theorem scans_slices : ∀ a ∈ atoms.map fun a => (⟨a, sliceSource rows⟩ : Atom), Scans a.source a.source.rows := by
  intro a ha
  rcases mem_map.mp ha with ⟨a', _, rfl⟩
  exact (scans_sliceSource rows).scans_rows

theorem not_blocked_slices (hsmall : ∀ row ∈ rows, ∀ i, row.get i < u64Max)
    (huses : ∀ w < 3, ∃ a ∈ atoms, w ∈ a.vars) (b : Nat → Nat) :
    ¬Blocked (atoms.map fun a => (⟨a, sliceSource rows⟩ : Atom)) 3 b 0 := by
  rintro ⟨b', _, ⟨w, _, _, ⟨a, ha, hw⟩, hmatch, hmax⟩ | ⟨⟨w, hw, hnot⟩, _⟩⟩
  · -- a variable has its value from a row
    rcases hmatch a ha ⟨w, Nat.lt_succ_self w, hw⟩ with ⟨row, hrow, hfit⟩
    rcases mem_map.mp ha with ⟨a', _, rfl⟩
    rcases hw with ⟨i, hi⟩
    have hlt := hsmall row (((scans_sliceSource rows).rows_iff row).mp hrow) i
    rw [(hfit i).2 w hi (Nat.lt_succ_self w)] at hlt
    omega
  · rcases huses w hw with ⟨a, ha, hmem⟩
    exact hnot ⟨_, mem_map_of_mem ha, RuleAtom.mem_vars.mp hmem⟩

theorem matches_slices (hbound : ∀ a ∈ atoms, a.vars ≠ [] ∧ ∀ u ∈ a.vars, u < 3) (b : Nat → Nat) :
    MatchesUpTo (atoms.map fun a => (⟨a, sliceSource rows⟩ : Atom)) b 3 ↔ ∀ a ∈ atoms, a.ground b ∈ rows := by
  have hfit : ∀ a ∈ atoms, ∀ row, a.Fits b 3 row ↔ row = a.ground b := fun a ha row =>
    a.fits_iff fun u hu => (hbound a ha).2 u (RuleAtom.mem_vars.mpr hu)
  constructor
  · intro hm a ha
    rcases exists_mem_of_ne_nil _ (hbound a ha).1 with ⟨u, hu⟩
    rcases hm _ (mem_map_of_mem ha) ⟨u, (hbound a ha).2 u hu, RuleAtom.mem_vars.mp hu⟩ with ⟨row, hrow, hf⟩
    rw [← (hfit a ha row).mp hf]
    exact ((scans_sliceSource rows).rows_iff row).mp hrow
  · intro hall a ha _
    rcases mem_map.mp ha with ⟨a', ha', rfl⟩
    exact ⟨_, ((scans_sliceSource rows).rows_iff _).mpr (hall a' ha'), (hfit a' ha' _).mpr rfl⟩

/-- The join of atoms over rows with small ids lists the bindings whose rows are all there,
each once, if the atoms use all variables. -/
theorem joinClosure_lists (hsmall : ∀ row ∈ rows, ∀ i, row.get i < u64Max) (atoms : List RuleAtom)
    (htidy : tidyAtoms atoms = true) (hbound : boundAtoms atoms = true) :
    ∃ out, Lib.Returns (fun fuel => joinClosure fuel rows atoms) out ∧ out.Nodup ∧
      ∀ b, b ∈ out ↔ ∀ a ∈ atoms, a.ground (assignment b.1 b.2.1 b.2.2 0) ∈ rows := by
  simp only [tidyAtoms, Bool.and_eq_true, all_eq_true, any_eq_true, mem_range,
    decide_eq_true_eq] at htidy
  simp only [boundAtoms, all_eq_true, Bool.and_eq_true, Bool.not_eq_true', isEmpty_eq_false_iff,
    decide_eq_true_eq] at hbound
  rcases htidy with ⟨hlin, huses⟩
  have hlinear : ∀ a ∈ atoms.map fun a => (⟨a, sliceSource rows⟩ : Atom), a.fields.Linear := by
    intro a ha
    rcases mem_map.mp ha with ⟨a', ha', rfl⟩
    exact RuleAtom.linear_of_nodup (hlin a' ha')
  rcases leapfrogJoin_lists scans_slices hlinear (not_blocked_slices hsmall huses) with ⟨out, hout, hnodup, hmem⟩
  refine ⟨_, (hout.mapError _).bind (Lib.Returns.of_ok _), ?_, ?_⟩
  · -- a binding is the list of its three values
    refine hnodup.map_on fun l hl l' hl' heq => ?_
    rcases (hmem l).mp hl with ⟨b, -, rfl⟩
    rcases (hmem l').mp hl' with ⟨b', -, rfl⟩
    simp only [range_succ, range_zero, nil_append, cons_append, map_cons, map_nil,
      getD_cons_zero, getD_cons_succ, Prod.mk.injEq] at heq
    simp only [range_succ, range_zero, nil_append, cons_append, map_cons, map_nil, heq]
  · rintro ⟨x₀, x₁, x₂⟩
    rw [mem_map]
    constructor
    · rintro ⟨l, hl, heq⟩
      rcases (hmem l).mp hl with ⟨b, hb, rfl⟩
      obtain ⟨rfl, rfl, rfl⟩ : b 0 = x₀ ∧ b 1 = x₁ ∧ b 2 = x₂ := by
        simpa [range_succ] using heq
      intro a ha
      have hsame : a.ground (assignment (b 0) (b 1) (b 2) 0) = a.ground b := by
        refine RuleAtom.ground_congr fun u hu => ?_
        match u, (hbound a ha).2 u (RuleAtom.mem_vars.mpr hu) with
        | 0, _ => rfl
        | 1, _ => rfl
        | 2, _ => rfl
      rw [hsame]
      exact (matches_slices hbound b).mp hb a ha
    · intro hall
      exact ⟨_, (hmem _).mpr ⟨_, (matches_slices hbound _).mpr hall, rfl⟩, rfl⟩

end Slices

section Checks

variable {ds : Dataset} {res : TermResolver} {dec : Nat → Option Term}
  (hdecode : ∀ id, res.decode ds id = .ok (dec id))

/-- The reports of bindings: a property and two terms, two classes and a term. -/
def asymmetricReport (dec : Nat → Option Term) (b : Nat × Nat × Nat) : Diagnostic :=
  .asymmetric (dec b.1) (dec b.2.1) (dec b.2.2)

def irreflexiveReport (dec : Nat → Option Term) (b : Nat × Nat × Nat) : Diagnostic :=
  .irreflexive (dec b.1) (dec b.2.1)

def disjointReport (dec : Nat → Option Term) (b : Nat × Nat × Nat) : Diagnostic :=
  .disjoint (dec b.2.2) (dec b.1) (dec b.2.1)

/-- The pair of ids by which a violation of `prp-asyp` is reported once. -/
def pairKey (b : Nat × Nat × Nat) : Nat × Nat := (min b.2.1 b.2.2, max b.2.1 b.2.2)

include hdecode

theorem reportAsymmetric_eq (bindings : List (Nat × Nat × Nat)) : ∀ seen,
    reportAsymmetric ds res seen bindings = .ok ((firstsBy pairKey seen bindings).map (asymmetricReport dec)) := by
  induction bindings with
  | nil => exact fun _ => rfl
  | cons b bindings ih =>
    intro seen
    rcases b with ⟨p, x, y⟩
    rw [reportAsymmetric, firstsBy]
    by_cases hseen : (min x y, max x y) ∈ seen
    · have hkey : pairKey (p, x, y) ∈ seen := hseen
      simp only [hseen, hkey, if_true]
      exact ih seen
    · have hkey : pairKey (p, x, y) ∉ seen := hseen
      simp only [hseen, hkey, if_false, hdecode, ih, ok_bind]
      rfl

omit hdecode in
/-- The witnesses of the checks among the rows, and their reports. -/
def Checked (dec : Nat → Option Term) (k : Vocab → Nat) (rows : List Row) (out : List Diagnostic) : Prop :=
  ∃ asymmetric irreflexive disjoint : List (Nat × Nat × Nat),
    (asymmetric.Nodup ∧ ∀ p x y, (p, x, y) ∈ asymmetric ↔
      ⟨p, k .rdfType, k .owlAsymmetricProperty⟩ ∈ rows ∧ ⟨x, p, y⟩ ∈ rows ∧ ⟨y, p, x⟩ ∈ rows) ∧
    (irreflexive.Nodup ∧ ∀ p x y, (p, x, y) ∈ irreflexive ↔
      ⟨p, k .rdfType, k .owlIrreflexiveProperty⟩ ∈ rows ∧ ⟨x, p, y⟩ ∈ rows) ∧
    (disjoint.Nodup ∧ ∀ c₁ c₂ x, (c₁, c₂, x) ∈ disjoint ↔
      ⟨c₁, k .owlDisjointWith, c₂⟩ ∈ rows ∧ ⟨x, k .rdfType, c₁⟩ ∈ rows ∧ ⟨x, k .rdfType, c₂⟩ ∈ rows) ∧
    out = (firstsBy pairKey [] asymmetric).map (asymmetricReport dec) ++
      (irreflexive.filter fun b => b.2.1 = b.2.2).map (irreflexiveReport dec) ++ disjoint.map (disjointReport dec)

theorem checkConsistency_returns {rows : List Row} (hsmall : ∀ row ∈ rows, ∀ i, row.get i < u64Max)
    (k : Vocab → Nat) :
    ∃ out, Lib.Returns (fun fuel => checkConsistency fuel ds res rows k) out ∧ Checked dec k rows out := by
  rcases joinClosure_lists hsmall (asymmetricAtoms k) rfl rfl with ⟨as, ⟨ka, hka⟩, has, hmema⟩
  rcases joinClosure_lists hsmall (irreflexiveAtoms k) rfl rfl with ⟨is, ⟨ki, hki⟩, his, hmemi⟩
  rcases joinClosure_lists hsmall (disjointAtoms k) rfl rfl with ⟨dis, ⟨kd, hkd⟩, hds, hmemd⟩
  refine ⟨_, ⟨max ka (max ki kd), fun fuel hfuel => ?_⟩, as, is, dis, ⟨has, fun p x y => ?_⟩,
    ⟨his, fun p x y => ?_⟩,
    ⟨hds, fun c₁ c₂ x => ?_⟩, rfl⟩
  · simp only [checkConsistency, hka fuel (by omega), hki fuel (by omega), hkd fuel (by omega),
      reportAsymmetric_eq hdecode, hdecode, ok_bind, except_pure, mapM_ok]
    rfl
  · rw [hmema]
    simp [asymmetricAtoms, RuleAtom.ground, AtomField.value, assignment]
  · rw [hmemi]
    simp [irreflexiveAtoms, RuleAtom.ground, AtomField.value, assignment]
  · rw [hmemd]
    simp [disjointAtoms, RuleAtom.ground, AtomField.value, assignment]

end Checks

variable {ds : Dataset} {compacted : Finset Row}

variable {live : Finset Quad}

theorem checkDifferent_ok
    (h : Backs ds num live compacted) : ∃ out, checkDifferent ds = .ok out := by
  rcases findEdges h owlSameAs with ⟨same, hsame, _⟩
  rcases findEdges h owlDifferentFrom with ⟨diff, hdiff, _⟩
  simp only [checkDifferent, buildSameAsTracker, hsame, hdiff, ofStore, Except.mapError, ok_bind,
    except_pure]
  split
  · exact ⟨_, rfl⟩
  · exact ⟨_, rfl⟩

/-! ## The inferred quads -/

/-- The default-graph quad of a triple, if there is one. -/
def quadOf (t : Triple) : Option Quad :=
  match t.subject, t.predicate with
  | .namedNode n, .namedNode p => some ⟨.namedNode n, p, t.object, .defaultGraph⟩
  | .blankNode b, .namedNode p => some ⟨.blankNode b, p, t.object, .defaultGraph⟩
  | _, _ => none

theorem quadOf_eq_some {q : Quad} : quadOf t = some q ↔ tripleOf q = t ∧ q.graphName = .defaultGraph := by
  constructor
  · intro h
    unfold quadOf at h
    split at h
    · next n p hs hp =>
      cases h
      exact ⟨by rw [tripleOf, Triple.mk.injEq]; exact ⟨hs.symm, hp.symm, rfl⟩, rfl⟩
    · next b p hs hp =>
      cases h
      exact ⟨by rw [tripleOf, Triple.mk.injEq]; exact ⟨hs.symm, hp.symm, rfl⟩, rfl⟩
    · cases h
  · rintro ⟨rfl, hg⟩
    rcases q with ⟨s, p, o, g⟩
    subst hg
    cases s <;> rfl

section Collect

variable {ds : Dataset} {num : Numbering} {live : Finset Quad} {compacted : Finset Row}
  (h : Backs ds num live compacted) {k : Vocab → Nat} {enc : Term → Nat} {dec : Nat → Option Term}
  (hcode : Coding num k enc dec) {res : TermResolver} (hdecode : ∀ id, res.decode ds id = .ok (dec id))

include hdecode in
theorem decodeQuad_ok (hrow : row.Decodes dec) :
    decodeQuad ds res row = .ok (quadOf (row.decode (termAt dec))) := by
  have hterm : ∀ i, dec (row.get i) = some (termAt dec (row.get i)) := by
    intro i
    rcases Option.ne_none_iff_exists'.mp (hrow i) with ⟨t, ht⟩
    rw [termAt_of_some ht, ht]
  have hs := hterm 0
  have hp := hterm 1
  have ho := hterm 2
  simp only [Row.get] at hs hp ho
  simp only [decodeQuad, hdecode, hs, hp, ho, ok_bind, Row.decode, quadOf]
  cases termAt dec row.s <;> cases termAt dec row.p <;> rfl

include h hcode in
theorem findInferred (hrow : row.Decodes dec) {q : Quad} (hq : quadOf (row.decode (termAt dec)) = some q) :
    ∃ found, ds.findQuads ⟨.bound q.subject.toTerm, .bound (.namedNode q.predicate), .bound q.object,
        .union⟩ = .ok found ∧ (found = [] ↔ tripleOf q ∉ merge live) := by
  have hobj : num.Asks q.object := by
    rcases Option.ne_none_iff_exists'.mp (hrow 2) with ⟨t, ht⟩
    have heq : q.object = t := by
      rw [← termAt_of_some ht]
      exact congrArg Triple.object (quadOf_eq_some.mp hq).1
    rw [heq]
    exact hcode.asks _ t ht
  have hsub : num.Asks q.subject.toTerm := by
    intro htriple
    rw [q.subject.toTerm_isTriple] at htriple
    cases htriple
  rcases h.find ⟨.bound q.subject.toTerm, .bound (.namedNode q.predicate), .bound q.object, .union⟩
    (fun t ht => by cases ht; exact hsub) (fun t ht => by cases ht; exact hobj) with ⟨qs, hr, _, hmem⟩
  refine ⟨_, hr, ?_⟩
  rw [map_eq_nil_iff, eq_nil_iff_forall_not_mem]
  constructor
  · rintro hnone ⟨q', hq', heq⟩
    refine hnone q' ((hmem q').mpr ⟨Finset.mem_filter.mpr ⟨hq', rfl⟩, ?_⟩)
    simp only [tripleOf, Triple.mk.injEq, Term.namedNode.injEq] at heq
    simp only [FindMatches, PatternTerm.bound.injEq, Term.namedNode.injEq, forall_eq']
    exact heq
  · intro hnot q' hq'
    rcases (hmem q').mp hq' with ⟨hsel, hm⟩
    refine hnot ⟨q', (Finset.mem_filter.mp hsel).1, ?_⟩
    simp only [FindMatches, PatternTerm.bound.injEq, Term.namedNode.injEq, forall_eq'] at hm
    simp only [tripleOf, Triple.mk.injEq, Term.namedNode.injEq]
    exact hm

include h hcode hdecode in
/-- The derived rows are decoded, but for the seed and for what the store holds. -/
theorem collectInferred_ok (seed rows : List Row) (hdec : ∀ row ∈ rows, row.Decodes dec)
    (hnodup : rows.Nodup) : ∃ quads diagnostics, collectInferred ds res seed rows = .ok (quads, diagnostics) ∧
      quads.Nodup ∧ ∀ q, q ∈ quads ↔
        (∃ row ∈ rows, row ∉ seed ∧ quadOf (row.decode (termAt dec)) = some q) ∧ tripleOf q ∉ merge live := by
  induction rows with
  | nil => exact ⟨[], [], rfl, .nil, by simp⟩
  | cons row rows ih =>
    rcases forall_mem_cons.mp hdec with ⟨hrow, hdec⟩
    rcases nodup_cons.mp hnodup with ⟨hnot, hnodup⟩
    rcases ih hdec hnodup with ⟨quads, diagnostics, hrest, hq, hmem⟩
    rw [collectInferred]
    by_cases hseed : row ∈ seed
    · refine ⟨quads, diagnostics, by rw [if_pos hseed, hrest], hq, fun q => ?_⟩
      rw [hmem]
      simp [hseed]
    · rw [if_neg hseed]
      simp only [decodeQuad_ok hdecode hrow, ok_bind]
      cases hquad : quadOf (row.decode (termAt dec)) with
      | none =>
        refine ⟨quads, .undecoded row :: diagnostics, by simp only [hrest, ok_bind]; rfl, hq, ?_⟩
        intro q
        rw [hmem]
        simp [hquad]
      | some q₀ =>
        rcases findInferred h hcode hrow hquad with ⟨found, hfound, hbase⟩
        simp only [hfound, ofStore, Except.mapError, ok_bind, hrest]
        -- distinct rows give distinct quads
        have hfresh : q₀ ∉ quads := by
          intro hin
          rcases ((hmem q₀).mp hin).1 with ⟨row', hrow', _, hquad'⟩
          have heq : row.decode (termAt dec) = row'.decode (termAt dec) :=
            (quadOf_eq_some.mp hquad).1.symm.trans (quadOf_eq_some.mp hquad').1
          rw [← encode_decode hcode (hdec row' hrow'), ← heq, encode_decode hcode hrow] at hrow'
          exact hnot hrow'
        by_cases hnil : found = []
        · refine ⟨q₀ :: quads, diagnostics, by rw [hnil]; rfl, nodup_cons.mpr ⟨hfresh, hq⟩, ?_⟩
          intro q
          rw [mem_cons, hmem]
          constructor
          · rintro (rfl | ⟨⟨row', hrow', hr⟩, hm⟩)
            · exact ⟨⟨row, mem_cons_self, hseed, hquad⟩, hbase.mp hnil⟩
            · exact ⟨⟨row', mem_cons_of_mem _ hrow', hr⟩, hm⟩
          · rintro ⟨⟨row', hrow', hr, hq'⟩, hm⟩
            rcases mem_cons.mp hrow' with rfl | hrow'
            · rw [hquad] at hq'
              exact .inl (Option.some.inj hq').symm
            · exact .inr ⟨⟨row', hrow', hr, hq'⟩, hm⟩
        · refine ⟨quads, diagnostics, by rw [if_neg (by simpa using hnil)]; rfl, hq, ?_⟩
          intro q
          rw [hmem]
          refine and_congr_left fun hm => ?_
          constructor
          · rintro ⟨row', hrow', hr⟩
            exact ⟨row', mem_cons_of_mem _ hrow', hr⟩
          · rintro ⟨row', hrow', hr, hq'⟩
            rcases mem_cons.mp hrow' with rfl | hrow'
            · rw [hquad] at hq'
              cases hq'
              exact absurd (hbase.mpr hm) hnil
            · exact ⟨row', hrow', hr, hq'⟩

end Collect

/-! ## The diagnostics -/

/-- The reports of the three checks. -/
def Diagnostic.isCheck : Diagnostic → Bool
  | .asymmetric _ _ _ => true
  | .irreflexive _ _ => true
  | .disjoint _ _ _ => true
  | _ => false

theorem seedDeclared_diagnostics {c : Vocab} {name : String} : ∀ {ms : List QuadMatch}
    {res res' : TermResolver} {rows : List Row} {diagnostics : List Diagnostic},
    seedDeclared ds c name res ms = .ok (rows, diagnostics, res') → ∀ d ∈ diagnostics, d.isCheck = false := by
  intro ms
  induction ms with
  | nil =>
    intro res res' rows diagnostics h
    cases h
    exact nofun
  | cons m ms ih =>
    intro res res' rows diagnostics h
    rw [seedDeclared] at h
    split at h
    · rcases bind_ok h with ⟨_, -, h⟩
      rcases bind_ok h with ⟨_, -, h⟩
      rcases bind_ok h with ⟨_, -, h⟩
      rcases bind_ok h with ⟨⟨_, _, _⟩, hrest, h⟩
      cases h
      exact ih hrest
    · rcases bind_ok h with ⟨⟨_, _, _⟩, hrest, h⟩
      cases h
      exact forall_mem_cons.mpr ⟨rfl, ih hrest⟩

theorem seedClasses_diagnostics : ∀ {cs : List (Vocab × String)} {res res' : TermResolver}
    {rows : List Row} {diagnostics : List Diagnostic},
    seedClasses ds res cs = .ok (rows, diagnostics, res') → ∀ d ∈ diagnostics, d.isCheck = false := by
  intro cs
  induction cs with
  | nil =>
    intro res res' rows diagnostics h
    cases h
    exact nofun
  | cons c cs ih =>
    intro res res' rows diagnostics h
    rcases bind_ok h with ⟨_, -, h⟩
    rcases bind_ok h with ⟨⟨_, _, _⟩, hone, h⟩
    rcases bind_ok h with ⟨⟨_, _, _⟩, hrest, h⟩
    cases h
    exact forall_mem_append.mpr ⟨seedDeclared_diagnostics hone, ih hrest⟩

theorem checkDifferent_diagnostics {diagnostics : List Diagnostic}
    (h : checkDifferent ds = .ok diagnostics) : ∀ d ∈ diagnostics, d.isCheck = false := by
  rcases bind_ok h with ⟨_, -, h⟩
  split at h
  · cases h
    exact nofun
  · rcases bind_ok h with ⟨_, -, h⟩
    cases h
    intro d hd
    rcases mem_map.mp hd with ⟨m, -, rfl⟩
    rfl

theorem collectInferred_diagnostics {seed : List Row} : ∀ {rows : List Row}
    {quads : List Quad} {diagnostics : List Diagnostic},
    collectInferred ds res seed rows = .ok (quads, diagnostics) → ∀ d ∈ diagnostics, d.isCheck = false := by
  intro rows
  induction rows with
  | nil =>
    intro quads diagnostics h
    cases h
    exact nofun
  | cons row rows ih =>
    intro quads diagnostics h
    rw [collectInferred] at h
    split at h
    · exact ih h
    · rcases bind_ok h with ⟨decoded, -, h⟩
      cases decoded with
      | none =>
        rcases bind_ok h with ⟨⟨_, _⟩, hrest, h⟩
        cases h
        exact forall_mem_cons.mpr ⟨rfl, ih hrest⟩
      | some q =>
        rcases bind_ok h with ⟨found, -, h⟩
        rcases bind_ok h with ⟨⟨_, _⟩, hrest, h⟩
        cases hfound : found.isEmpty <;> simp only [hfound] at h <;> cases h <;> exact ih hrest

section

variable (h : Backs ds num live compacted) (hroused : Roused (merge live) (stored num compacted))
include h hroused

/-- What a run of the engine is made of: ids for the terms, the rows of the seed and of the
derived triples, the quads inferred, and among the diagnostics the reports of the checks. -/
theorem infer_parts : ∃ quads before violations after,
      Lib.Returns (fun fuel => infer fuel ds) (quads, before ++ violations ++ after) ∧
      (∀ d ∈ before ++ after, d.isCheck = false) ∧
      (quads.Nodup ∧ ∀ q, q ∈ quads ↔ q.graphName = .defaultGraph ∧
        Derived Entails (visible (merge live) (stored num compacted)) (tripleOf q) ∧ tripleOf q ∉ merge live) ∧
      ∃ k enc dec rows, Coding num k enc dec ∧ Checked dec k rows violations ∧
        (∀ row ∈ rows, row.Decodes dec) ∧
        ∀ row, row ∈ rows ↔
          (∃ q ∈ live, Seeded (merge live) (tripleOf q) ∧ (tripleOf q).encode enc = row) ∨ row.Decodes dec ∧
            Derived Entails (visible (merge live) (stored num compacted)) (row.decode (termAt dec)) := by
  rcases h.scans with ⟨named, hnamed, hscans⟩
  rcases resolveVocab_ok h Vocab.all (by decide) .new (fun _ _ hnone => by cases hnone) with
    ⟨k, res, hvocab, hres⟩
  have hcode := hres.coding
  have hdecode : ∀ id, res.decode ds id = .ok (decoder num res id) := by
    intro id
    unfold TermResolver.decode decoder
    cases res.synthetic.lookup id with
    | some t => rfl
    | none =>
      simp only [h.decode]
      rfl
  rcases seedCore_ok h hcode corePredicates res with ⟨core, hcore, hmemc⟩
  rcases seedClasses_ok h hcode declaredClasses res with ⟨declared, skipped, hdecl, hmemd⟩
  have hseed : ∀ row, row ∈ core ++ declared ↔
      ∃ q ∈ live, Seeded (merge live) (tripleOf q) ∧ (tripleOf q).encode (encoder num k) = row := by
    intro row
    rw [mem_append, hmemc, hmemd]
    simp only [Seeded, tripleOf, Vocab.term, Term.namedNode.injEq, merge, Set.mem_ofPred_eq]
    constructor
    · rintro (⟨q, hq, hv, heq⟩ | ⟨q, hq, hd, heq⟩)
      · exact ⟨q, hq, .inl hv, heq⟩
      · exact ⟨q, hq, .inr hd, heq⟩
    · rintro ⟨q, hq, hv | hd, heq⟩
      · exact .inl ⟨q, hq, hv, heq⟩
      · exact .inr ⟨q, hq, hd, heq⟩
  rcases closure_returns hcode h.known h.rows hseed hroused hscans with ⟨rows, hclosure, hnodup, hdec, hmem⟩
  have hsmall : ∀ row ∈ rows, ∀ i, row.get i < u64Max := by
    intro row hrow i
    rcases Option.ne_none_iff_exists'.mp (hdec row hrow i) with ⟨t, ht⟩
    exact hcode.small _ t ht
  rcases checkConsistency_returns hdecode hsmall k with ⟨violations, hcheck, hchecked⟩
  rcases checkDifferent_ok h with ⟨different, hdiff⟩
  rcases collectInferred_ok h hcode hdecode (core ++ declared) rows hdec hnodup with
    ⟨quads, undecoded, hcollect, hq, hquads⟩
  refine ⟨quads, skipped, violations, different ++ undecoded, ?_, ?_, ⟨hq, ?_⟩,
    k, encoder num k, decoder num res, rows,
    hcode, hchecked, hdec, fun row => by rw [hmem, hseed]⟩
  · rcases hclosure with ⟨kc, hkc⟩
    rcases hcheck with ⟨kv, hkv⟩
    refine ⟨max kc kv, fun fuel hfuel => ?_⟩
    simp only [infer, h.lftj, if_true, hnamed, ofStore, ofStop, Except.mapError, ok_bind, hvocab,
      hcore, hdecl, hkc fuel (by omega), hkv fuel (by omega), hdiff, hcollect, ← append_assoc]
    rfl
  · exact forall_mem_append.mpr ⟨seedClasses_diagnostics hdecl, forall_mem_append.mpr
      ⟨checkDifferent_diagnostics hdiff, collectInferred_diagnostics hcollect⟩⟩
  · intro q
    rw [hquads]
    constructor
    · rintro ⟨⟨row, hrow, hnot, hquad⟩, hbase⟩
      rcases quadOf_eq_some.mp hquad with ⟨heq, hg⟩
      refine ⟨hg, ?_, hbase⟩
      rcases (hmem row).mp hrow with hs | ⟨_, hd⟩
      · exact absurd hs hnot
      · rwa [heq]
    · rintro ⟨hg, hd, hbase⟩
      rcases decode_encode_derived hcode h.known hd with ⟨hdecodes, heq⟩
      have hrow := (hmem _).mpr (.inr ⟨hdecodes, by rwa [heq]⟩)
      refine ⟨⟨_, hrow, ?_, quadOf_eq_some.mpr ⟨heq.symm, hg⟩⟩, hbase⟩
      -- a seeded row is live
      intro hin
      rcases (hseed _).mp hin with ⟨q', hq', _, henc⟩
      have heq' := (decode_encode_live hcode h.known hq').2
      rw [henc, heq] at heq'
      exact hbase ⟨q', hq', heq'.symm⟩

/-- The engine returns what the rules derive from the visible triples and is not
live, each quad once. -/
theorem infer_visible :
    ∃ quads diagnostics, Lib.Returns (fun fuel => infer fuel ds) (quads, diagnostics) ∧ quads.Nodup ∧
      ∀ q, q ∈ quads ↔ q.graphName = .defaultGraph ∧
        Derived Entails (visible (merge live) (stored num compacted)) (tripleOf q) ∧
        tripleOf q ∉ merge live := by
  rcases infer_parts h hroused with ⟨quads, before, violations, after, hret, -, hquads, -⟩
  exact ⟨quads, _, hret, hquads⟩

end

/-- Where the two views agree as far as the rules go, the engine returns what the
rules derive from the live triples and is none of them, each quad once. -/
theorem infer_returns
    (h : Backs ds num live compacted) (hagree : Concordant (merge live) (stored num compacted)) :
    ∃ quads diagnostics, Lib.Returns (fun fuel => infer fuel ds) (quads, diagnostics) ∧ quads.Nodup ∧
      ∀ q, q ∈ quads ↔ q.graphName = .defaultGraph ∧ Derived Entails (merge live) (tripleOf q) ∧
        tripleOf q ∉ merge live := by
  rcases infer_visible h (roused_of_concordant hagree) with ⟨quads, diagnostics, hret, hnodup, hmem⟩
  refine ⟨quads, diagnostics, hret, hnodup, fun q => ?_⟩
  rw [hmem, derived_visible_iff hagree]

end Nova.Reasoning
