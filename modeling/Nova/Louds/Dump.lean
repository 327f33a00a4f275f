import Nova.Core.Relabel
import Nova.Louds.Runs

/-!
# Dumping a store

`dump` without a graph writes the default graph and then every graph that
`known_named_graphs` lists. A graph named by an IRI is listed as long as it has a quad
(`Listed`); a graph named by a blank node is listed once it has a ring. So a dump has
every quad exactly if no quad of a graph named by a blank node is still waiting for the
first compaction of that graph (`dump_complete_iff`), and is empty for a store with one
such quad (`dump_misses_pending`).

Reading the written bytes back is taken to give the quads that were written, with the
blank nodes renamed.
-/

namespace Nova

open Nova.Lib List

namespace LoudsStore

variable {D : Type} (A : DictApi D)

/-- `stored_subject`: a quoted triple cannot be written as a subject. -/
def storedSubject (sq : StoredQuad) : Option Subject :=
  match sq.subject with
  | .namedNode n => some (.namedNode n)
  | .blankNode b => some (.blankNode b)
  | _ => none

/-- The quads of one graph, as they are passed to the serializer. -/
def serialized (g : GraphName) : List StoredQuad → Except Panic (List Quad)
  | [] => .ok []
  | sq :: rest =>
    match storedSubject sq with
    | none => serialized g rest
    | some subject =>
      match sq.predicate with
      | .namedNode p => do
        let quads ← serialized g rest
        return ⟨subject, p, sq.object, g⟩ :: quads
      -- `predicate_named_node().unwrap()`
      | _ => .error (.expect "called `Option::unwrap()` on a `None` value")

def dumpGraphs : LoudsStore D → List GraphName → Except Panic (List Quad × LoudsStore D)
  | s, [] => .ok ([], s)
  | s, g :: graphs => do
    let (sqs, s) ← quadsForPattern A s none none none (some g)
    let quads ← serialized g sqs
    let (rest, s) ← dumpGraphs s graphs
    return (quads ++ rest, s)

/-- `Store::dump` of every graph: the quads passed to the serializer, in order. -/
def dump (s : LoudsStore D) : Except Panic (List Quad × LoudsStore D) :=
  dumpGraphs A s (.defaultGraph :: knownNamedGraphs A s)

/-- `Store::load`, from the parsed quads on; the number of quads that are new. -/
def load : LoudsStore D → Nat → List Quad → Outcome D Nat
  | s, count, [] => (.ok count, s)
  | s, count, q :: quads =>
    andThen (insert A s q) fun inserted s => load s (if inserted then count + 1 else count) quads

/-! ## Which graphs are listed -/

variable {A} {Knows : D → Names → Prop} {CompactOk : Names → Prop} {n n' : Names} {s s' : LoudsStore D}

/-- A graph named by an IRI with an entry in the delta is registered or has a ring. -/
structure Listed (n : Names) (s : LoudsStore D) : Prop where
  named : ∀ g ∈ s.namedGraphIds, ∃ iri, n.graph g = some (.namedNode iri)
  pending : ∀ g sId pId oId b iri, s.delta.get (packQuad g sId pId oId) = some b →
    n.graph g = some (.namedNode iri) → g ∈ s.namedGraphIds ∨ s.graphs[g]?.isSome = true

theorem listed_new (d : D) (threshold : Option Nat) :
    Listed n { new d with autoCompactThreshold := threshold } where
  named := nofun
  pending := by
    intro g sId pId oId b iri hget
    cases hget

theorem Listed.with_dict (h : Listed n s) (hinv : Inv Knows n s) (hle : n.Le n') (d : D) :
    Listed n' { s with dict := d } where
  named := by
    intro g hg
    rcases h.named g hg with ⟨iri, hiri⟩
    exact ⟨iri, Names.graph_of_le hle hiri⟩
  pending := by
    intro g sId pId oId b iri hget hgraph
    -- the graph of an entry has a name already
    rcases hinv.keys _ _ hget with ⟨q, hq⟩
    rcases Names.keyOf_eq_some.mp hq with ⟨g', sId', pId', oId', hids, hkey⟩
    have hg : g' = g := (packQuad_injective hkey).1
    have hname := (Names.quadIds_eq_some.mp hids).1
    rw [hg] at hname
    have hsame := Names.graph_of_le hle hname
    rw [hgraph] at hsame
    rw [← hsame] at hname
    exact h.pending g sId pId oId b iri hget hname

theorem Listed.mark (h : Listed n s) {delta : Delta} {g : GraphId} {sId pId oId : TermId}
    (hold : ∀ k, k ≠ packQuad g sId pId oId → delta.get k = s.delta.get k)
    (hlisted : ∀ iri, n.graph g = some (.namedNode iri) → g ∈ s.namedGraphIds ∨ s.graphs[g]?.isSome = true) :
    Listed n { s with delta := delta } where
  named := h.named
  pending := by
    intro g' sId' pId' oId' b iri hget hgraph
    by_cases hkey : packQuad g' sId' pId' oId' = packQuad g sId pId oId
    · rw [(packQuad_injective hkey).1] at hgraph ⊢
      exact hlisted iri hgraph
    · exact h.pending g' sId' pId' oId' b iri ((hold _ hkey).symm.trans hget) hgraph

theorem Listed.register (h : Listed n s) {g : GraphId} {iri : NamedNode} (hg : n.graph g = some (.namedNode iri)) :
    Listed n { s with namedGraphIds := s.namedGraphIds.insert g } where
  named := by
    intro g' hg'
    rcases mem_insert_iff.mp hg' with rfl | hg'
    · exact ⟨iri, hg⟩
    · exact h.named g' hg'
  pending := by
    intro g' sId pId oId b iri' hget hgraph
    rcases h.pending g' sId pId oId b iri' hget hgraph with hin | hring
    · exact .inl (mem_insert_iff.mpr (.inr hin))
    · exact .inr hring

theorem insertKey_other (d : Delta) (k : Nat) : ∀ k', k' ≠ k → (d.insertKey k).get k' = d.get k' := by
  intro k' hne
  rw [Delta.get_insertKey, if_neg (Ne.symm hne)]

theorem tombstoneKey_other (d : Delta) (k : Nat) : ∀ k', k' ≠ k → (d.tombstoneKey k).get k' = d.get k' := by
  intro k' hne
  rw [Delta.get_tombstoneKey, if_neg (Ne.symm hne)]

section Steps

variable (I : Implements A Knows CompactOk)
include I

/-- An insertion keeps every graph with quads listed. -/
theorem applyInsert_listed (h : Inv Knows n s) (hl : Listed n s) (q : Quad) :
    ∃ n', Inv Knows n' (applyInsert A s q).2 ∧ Listed n' (applyInsert A s q).2 := by
  rcases internQuad_spec I h.knows q with ⟨d', hr, hd⟩
  have hle := (n.internQuad_spec q).1
  have h' := h.with_dict hle hd
  have hl' := hl.with_dict h hle d'
  refine ⟨(n.internQuad q).2, ?_⟩
  rw [applyInsert, hr]
  cases hids : (n.internQuad q).1 with
  | error e => exact ⟨h', hl'⟩
  | ok ids =>
    rcases ids with ⟨g, sId, pId, oId⟩
    have hq := (n.internQuad_spec q).2 _ hids
    have hname := (Names.quadIds_eq_some.mp hq).1
    have hkey : (n.internQuad q).2.keyOf q = some (packQuad g sId pId oId) :=
      Names.keyOf_eq_some.mpr ⟨g, sId, pId, oId, hq, rfl⟩
    simp only [Except.mapError, andThen]
    cases hget : s.delta.get (packQuad g sId pId oId) with
    | some b =>
      cases b with
      | true => exact ⟨h', hl'⟩
      | false =>
        -- the tombstone's graph is listed already
        exact ⟨h'.insertKey hkey, hl'.mark (insertKey_other _ _) fun iri hiri =>
          hl'.pending g sId pId oId _ iri hget hiri⟩
    | none =>
      cases hring : ringContains { s with dict := d' } g sId pId oId with
      | true => exact ⟨h', hl'⟩
      | false =>
        have hnew := h'.insertKey hkey
        cases hgraph : q.graphName with
        | namedNode name =>
          rw [hgraph] at hname
          have hreg := (hl'.register hname).mark (insertKey_other s.delta (packQuad g sId pId oId))
            fun _ _ => .inl (mem_insert_iff.mpr (.inl rfl))
          exact ⟨hnew.with_named (s.namedGraphIds.insert g), hreg⟩
        | defaultGraph =>
          refine ⟨hnew, hl'.mark (insertKey_other _ _) fun iri hiri => ?_⟩
          rw [hname, hgraph] at hiri
          cases hiri
        | blankNode b =>
          refine ⟨hnew, hl'.mark (insertKey_other _ _) fun iri hiri => ?_⟩
          rw [hname, hgraph] at hiri
          cases hiri

/-- A removal keeps every graph with quads listed. -/
theorem applyRemove_listed (h : Inv Knows n s) (hl : Listed n s) (q : Quad) :
    ∃ n', Inv Knows n' (applyRemove A s q).2 ∧ Listed n' (applyRemove A s q).2 := by
  refine ⟨n, ?_⟩
  rw [applyRemove, lookupQuad_spec I h.knows]
  cases hlook : n.lookupQuad q with
  | error p => exact ⟨h, hl⟩
  | ok ids =>
    cases ids with
    | none => exact ⟨h, hl⟩
    | some ids =>
      rcases ids with ⟨g, sId, pId, oId⟩
      have hids : n.quadIds q = some (g, sId, pId, oId) := by
        rcases n.lookupQuad_cases q with hr | ⟨-, -, p, hr⟩
        · rw [hlook] at hr
          exact (Except.ok.inj hr).symm
        · rw [hlook] at hr
          cases hr
      have hkey : n.keyOf q = some (packQuad g sId pId oId) :=
        Names.keyOf_eq_some.mpr ⟨g, sId, pId, oId, hids, rfl⟩
      simp only
      cases hget : s.delta.get (packQuad g sId pId oId) with
      | some b =>
        cases b with
        | true => exact ⟨h.tombstoneKey hkey,
            hl.mark (tombstoneKey_other _ _) fun iri hiri => hl.pending g sId pId oId _ iri hget hiri⟩
        | false => exact ⟨h, hl⟩
      | none =>
        cases hring : s.ringContains g sId pId oId with
        | false => exact ⟨h, hl⟩
        | true =>
          refine ⟨h.tombstoneKey hkey, hl.mark (tombstoneKey_other _ _) fun _ _ => .inr ?_⟩
          rw [ringContains] at hring
          cases hg : s.graphs[g]? with
          | none =>
            rw [hg] at hring
            cases hring
          | some ring => rfl

theorem compactLocked_listed (h : Inv Knows n s) (hl : Listed n s) (hok : CompactOk n) :
    ∃ n', Inv Knows n' (compactLocked A s).2 ∧ Listed n' (compactLocked A s).2 := by
  rcases compactDict_spec I h hok with ⟨d', b, hr, -⟩
  rcases compactLocked_spec I h hok with ⟨s', b', hr', hnext⟩
  have hs' : (compactLocked A s).2 = s' := by rw [hr']
  refine ⟨n.withSealed b', hs' ▸ hnext.inv, ?_⟩
  rw [compactLocked, hr]
  refine ⟨(hl.with_dict h (n.le_withSealed b') d').named, fun g sId pId oId b iri hget => ?_⟩
  have hnone : Delta.new.get (packQuad g sId pId oId) = some b := hget
  cases hnone

theorem applyOne_listed (w : QuadOp) (h : ∃ n, Inv Knows n s ∧ Listed n s) :
    ∃ n, Inv Knows n (applyOne A s w).2 ∧ Listed n (applyOne A s w).2 := by
  rcases h with ⟨n, hinv, hl⟩
  cases w with
  | insert q => exact applyInsert_listed I hinv hl q
  | remove q => exact applyRemove_listed I hinv hl q

theorem call_listed (c : Call) (h : ∃ n, Inv Knows n s ∧ Listed n s)
    (hsafe : ∀ d n, compactsAt A s c = some d → Knows d n → CompactOk n) :
    ∃ n, Inv Knows n (call A s c).2 ∧ Listed n (call A s c).2 := by
  have hwrites : ∃ n, Inv Knows n (applyWrites A s c.writes).2 ∧ Listed n (applyWrites A s c.writes).2 :=
    Machine.batch_inv (J := fun s => ∃ n, Inv Knows n s ∧ Listed n s) (P := fun _ _ => True)
      (fun s w hs _ => applyOne_listed I w hs) h (Machine.batchMeets_true s c.writes)
  rw [compactsAt] at hsafe
  rw [call_eq]
  rcases hr : applyWrites A s c.writes with ⟨r, s₁⟩
  rw [hr] at hwrites hsafe
  cases r with
  | error f => exact hwrites
  | ok bs =>
    simp only [andThen, settle_eq]
    by_cases hcomp : c = .compact ∨ c.writes ≠ [] ∧ s₁.autoDue = true
    · simp only [if_pos hcomp] at hsafe ⊢
      rcases hwrites with ⟨n, hinv, hl⟩
      have hdone := compactLocked_listed I hinv hl (hsafe _ _ rfl hinv.knows)
      rcases hc : compactLocked A s₁ with ⟨r', s₂⟩
      rw [hc] at hdone
      cases r' with
      | error f => exact hdone
      | ok _ => exact hdone
    · rw [if_neg hcomp]
      exact hwrites

end Steps

/-! ## What is dumped -/

theorem serialized_stored {g : GraphName} : ∀ {quads : List Quad}, (∀ q ∈ quads, q.graphName = g) →
    serialized g (quads.map Quad.stored) = .ok quads := by
  intro quads
  induction quads with
  | nil => exact fun _ => rfl
  | cons q quads ih =>
    intro h
    rcases forall_mem_cons.mp h with ⟨hg, hrest⟩
    have hsubject : storedSubject q.stored = some q.subject := by
      rcases q with ⟨subject, p, o, g⟩
      cases subject <;> rfl
    rw [map_cons, serialized, hsubject]
    rw [ih hrest, ← hg]
    rfl

theorem dumpGraphs_spec (I : Implements A Knows CompactOk) : ∀ {graphs : List GraphName} {s : LoudsStore D},
    Inv Knows n s → graphs.Nodup → ∃ quads s', dumpGraphs A s graphs = .ok (quads, s') ∧ quads.Nodup ∧
      ∀ q, q ∈ quads ↔ Live n s q ∧ q.graphName ∈ graphs := by
  intro graphs
  induction graphs with
  | nil => exact fun _ _ => ⟨[], _, rfl, .nil, fun q => by simp⟩
  | cons g graphs ih =>
    intro s h hnodup
    rcases nodup_cons.mp hnodup with ⟨hg, hnodup⟩
    have hnone : Returns A n s.dict none := fun t ht => by cases ht
    rcases quadsForPattern_spec I h none none none (some g) hnone (fun _ _ => hnone) with
      ⟨quads, d', hr, hd, hquads, hmem⟩
    rcases ih (h.with_dict n.le_refl hd) hnodup with ⟨rest, s', hrest, hnodup', hmem'⟩
    have hname : ∀ q ∈ quads, q.graphName = g := fun q hq => ((hmem q).mp hq).2.graphName g rfl
    refine ⟨quads ++ rest, s', ?_, ?_, fun q => ?_⟩
    · rw [dumpGraphs, hr]
      show (serialized g (quads.map Quad.stored) >>= _) = _
      rw [serialized_stored hname]
      rw [hrest]
      rfl
    · refine nodup_append'.mpr ⟨hquads, hnodup', fun q hq hq' => ?_⟩
      rw [← hname q hq] at hg
      exact hg ((hmem' q).mp hq').2
    · rw [mem_append, hmem, hmem', mem_cons]
      constructor
      · rintro (⟨hlive, hm⟩ | ⟨hlive, hin⟩)
        · exact ⟨hlive, .inl (hm.graphName g rfl)⟩
        · exact ⟨hlive, .inr hin⟩
      · rintro ⟨hlive, heq | hin⟩
        · refine .inl ⟨hlive, fun t ht => ?_, fun p hp => ?_, fun t ht => ?_, fun g' hg' => ?_⟩
          · cases ht
          · cases hp
          · cases ht
          · cases hg'
            exact heq
        · exact .inr ⟨hlive, hin⟩

/-! ## What is read back -/

section Reload

variable (I : Implements A Knows CompactOk)
include I

/-- A load that returns has added the quads it was given. -/
theorem load_spec : ∀ {quads : List Quad} {s s' : LoudsStore D} {im : Image} {σ : Spec} {count total : Nat},
    Shows Knows im s → Stands σ im → s.autoCompactThreshold = none → load A s count quads = (.ok total, s') →
    ∃ im' σ', Shows Knows im' s' ∧ Stands σ' im' ∧ σ'.quads = σ.quads ∪ quads.toFinset := by
  intro quads
  induction quads with
  | nil =>
    intro s s' im σ count total hs hst _ hr
    cases hr
    exact ⟨im, σ, hs, hst, by simp⟩
  | cons q quads ih =>
    intro s s' im σ count total hs hst hauto hr
    rcases applyOne_spec I hs (.insert q) with ⟨s₁, hone, hs₁, hauto₁⟩
    have hquiet : ∀ p, (im.write (.insert q)).1 ≠ .error (.panic p) := by
      intro p
      rw [Image.write]
      rcases im.names.internQuad q with ⟨r, n'⟩
      cases r <;> simp
    rcases hst.write (.insert q) hquiet with ⟨hans, hst₁⟩
    have hinsert : insert A s q = ((im.write (.insert q)).1, s₁) := by
      have hone : applyInsert A s q = ((im.write (.insert q)).1, s₁) := hone
      rw [insert, hone]
      cases hw : (im.write (.insert q)).1 with
      | error f => rfl
      | ok b =>
        simp only [andThen, maybeAutoCompact]
        rw [hauto₁, hauto]
    rw [load, hinsert] at hr
    cases hw : (im.write (.insert q)).1 with
    | error f =>
      rw [hw] at hr
      cases hr
    | ok b =>
      rw [hw] at hr
      rcases ih hs₁ hst₁ (hauto₁.trans hauto) hr with ⟨im', σ', hs', hst', hquads⟩
      have hok : (σ.write (.insert q)).1.isOk = true := by
        rw [← hans, hw]
        rfl
      refine ⟨im', σ', hs', hst', ?_⟩
      rw [hquads, Spec.write_quads hok, Spec.applyPlain, toFinset_cons]
      ext x
      simp only [Finset.mem_union, Finset.mem_insert]
      tauto

end Reload

/-! ## Runs -/

section Source

open Dictionary DictCompact

variable {bs : Nat}

/-- A dump passes every stored quad that can be written to the serializer, once, and a new
store that loads them, with their blank nodes renamed one to one, has the same quads. -/
def DumpComplete (bs : Nat) (s : LoudsStore Dictionary) : Prop :=
  ∃ quads s', dump (api bs) s = .ok (quads, s') ∧ quads.Nodup ∧
    (∀ sq, (∃ q ∈ quads, sq = q.stored) ↔ sq ∈ LiveSet (api bs) s ∧ storedSubject sq ≠ none) ∧
    ∀ ρ : BlankNode → BlankNode, Function.Bijective ρ → ∀ count s₁,
      load (api bs) (openNew bs none) 0 (quads.map (Quad.relabel ρ)) = (.ok count, s₁) →
      LiveSet (api bs) s₁ = { sq | ∃ q : Quad, q.stored ∈ LiveSet (api bs) s ∧ sq = (q.relabel ρ).stored }

/-- A graph that is named by a blank node and has a quad has a ring: a compaction has
met it. -/
def BlankGraphsCompacted (bs : Nat) (s : LoudsStore Dictionary) : Prop :=
  ∀ sq ∈ LiveSet (api bs) s, ∀ b, sq.graphName = .blankNode b →
    ∃ g, (api bs).getGraphId s.dict sq.graphName = some g ∧ s.graphs[g]?.isSome = true

section

variable (I : Implements A Knows CompactOk) (h : Inv Knows n s) (hl : Listed n s)
    (hdefault : n.graph graphDefault = some .defaultGraph)
include I h hl hdefault

theorem nodup_dumped : (GraphName.defaultGraph :: knownNamedGraphs A s).Nodup := by
  have hname : ∀ g, A.getGraph s.dict g = n.graph g := fun g => I.getGraph _ _ _ h.knows
  refine nodup_cons.mpr ⟨fun hmem => ?_, ?_⟩
  · rcases mem_knownNamedGraphs.mp hmem with ⟨g, hor, hg⟩
    rw [hname] at hg
    rcases hor with hin | ⟨-, hne⟩
    · rcases hl.named g hin with ⟨iri, hiri⟩
      rw [hg] at hiri
      cases hiri
    · rw [← Names.graphId_eq_some] at hg hdefault
      rw [hg] at hdefault
      exact hne (Option.some.inj hdefault)
  · refine List.Nodup.filterMap ?_ (nodup_dedup _)
    intro g g' b hb hb'
    rw [Option.mem_def, hname, ← Names.graphId_eq_some] at hb hb'
    rw [hb] at hb'
    exact Option.some.inj hb'

/-- Which live quads are in a graph that is dumped. -/
theorem dumped_iff
    {q : Quad} (hq : Live n s q) : q.graphName ∈ GraphName.defaultGraph :: knownNamedGraphs A s ↔
      ∀ b, q.graphName = .blankNode b → ∃ g, A.getGraphId s.dict q.graphName = some g ∧
        s.graphs[g]?.isSome = true := by
  rcases hq with ⟨k, hk, hlive⟩
  rcases Names.keyOf_eq_some.mp hk with ⟨g, sId, pId, oId, hids, rfl⟩
  have hgraph := (Names.quadIds_eq_some.mp hids).1
  have hid : A.getGraphId s.dict q.graphName = some g := by
    rw [I.getGraphId _ _ _ h.knows, Names.graphId_eq_some]
    exact hgraph
  have hname : A.getGraph s.dict g = some q.graphName := by
    rw [I.getGraph _ _ _ h.knows]
    exact hgraph
  rw [mem_cons]
  constructor
  · rintro (hd | hknown) b hb
    · rw [hb] at hd
      cases hd
    · rcases mem_knownNamedGraphs.mp hknown with ⟨g', hor, hg'⟩
      rw [I.getGraph _ _ _ h.knows] at hg'
      have heq : g' = g := by
        rw [← Names.graphId_eq_some] at hg' hgraph
        rw [hg'] at hgraph
        exact Option.some.inj hgraph
      rw [heq] at hor hg'
      -- a registered graph is named by an IRI
      rcases hor with hin | ⟨hring, -⟩
      · rcases hl.named g hin with ⟨iri, hiri⟩
        rw [hg', hb] at hiri
        cases hiri
      · exact ⟨g, hid, hring⟩
  · intro hblank
    by_cases hd : q.graphName = .defaultGraph
    · exact .inl hd
    have hne : g ≠ graphDefault := by
      intro heq
      rw [heq, hdefault] at hgraph
      exact hd (Option.some.inj hgraph).symm
    refine .inr (mem_knownNamedGraphs.mpr ⟨g, ?_, hname⟩)
    cases hn : q.graphName with
    | defaultGraph => exact absurd hn hd
    | blankNode b =>
      rcases hblank b hn with ⟨g', hg', hring⟩
      rw [hid] at hg'
      cases hg'
      exact .inr ⟨hring, hne⟩
    | namedNode iri =>
      rcases h.live_iff.mp hlive with hget | ⟨-, hring⟩
      · rcases hl.pending g sId pId oId true iri hget (hn ▸ hgraph) with hin | hring
        · exact .inl hin
        · exact .inr ⟨hring, hne⟩
      · rw [ringContains] at hring
        cases hg : s.graphs[g]? with
        | none =>
          rw [hg] at hring
          cases hring
        | some ring => exact .inr ⟨rfl, hne⟩

end

theorem run_listed (hbs : 0 < bs) (threshold : Option Nat) {calls : List Call}
    (h : Machine.Meets (call (api bs)) (fun s c => DictOk bs s (.call c)) (openNew bs threshold) calls) :
    ∃ n, Inv (Dictionary.Knows bs) n (Machine.run (call (api bs)) (openNew bs threshold) calls).2 ∧
      Listed n (Machine.run (call (api bs)) (openNew bs threshold) calls).2 := by
  refine Machine.run_inv (J := fun s => ∃ n, Inv (Dictionary.Knows bs) n s ∧ Listed n s)
    (P := fun s c => DictOk bs s (.call c)) ?_
    ⟨_, (shows_new (knows_new bs) threshold).inv, listed_new _ threshold⟩ h
  intro s c hs hc
  exact call_listed (implements hbs) c hs (hc.namesSafe hbs)

/-- In every state reached a dump is complete exactly if every graph that is named by a
blank node and has a quad has a ring. -/
theorem dump_complete_iff (hbs : 0 < bs) (threshold : Option Nat) {calls : List Call}
    (h : Machine.Meets (call (api bs)) (fun s c => DictOk bs s (.call c)) (openNew bs threshold) calls) :
    DumpComplete bs (Machine.run (call (api bs)) (openNew bs threshold) calls).2 ↔
      BlankGraphsCompacted bs (Machine.run (call (api bs)) (openNew bs threshold) calls).2 := by
  have I := implements hbs
  rcases run_listed hbs threshold h with ⟨n, hinv, hl⟩
  generalize (Machine.run (call (api bs)) (openNew bs threshold) calls).2 = s at hinv hl ⊢
  have hdefault := hinv.knows.graphs.default
  have hlive := liveSet_eq I hinv
  rcases dumpGraphs_spec I hinv (nodup_dumped I hinv hl hdefault) with ⟨quads, s', hdump, hnodup, hmem⟩
  have hwritten : ∀ q : Quad, storedSubject q.stored ≠ none := by
    intro q
    rcases q with ⟨subject, p, o, g⟩
    cases subject <;> simp [storedSubject, Quad.stored, Subject.toTerm]
  constructor
  · rintro ⟨quads', s'', hdump', -, hall, -⟩ sq hsq
    have hsame : (quads', s'') = (quads, s') := Except.ok.inj (hdump'.symm.trans hdump)
    cases hsame
    rw [hlive] at hsq
    rcases hsq with ⟨q, hq, rfl⟩
    -- it is dumped, so its graph is listed
    have hin : q.stored ∈ LiveSet (api bs) s := hlive ▸ ⟨q, hq, rfl⟩
    rcases (hall q.stored).mpr ⟨hin, hwritten q⟩ with ⟨q', hq', heq⟩
    rw [← Quad.stored_injective heq] at hq'
    exact (dumped_iff I hinv hl hdefault hq).mp ((hmem q).mp hq').2
  · intro hcompacted
    have hevery : ∀ q, q ∈ quads ↔ Live n s q := by
      intro q
      rw [hmem]
      refine ⟨fun hq => hq.1, fun hq => ⟨hq, (dumped_iff I hinv hl hdefault hq).mpr ?_⟩⟩
      exact hcompacted q.stored (hlive ▸ ⟨q, hq, rfl⟩)
    refine ⟨quads, s', hdump, hnodup, fun sq => ?_, fun ρ _ count s₁ hload => ?_⟩
    · rw [hlive]
      constructor
      · rintro ⟨q, hq, rfl⟩
        exact ⟨⟨q, (hevery q).mp hq, rfl⟩, hwritten q⟩
      · rintro ⟨⟨q, hq, rfl⟩, -⟩
        exact ⟨q, (hevery q).mpr hq, rfl⟩
    · have hs := shows_new (knows_new bs) none
      rcases load_spec I hs stands_empty rfl hload with ⟨im', σ', hs', hst', hquads⟩
      rw [liveSet_eq I hs'.inv, hlive]
      ext sq
      constructor
      · rintro ⟨q, hq, rfl⟩
        have hq := (hst'.live_iff hs' q).mp hq
        rw [hquads, Finset.mem_union, mem_toFinset] at hq
        rcases hq with hq | hq
        · exact absurd hq (Finset.notMem_empty q)
        · rcases mem_map.mp hq with ⟨q₀, hq₀, rfl⟩
          exact ⟨q₀, ⟨q₀, (hevery q₀).mp hq₀, rfl⟩, rfl⟩
      · rintro ⟨q, ⟨q₀, hq₀, heq⟩, rfl⟩
        rw [← Quad.stored_injective heq]
        refine ⟨q₀.relabel ρ, (hst'.live_iff hs' _).mpr ?_, rfl⟩
        rw [hquads, Finset.mem_union, mem_toFinset]
        exact .inr (mem_map.mpr ⟨q₀, (hevery q₀).mpr hq₀, rfl⟩)

/-- A quad of the graph `_:g`. -/
def blankGraphQuad : Quad :=
  ⟨.namedNode ⟨"http://ex/s"⟩, ⟨"http://ex/p"⟩, .literal (.string "o"), .blankNode ⟨"g"⟩⟩

/-- Compacted, the quad is dumped. -/
theorem dump_complete_compacted : DumpComplete sourceBlockSize
    (Machine.run (call (api sourceBlockSize))
      (openNew sourceBlockSize none) [.insert blankGraphQuad, .compact]).2 := by
  have hmeets : Machine.Meets (call (api sourceBlockSize)) (fun s c =>
      (stepCompactsAt (api sourceBlockSize) s (.call c)).all (fitsBlock sourceBlockSize) = true)
      (openNew sourceBlockSize none) [.insert blankGraphQuad, .compact] := by
    decide +kernel
  have hok := hmeets.imp (Q := fun s c => DictOk sourceBlockSize s (.call c)) fun s c hc => dictOk_of_fitsBlock hc
  refine (dump_complete_iff (by decide) none hok).mpr ?_
  have hread : readAll (api sourceBlockSize)
    (Machine.run (call (api sourceBlockSize)) (openNew sourceBlockSize none)
      [.insert blankGraphQuad, .compact]).2 = some [blankGraphQuad.stored] := by
    decide +kernel
  have hring : (((api sourceBlockSize).getGraphId (Machine.run (call (api sourceBlockSize))
      (openNew sourceBlockSize none) [.insert blankGraphQuad,
        .compact]).2.dict blankGraphQuad.graphName).bind fun g =>
        (Machine.run (call (api sourceBlockSize)) (openNew sourceBlockSize none)
          [.insert blankGraphQuad, .compact]).2.graphs[g]?).isSome = true := by
    decide +kernel
  intro sq hsq b _
  rw [liveSet_of_readAll hread] at hsq
  rw [mem_singleton.mp hsq]
  rcases Option.isSome_iff_exists.mp hring with ⟨ring, hbind⟩
  rcases Option.bind_eq_some_iff.mp hbind with ⟨g, hg, hget⟩
  exact ⟨g, hg, by rw [hget]; rfl⟩

/-- Pending, it is not. -/
theorem dump_misses_pending :
    ¬∀ calls : List Call,
      DumpComplete sourceBlockSize (Machine.run (call (api sourceBlockSize))
        (openNew sourceBlockSize none) calls).2 := by
  intro hclaim
  rcases hclaim [.insert blankGraphQuad] with ⟨quads, s', hdump, -, hall, -⟩
  have hread : readAll (api sourceBlockSize)
    (Machine.run (call (api sourceBlockSize)) (openNew sourceBlockSize none)
      [.insert blankGraphQuad]).2 = some [blankGraphQuad.stored] := by
    decide +kernel
  have hempty : (dump (api sourceBlockSize)
    (Machine.run (call (api sourceBlockSize)) (openNew sourceBlockSize none)
      [.insert blankGraphQuad]).2).map (fun r => r.1) = .ok [] := by
    decide +kernel
  rw [hdump] at hempty
  have hnil : quads = [] := Except.ok.inj hempty
  rw [liveSet_of_readAll hread] at hall
  rcases (hall blankGraphQuad.stored).mpr ⟨mem_singleton_self _, by decide⟩ with ⟨q, hq, -⟩
  rw [hnil] at hq
  cases hq

end Source

end LoudsStore

end Nova
