import Nova.Core.Dict
import Nova.Louds.Refine

/-!
# Runs over the dictionary of the source

Runs of calls and bulk loads of a store over the two-tier `Dictionary`. A step
whose dictionary compaction is safe keeps the invariant (`DictOk`,
`step_inv`); nothing else is asked of a run.

Three guarantees of the interface fail on some runs, and the results here say on
which.

* The store is a set of quads as long as no lookup asks a dictionary with a compacted
  tier for a quoted triple that was never interned (`run_refines_set`); such a lookup
  panics (`unknown_quoted_triple_panics`).

* `len` counts a ring triple less for every tombstone and one more for every
  pending insert. A write that overwrites the opposite entry of the delta breaks
  the count (`len_misses_removed_insert`); without such writes it is right in
  every state reached (`len_eq_live_count`).
* `bulk_load` puts its quads into the rings, below the delta. A quad with a
  tombstone in the delta stays hidden and is lost at the next compaction
  (`bulkLoad_hides_tombstoned`); `bulkLoad_unites_iff` says that this is the only
  way it can fail.
-/

namespace Nova

open Nova.Lib List

namespace LoudsStore

variable {D : Type} {A : DictApi D} {Knows : D → Names → Prop} {CompactOk : Names → Prop}

/-! ## Steps -/

/-- A call or a bulk load. -/
inductive Event where
  | call (c : Call)
  | bulkLoad (quads : List Quad)
deriving DecidableEq, Repr

def step (A : DictApi D) (s : LoudsStore D) : Event → Outcome D Reply
  | .call c => call A s c
  | .bulkLoad quads => andThen (bulkLoad A s quads) fun count s => (.ok (.count count), s)

/-- The dictionary a step compacts, if it compacts one. -/
def stepCompactsAt (A : DictApi D) (s : LoudsStore D) : Event → Option D
  | .call c => compactsAt A s c
  | .bulkLoad quads =>
    match loadQuads A s s.perGraph quads with
    | (.error _, _) => none
    | (.ok _, s) => some s.dict

variable {s : LoudsStore D}

variable {n : Names}

/-- A bulk load either fits its names and adds its keys to the rings, or fails
and changes no data. -/
theorem bulkLoad_spec (I : Implements A Knows CompactOk) (h : Inv Knows n s) (quads : List Quad)
    (hsafe : ∀ d n, stepCompactsAt A s (.bulkLoad quads) = some d → Knows d n → CompactOk n) :
    (∃ s' b, bulkLoad A s quads = (.ok quads.length, s') ∧ CompactOk (n.internQuads quads).2 ∧
        (∀ q ∈ quads, ∃ k, (n.internQuads quads).2.keyOf q = some k) ∧
        Next Knows n ((n.internQuads quads).2.withSealed b) s s'
          (s.view.load (keysOf (n.internQuads quads).2 quads))) ∨
      ∃ e s', bulkLoad A s quads = (.error (.err e), s') ∧
        Next Knows n (n.internQuads quads).2 s s' s.view := by
  rcases loadQuads_spec I quads h h.perGraph_known with ⟨-, -, h₁, hres⟩
  rw [LoadResult] at hres
  cases hnames : (n.internQuads quads).1 with
  | error e =>
    rcases bulkLoad_error I h hnames with ⟨s', hr, hnext⟩
    exact .inr ⟨e, s', hr, hnext⟩
  | ok _ =>
    rw [hnames] at hres
    rcases hres with ⟨m', hm, hloaded⟩
    have hok : CompactOk (n.internQuads quads).2 := by
      apply hsafe _ _ _ h₁.knows
      rw [stepCompactsAt]
      rcases hl : loadQuads A s s.perGraph quads with ⟨r, s₁⟩
      rw [hl] at hm
      simp only at hm
      rw [hm]
    rcases bulkLoad_ok I h hnames hok with ⟨s', b, hr, hnext⟩
    exact .inl ⟨s', b, hr, hok, hloaded.keys, hnext⟩

/-- A step whose dictionary compaction is safe keeps the invariant and the names. -/
theorem step_inv (I : Implements A Knows CompactOk) {n₀ : Names} {e : Event}
    (h : ∃ n, n₀.Le n ∧ Inv Knows n s)
    (hsafe : ∀ d n, stepCompactsAt A s e = some d → Knows d n → CompactOk n) :
    ∃ n, n₀.Le n ∧ Inv Knows n (step A s e).2 := by
  rcases h with ⟨n, hle, h⟩
  cases e with
  | call c =>
    rcases call_spec I h.shows c hsafe with ⟨s', im', hr, hs', -, him⟩
    have hwrites := hle.trans (Image.le_writes ⟨n, s.view⟩ c.writes)
    rw [step, hr]
    refine ⟨_, ?_, hs'.inv⟩
    rcases him with ⟨rfl, -⟩ | ⟨b, rfl⟩
    · exact hwrites
    · exact hwrites.trans (Names.le_withSealed _ _)
  | bulkLoad quads =>
    rw [step]
    rcases bulkLoad_spec I h quads hsafe with ⟨s', b, hr, -, -, hnext⟩ | ⟨e, s', hr, hnext⟩
    · rw [hr]
      exact ⟨_, hle.trans hnext.le, hnext.inv⟩
    · rw [hr]
      exact ⟨_, hle.trans hnext.le, hnext.inv⟩

/-! ## What a reader sees -/

/-- Everything `quads_for_pattern(None, None, None, None)` returns. -/
def LiveSet (A : DictApi D) (s : LoudsStore D) : Set StoredQuad :=
  { sq | ∃ qs s', quadsForPattern A s none none none none = .ok (qs, s') ∧ sq ∈ qs }

/-- The list behind `LiveSet`, to be computed. -/
def readAll (A : DictApi D) (s : LoudsStore D) : Option (List StoredQuad) :=
  match quadsForPattern A s none none none none with
  | .ok (qs, _) => some qs
  | .error _ => none

theorem liveSet_of_readAll {qs : List StoredQuad} (h : readAll A s = some qs) :
    LiveSet A s = { sq | sq ∈ qs } := by
  rw [readAll] at h
  rcases hr : quadsForPattern A s none none none none with e | ⟨qs', s'⟩
  · rw [hr] at h
    cases h
  · rw [hr] at h
    cases h
    ext sq
    constructor
    · intro hsq
      rcases hsq with ⟨qs'', s'', hr', hsq⟩
      rw [hr] at hr'
      cases hr'
      exact hsq
    · exact fun hsq => ⟨_, _, hr, hsq⟩

theorem liveSet_eq (I : Implements A Knows CompactOk)
    (h : Inv Knows n s) : LiveSet A s = Quad.stored '' { q | Live n s q } := by
  rcases quadsForPattern_spec I h none none none none (by intro t ht; cases ht)
    (by intro _ _ t ht; cases ht) with ⟨qs, d', hr, -, -, hmem⟩
  have hall : ∀ q, q ∈ qs ↔ Live n s q := by
    intro q
    rw [hmem]
    constructor
    · exact fun hq => hq.1
    · exact fun hq => ⟨hq, by simp, by simp, by simp, by simp⟩
  ext sq
  simp only [LiveSet, hr, Set.mem_ofPred_eq, Set.mem_image, Except.ok.injEq, Prod.mk.injEq]
  constructor
  · intro hsq
    rcases hsq with ⟨_, _, ⟨rfl, -⟩, hsq⟩
    rcases mem_map.mp hsq with ⟨q, hq, rfl⟩
    exact ⟨q, (hall q).mp hq, rfl⟩
  · intro hsq
    rcases hsq with ⟨q, hq, rfl⟩
    exact ⟨_, _, ⟨rfl, rfl⟩, mem_map_of_mem ((hall q).mpr hq)⟩

theorem live_count (I : Implements A Knows CompactOk) (h : Inv Knows n s) :
    ∃ qs s', quadsForPattern A s none none none none = .ok (qs, s') ∧ qs.Nodup ∧
      qs.length = s.view.live.card := by
  rcases quadsForPattern_spec I h none none none none (by intro t ht; cases ht)
    (by intro _ _ t ht; cases ht) with ⟨qs, d', hr, -, hnodup, hmem⟩
  refine ⟨_, _, hr, hnodup.map Quad.stored_injective, ?_⟩
  -- the live keys are the keys of the quads returned
  have hlive : ∀ q ∈ qs, Live n s q := fun q hq => ((hmem q).mp hq).1
  have hkeys : s.view.live = (qs.filterMap n.keyOf).toFinset := by
    ext k
    rw [mem_toFinset, mem_filterMap]
    constructor
    · intro hk
      rcases h.live_keys hk with ⟨q, hq⟩
      exact ⟨q, (hmem q).mpr ⟨⟨k, hq, hk⟩, by simp, by simp, by simp, by simp⟩, hq⟩
    · intro hk
      rcases hk with ⟨q, hq, hk⟩
      rcases hlive q hq with ⟨k', hk', hmem'⟩
      rw [hk] at hk'
      cases hk'
      exact hmem'
  have hnodupKeys : (qs.filterMap n.keyOf).Nodup := by
    refine hnodup.filterMap ?_
    intro q q' k hq hq'
    exact Names.keyOf_inj hq hq'
  have hlen : (qs.filterMap n.keyOf).length = qs.length := by
    rw [length_filterMap_eq_countP, countP_eq_length]
    intro q hq
    rcases hlive q hq with ⟨k, hk, -⟩
    rw [hk]
    rfl
  rw [length_map, hkeys, toFinset_card_of_nodup hnodupKeys, hlen]

/-! ## Counting -/

/-- The write does not overwrite the opposite entry of the delta: no insert of a
quad with a tombstone, no remove of a quad with a pending insert. -/
def keepsCount (A : DictApi D) (s : LoudsStore D) : QuadOp → Bool
  | .insert q =>
    match internQuad A s q with
    | (.ok (gId, sId, pId, oId), _) => decide (s.delta.get (packQuad gId sId pId oId) ≠ some false)
    | (.error _, _) => true
  | .remove q =>
    match lookupQuad A s.dict q with
    | .ok (some (gId, sId, pId, oId)) => decide (s.delta.get (packQuad gId sId pId oId) ≠ some true)
    | _ => true

/-- What makes the count right. -/
def Counted (Knows : D → Names → Prop) (s : LoudsStore D) : Prop :=
  ∃ n, Inv Knows n s ∧ s.view.Tight

/-- A write that does not overwrite an opposite entry keeps the count. -/
theorem applyOne_counted (I : Implements A Knows CompactOk) {w : QuadOp}
    (h : Counted Knows s) (hw : keepsCount A s w = true) : Counted Knows (applyOne A s w).2 := by
  rcases h with ⟨n, h, htight⟩
  rcases applyOne_spec I h.shows w with ⟨s', hr, hs', -⟩
  rw [hr]
  refine ⟨_, hs'.inv, ?_⟩
  rw [hs'.view]
  cases w with
  | insert q =>
    rw [Image.write]
    rcases internQuad_spec I h.knows q with ⟨d', hi, -⟩
    rw [keepsCount, hi] at hw
    rcases hn : n.internQuad q with ⟨r, n'⟩
    rw [hn] at hw
    cases r with
    | error e => exact htight
    | ok ids =>
      rcases ids with ⟨g, sId, pId, oId⟩
      simp only [viewInsert]
      split
      · exact htight
      · next hout =>
        -- the triple is in no ring, or it would be live
        apply htight.insert
        intro hbase
        have hget : s.delta.get (packQuad g sId pId oId) ≠ some false := by
          simpa [Except.mapError] using hw
        exact hout (Overlay.mem_live.mpr (.inr ⟨fun hrem => hget (Delta.mem_marked.mp hrem), hbase⟩))
  | remove q =>
    rw [Image.write]
    rw [keepsCount, lookupQuad_spec I h.knows] at hw
    cases hl : n.lookupQuad q with
    | error p => exact htight
    | ok ids =>
      cases ids with
      | none => exact htight
      | some ids =>
        rcases ids with ⟨g, sId, pId, oId⟩
        rw [hl] at hw
        simp only [viewRemove]
        split
        · next hin =>
          -- the live triple is in a ring, for it was not inserted
          apply htight.remove
          have hget : s.delta.get (packQuad g sId pId oId) ≠ some true := by simpa using hw
          rcases Overlay.mem_live.mp hin with hins | hbase
          · exact absurd (Delta.mem_marked.mp hins) hget
          · exact hbase.2
        · exact htight

theorem call_counted (I : Implements A Knows CompactOk) {c : Call} (h : Counted Knows s)
    (hw : Machine.BatchMeets (applyOne A) (fun s w => keepsCount A s w = true) s c.writes)
    (hsafe : ∀ d n, compactsAt A s c = some d → Knows d n → CompactOk n) : Counted Knows (call A s c).2 := by
  have hbatch : Counted Knows (applyWrites A s c.writes).2 :=
    Machine.batch_inv (fun s w hs hw => applyOne_counted I hs hw) h hw
  rcases h with ⟨n, h, -⟩
  rcases call_spec I h.shows c hsafe with ⟨s', im', hr, hs', -, him⟩
  rcases applyWrites_spec I h.shows c.writes with ⟨s₁, hr₁, hs₁, -⟩
  rw [hr]
  refine ⟨_, hs'.inv, ?_⟩
  rw [hs'.view]
  rcases him with ⟨rfl, -⟩ | ⟨b, rfl⟩
  · rw [hr₁] at hbatch
    rcases hbatch with ⟨-, -, htight⟩
    rw [← hs₁.view]
    exact htight
  · exact Overlay.tight_merge _

theorem Counted.len_eq (I : Implements A Knows CompactOk) (h : Counted Knows s) :
    ∃ qs s', quadsForPattern A s none none none none = .ok (qs, s') ∧ qs.Nodup ∧
      s.len = qs.length := by
  rcases h with ⟨n, h, htight⟩
  rcases live_count I h with ⟨qs, s', hr, hnodup, hlen⟩
  exact ⟨qs, s', hr, hnodup, by rw [hlen, h.len_eq, Overlay.card_live htight]⟩

section Source

open Dictionary DictCompact

variable {bs : Nat}

/-- A new store over the dictionary of the source. -/
def openNew (bs : Nat) (threshold : Option Nat) : LoudsStore Dictionary :=
  { new (Dictionary.new bs) with autoCompactThreshold := threshold }

/-- The step compacts the dictionary safely, if it does. -/
def DictOk (bs : Nat) (s : LoudsStore Dictionary) (e : Event) : Prop :=
  ∀ d, stepCompactsAt (api bs) s e = some d → CompactSafe bs d

theorem DictOk.namesSafe {s : LoudsStore Dictionary} {e : Event} (h : DictOk bs s e) (hbs : 0 < bs) :
    ∀ d n, stepCompactsAt (api bs) s e = some d → Dictionary.Knows bs d n → NamesSafe bs n :=
  fun d _ hd hn => hn.namesSafe hbs (h d hd)

theorem reached_inv (hbs : 0 < bs) (threshold : Option Nat) {events : List Event}
    (h : Machine.Meets (step (api bs)) (DictOk bs) (openNew bs threshold) events) :
    ∃ n, Names.empty.Le n ∧
      Inv (Dictionary.Knows bs) n (Machine.run (step (api bs)) (openNew bs threshold) events).2 := by
  refine Machine.run_inv (J := fun s => ∃ n, Names.empty.Le n ∧ Inv (Dictionary.Knows bs) n s)
    (P := DictOk bs) ?_ ⟨_, Names.le_refl _, (shows_new (knows_new bs) threshold).inv⟩ h
  intro s e hinv hok
  exact step_inv (implements hbs) hinv (hok.namesSafe hbs)

/-- The call keeps the count: no write overwrites the opposite entry of the delta,
and the dictionary is compacted safely. -/
def CountOk (bs : Nat) (s : LoudsStore Dictionary) (c : Call) : Prop :=
  Machine.BatchMeets (applyOne (api bs)) (fun s w => keepsCount (api bs) s w = true) s c.writes ∧
    DictOk bs s (.call c)

/-- In every run whose calls keep the count, `len` is the number of live quads in
every state reached. -/
theorem len_eq_live_count (hbs : 0 < bs) (threshold : Option Nat) {calls : List Call}
    (h : Machine.Meets (call (api bs)) (CountOk bs) (openNew bs threshold) calls) {reached : List Call}
    (hpre : reached <+: calls) :
    ∃ qs s', quadsForPattern (api bs)
        (Machine.run (call (api bs)) (openNew bs threshold) reached).2 none none none none =
          .ok (qs, s') ∧
      qs.Nodup ∧ (Machine.run (call (api bs)) (openNew bs threshold) reached).2.len = qs.length := by
  have I := implements hbs
  rcases hpre with ⟨rest, rfl⟩
  have hstart : Counted (Dictionary.Knows bs) (openNew bs threshold) := by
    have hs := shows_new (knows_new bs) threshold
    refine ⟨_, hs.inv, ?_⟩
    exact ⟨Finset.empty_subset _, Finset.disjoint_empty_left _⟩
  apply Counted.len_eq I
  refine Machine.run_inv (P := CountOk bs) ?_ hstart (Machine.meets_append.mp h).1
  intro s c hs hc
  exact call_counted I hs hc.1 (hc.2.namesSafe hbs)

/-- At most one block of entries: such a dictionary is compacted safely. -/
def fitsBlock (bs : Nat) (d : Dictionary) : Bool :=
  match d.collectEntries (List.range d.idToTerm.length) with
  | .ok (.ok es) => decide (es.length ≤ bs)
  | _ => false

theorem compactSafe_of_fitsBlock {d : Dictionary} (h : fitsBlock bs d = true) : CompactSafe bs d := by
  unfold fitsBlock at h
  split at h
  · next es hes =>
    rw [decide_eq_true_iff] at h
    exact compactSafe_of_length_le h (by rw [hes]; rfl)
  · cases h

theorem dictOk_of_fitsBlock {s : LoudsStore Dictionary} {e : Event}
    (h : (stepCompactsAt (api bs) s e).all (fitsBlock bs) = true) : DictOk bs s e := by
  intro d hd
  rw [hd] at h
  exact compactSafe_of_fitsBlock h

/-- A ring triple is removed and another quad inserted: one live quad, and `len`
is one. -/
theorem len_eq_live_count_replaced :
    (Machine.run (call (api sourceBlockSize)) (openNew sourceBlockSize none)
      [.insert (sampleQuad "a"), .compact, .remove (sampleQuad "a"), .insert (sampleQuad "b")]).2.len =
        1 ∧
    ∃ qs s', quadsForPattern (api sourceBlockSize)
        (Machine.run (call (api sourceBlockSize)) (openNew sourceBlockSize none)
          [.insert (sampleQuad "a"), .compact, .remove (sampleQuad "a"), .insert (sampleQuad "b")]).2
        none none none none = .ok (qs, s') ∧ qs.length = 1 := by
  have hmeets : Machine.Meets (call (api sourceBlockSize)) (fun s c =>
      Machine.BatchMeets (applyOne (api sourceBlockSize))
        (fun s w => keepsCount (api sourceBlockSize) s w = true) s c.writes ∧
      (stepCompactsAt (api sourceBlockSize) s (.call c)).all (fitsBlock sourceBlockSize) = true)
      (openNew sourceBlockSize none)
      [.insert (sampleQuad "a"), .compact, .remove (sampleQuad "a"), .insert (sampleQuad "b")] := by
    decide +kernel
  have hok := hmeets.imp (Q := CountOk sourceBlockSize) fun s c hc =>
    ⟨hc.1, dictOk_of_fitsBlock hc.2⟩
  have hlen : (Machine.run (call (api sourceBlockSize)) (openNew sourceBlockSize none)
      [.insert (sampleQuad "a"), .compact, .remove (sampleQuad "a"), .insert (sampleQuad "b")]).2.len =
        1 := by
    decide +kernel
  rcases len_eq_live_count (by decide) none hok (prefix_refl _) with ⟨qs, s', hr, -, hcount⟩
  exact ⟨hlen, qs, s', hr, hcount.symm.trans hlen⟩

/-- A quad that was only pending is removed: the tombstone counts against the one
ring triple, and `len` is zero while a reader finds that triple. -/
theorem len_misses_removed_insert :
    ¬∀ calls : List Call, ∃ qs s', quadsForPattern (api sourceBlockSize)
        (Machine.run (call (api sourceBlockSize)) (openNew sourceBlockSize none) calls).2
        none none none none = .ok (qs, s') ∧
      (Machine.run (call (api sourceBlockSize)) (openNew sourceBlockSize none) calls).2.len =
        qs.length := by
  intro hclaim
  rcases hclaim [.insert (sampleQuad "a"), .compact, .insert (sampleQuad "b"),
    .remove (sampleQuad "b")] with ⟨qs, s', hr, hcount⟩
  have hlen : (Machine.run (call (api sourceBlockSize)) (openNew sourceBlockSize none)
      [.insert (sampleQuad "a"), .compact, .insert (sampleQuad "b"), .remove (sampleQuad "b")]).2.len =
        0 := by
    decide +kernel
  have hread : (quadsForPattern (api sourceBlockSize)
      (Machine.run (call (api sourceBlockSize)) (openNew sourceBlockSize none)
        [.insert (sampleQuad "a"), .compact, .insert (sampleQuad "b"), .remove (sampleQuad "b")]).2
      none none none none).map (fun r => r.1.length) = .ok 1 := by
    decide +kernel
  rw [hr] at hread
  have hone : qs.length = 1 := Except.ok.inj hread
  rw [hlen, hone] at hcount
  cases hcount

end Source

/-! ## Calls on the set -/

section Set

open Dictionary DictCompact

variable {bs : Nat}

/-- Asking for the term does not reach an unknown quoted triple in a compacted tier. -/
def Asks (d : Dictionary) (t : Term) : Prop :=
  t.isTriple = true → d.compacted.encodedCount = 0 ∨ (d.termToId.lookup t).isSome = true

instance (d : Dictionary) (t : Term) : Decidable (Asks d t) := inferInstanceAs (Decidable (_ → _))

/-- The lookup of a quad returns: the object is asked for only where the graph, the
subject and the predicate are known. -/
def Findable (d : Dictionary) (q : Quad) : Prop :=
  d.getGraphId q.graphName ≠ none → d.getId q.subject.toTerm ≠ .ok none →
    d.getId (.namedNode q.predicate) ≠ .ok none → Asks d q.object

instance (d : Dictionary) (q : Quad) : Decidable (Findable d q) := inferInstanceAs (Decidable (_ → _ → _ → _))

/-- The lookups of a pattern return. -/
def FindablePattern (d : Dictionary) (subject : Option Term) (predicate : Option NamedNode)
    (object : Option Term) : Prop :=
  (∀ t, subject = some t → Asks d t) ∧
    ((∀ t, subject = some t → d.getId t ≠ .ok none) →
      (∀ p, predicate = some p → d.getId (.namedNode p) ≠ .ok none) → ∀ t, object = some t → Asks d t)

theorem getId_of_asks (hbs : 0 < bs) {d : Dictionary} (h : Dictionary.Knows bs d n) {t : Term}
    (ht : Asks d t) : n.getId t = .ok (n.termId t) := by
  rcases n.getId_cases t with hr | ⟨hnone, hsealed, p, hr⟩
  · exact hr
  -- the panic would need what the condition excludes
  have htriple : t.isTriple = true := by
    by_contra hno
    rw [Names.getId, hnone] at hr
    simp [hno] at hr
  rcases ht htriple with hzero | hsome
  · have hseal := h.isSealed
    rw [hsealed, hzero] at hseal
    simp at hseal
  · obtain ⟨id, hid⟩ := Option.isSome_iff_exists.mp hsome
    have hget := h.getId hbs t
    rw [hr, Dictionary.getId, hid] at hget
    exact absurd hget (by simp)

theorem lookupQuad_of_findable (hbs : 0 < bs) {d : Dictionary} (h : Dictionary.Knows bs d n)
    {q : Quad} (hq : Findable d q) : n.lookupQuad q = .ok (n.quadIds q) := by
  rcases n.lookupQuad_cases q with hr | ⟨-, -, p, hr⟩
  · exact hr
  have hgraph : d.getGraphId q.graphName = n.graphId q.graphName := (implements hbs).getGraphId _ _ _ h
  have hregular : ∀ t : Term, t.isTriple = false → n.getId t = .ok (n.termId t) := by
    intro t ht
    apply getId_of_asks hbs h
    intro htriple
    rw [ht] at htriple
    exact absurd htriple (by simp)
  rw [Findable, hgraph, h.getId hbs, h.getId hbs, hregular _ (Subject.toTerm_isTriple _), hregular _ rfl] at hq
  rw [Names.lookupQuad, hregular _ (Subject.toTerm_isTriple _), hregular _ rfl] at hr ⊢
  rw [Names.quadIds]
  -- the lookup stops where a name is unknown
  rcases hg : n.graphId q.graphName with _ | g
  · rfl
  rcases hs : n.termId q.subject.toTerm with _ | sId
  · rfl
  rcases hp : n.termId (.namedNode q.predicate) with _ | pId
  · rfl
  have hobject := getId_of_asks hbs h (hq (by simp [hg]) (by simp [hs]) (by simp [hp]))
  simp only [hobject] at hr ⊢
  rcases n.termId q.object with _ | oId <;> rfl

/-- The condition on a write. -/
def WriteOk (d : Dictionary) : QuadOp → Prop
  | .insert _ => True
  | .remove q => Findable d q

instance (d : Dictionary) : (w : QuadOp) → Decidable (WriteOk d w)
  | .insert _ => isTrue trivial
  | .remove q => inferInstanceAs (Decidable (Findable d q))

/-- The lookups of a call return, and its dictionary compaction is safe. -/
def CallOk (bs : Nat) (s : LoudsStore Dictionary) (c : Call) : Prop :=
  Machine.BatchMeets (applyOne (api bs)) (fun s w => WriteOk s.dict w) s c.writes ∧ DictOk bs s (.call c)

theorem quiet_of_writeOk (hbs : 0 < bs) {d : Dictionary} (h : Dictionary.Knows bs d n) {w : QuadOp}
    (hw : WriteOk d w) : Quiet n w := by
  cases w with
  | insert q => trivial
  | remove q => exact lookupQuad_of_findable hbs h hw

theorem CallOk.callSafe (hbs : 0 < bs) {s : LoudsStore Dictionary} {c : Call} (h : CallOk bs s c) :
    CallSafe (api bs) (Dictionary.Knows bs) (NamesSafe bs) s c :=
  ⟨h.1.imp fun _ _ hw _ hn => quiet_of_writeOk hbs hn hw, h.2.namesSafe hbs⟩

/-- The readers answer for the set, wherever their lookups return: membership, and for
every pattern each matching quad once. -/
structure Answers (bs : Nat) (s : LoudsStore Dictionary) (S : Finset Quad) : Prop where
  contains : ∀ q, Findable s.dict q → contains (api bs) s q = .ok (decide (q ∈ S))
  quadsForPattern : ∀ subject predicate object graphName, FindablePattern s.dict subject predicate object →
    ∃ (qs : List Quad) (s' : LoudsStore Dictionary),
      quadsForPattern (api bs) s subject predicate object graphName = .ok (qs.map Quad.stored, s') ∧
        qs.Nodup ∧ ∀ q, q ∈ qs ↔ q ∈ S ∧ PatternMatches subject predicate object graphName q

theorem FindablePattern.returns (hbs : 0 < bs) {d : Dictionary} (h : Dictionary.Knows bs d n)
    {subject : Option Term}
    {predicate : Option NamedNode} {object : Option Term} (hok : FindablePattern d subject predicate object) :
    Returns (api bs) n d subject ∧ ((∀ t, subject = some t → n.termId t ≠ none) →
      (∀ p, predicate = some p → n.termId (.namedNode p) ≠ none) → Returns (api bs) n d object) := by
  have hknown : ∀ {t : Term}, n.termId t ≠ none → d.getId t ≠ .ok none := by
    intro t ht hnone
    rw [h.getId hbs, Names.getId] at hnone
    rcases hid : n.termId t with _ | id
    · exact ht hid
    · rw [hid] at hnone
      exact absurd hnone (by simp)
  constructor
  · intro t ht
    exact (h.getId hbs t).trans (getId_of_asks hbs h (hok.1 t ht))
  · intro hs hp t ht
    have hobject := hok.2 (fun t ht => hknown (hs t ht)) (fun p hpr => hknown (hp p hpr)) t ht
    exact (h.getId hbs t).trans (getId_of_asks hbs h hobject)

theorem Holds.answers (hbs : 0 < bs) {s : LoudsStore Dictionary} {σ : Spec} (h : Holds (Dictionary.Knows bs) s σ) :
    Answers bs s σ.quads := by
  obtain ⟨n, hinv, hlive⟩ := h.live_iff
  constructor
  · intro q hq
    obtain ⟨b, hr, hb⟩ := contains_spec (implements hbs) hinv (lookupQuad_of_findable hbs hinv.knows hq)
    rw [hr, Bool.eq_iff_iff.mpr (hb.trans ((hlive q).trans decide_eq_true_iff.symm))]
  · intro subject predicate object graphName hok
    obtain ⟨hsub, hobj⟩ := hok.returns hbs hinv.knows
    obtain ⟨qs, d', hr, -, hnodup, hmem⟩ := quadsForPattern_spec (implements hbs) hinv subject predicate object
      graphName hsub hobj
    exact ⟨qs, _, hr, hnodup, fun q => by rw [hmem, hlive]⟩

theorem run_holds (hbs : 0 < bs) (threshold : Option Nat) {calls : List Call}
    (h : Machine.Meets (call (api bs)) (CallOk bs) (openNew bs threshold) calls) :
    (Machine.run (call (api bs)) (openNew bs threshold) calls).1 = (Machine.run Spec.call .empty calls).1 ∧
      Holds (Dictionary.Knows bs) (Machine.run (call (api bs)) (openNew bs threshold) calls).2
        (Machine.run Spec.call .empty calls).2 :=
  Machine.run_sim (call_holds (implements hbs)) (holds_new (knows_new bs) threshold)
    (h.imp fun _ _ hc => hc.callSafe hbs)

/-- In every run whose calls are safe, the replies are those of the set of quads and the
readers answer for it in every state reached, and after one more compaction still; if no
call fails, the set is the plain result of the inserts and removes. -/
theorem run_refines_set (hbs : 0 < bs) (threshold : Option Nat) {calls : List Call}
    (h : Machine.Meets (call (api bs)) (CallOk bs) (openNew bs threshold) calls) {reached : List Call}
    (hpre : reached <+: calls) {s : LoudsStore Dictionary}
    (hs : (Machine.run (call (api bs)) (openNew bs threshold) reached).2 = s) :
    (Machine.run (call (api bs)) (openNew bs threshold) reached).1 = (Machine.run Spec.call .empty reached).1 ∧
      Answers bs s (Machine.run Spec.call .empty reached).2.quads ∧
      (CompactSafe bs s.dict → ∃ s', compact (api bs) s = (.ok (), s') ∧
        Answers bs s' (Machine.run Spec.call .empty reached).2.quads) ∧
      ((∀ r ∈ (Machine.run Spec.call .empty reached).1, r.isOk = true) →
        (Machine.run Spec.call .empty reached).2.quads = (reached.flatMap Call.writes).foldl Spec.applyPlain ∅) := by
  obtain ⟨rest, rfl⟩ := hpre
  obtain ⟨hans, hend⟩ := run_holds hbs threshold (Machine.meets_append.mp h).1
  rw [hs] at hend
  refine ⟨hans, hend.answers hbs, fun hsafe => ?_, Spec.run_quads reached⟩
  obtain ⟨s', hr, hend'⟩ := compactLocked_holds (implements hbs) hend fun n hn => hn.namesSafe hbs hsafe
  exact ⟨s', hr, hend'.answers hbs⟩

theorem callOk_of_fitsBlock {s : LoudsStore Dictionary} {c : Call}
    (h : Machine.BatchMeets (applyOne (api bs)) (fun s w => WriteOk s.dict w) s c.writes ∧
      (stepCompactsAt (api bs) s (.call c)).all (fitsBlock bs) = true) : CallOk bs s c :=
  ⟨h.1, dictOk_of_fitsBlock h.2⟩

/-- A quad is inserted, compacted, removed and inserted again. -/
def revivingCalls : List Call :=
  [.insert (sampleQuad "v"), .compact, .remove (sampleQuad "v"), .insert (sampleQuad "v")]

theorem revivingCalls_ok :
    Machine.Meets (call (api sourceBlockSize)) (CallOk sourceBlockSize)
      (openNew sourceBlockSize none) revivingCalls := by
  have hmeets : Machine.Meets (call (api sourceBlockSize)) (fun s c =>
      Machine.BatchMeets (applyOne (api sourceBlockSize)) (fun s w => WriteOk s.dict w) s c.writes ∧
        (stepCompactsAt (api sourceBlockSize) s (.call c)).all (fitsBlock sourceBlockSize) = true)
      (openNew sourceBlockSize none) revivingCalls := by
    decide +kernel
  exact hmeets.imp fun s c hc => callOk_of_fitsBlock hc

/-- The quad is there, before and after another compaction. -/
theorem run_refines_set_revived :
    ∃ s', compact (api sourceBlockSize)
        (Machine.run (call (api sourceBlockSize)) (openNew sourceBlockSize none) revivingCalls).2 = (.ok (), s') ∧
      Answers sourceBlockSize s' {sampleQuad "v"} := by
  obtain ⟨-, -, hcompact, -⟩ := run_refines_set (by decide) none revivingCalls_ok (prefix_refl _) rfl
  have hquads : (Machine.run Spec.call .empty revivingCalls).2.quads = {sampleQuad "v"} := by
    decide +kernel
  rw [hquads] at hcompact
  exact hcompact (compactSafe_of_fitsBlock (by decide +kernel))

/-- A quad whose object is the triple of the sample quad. -/
def quotingQuad : Quad :=
  { sampleQuad "a" with
    object := .triple (sampleQuad "a").subject (sampleQuad "a").predicate
      (sampleQuad "a").object }

/-- After a compaction, asking for a quad with an unknown quoted triple panics. -/
theorem unknown_quoted_triple_panics :
    ¬∀ (calls : List Call) (q : Quad), contains (api sourceBlockSize)
        (Machine.run (call (api sourceBlockSize)) (openNew sourceBlockSize none) calls).2 q =
      .ok (decide (q ∈ (Machine.run Spec.call .empty calls).2.quads)) := by
  intro hclaim
  have hok := hclaim [.insert (sampleQuad "a"), .compact] quotingQuad
  have hpanic : (contains (api sourceBlockSize) (Machine.run (call (api sourceBlockSize))
      (openNew sourceBlockSize none) [.insert (sampleQuad "a"), .compact]).2 quotingQuad).isOk = false := by
    decide +kernel
  rw [hok] at hpanic
  exact absurd hpanic (by simp [Except.isOk, Except.toBool])

end Set

/-! ## Bulk loads -/

/-- The delta has a tombstone for the quad. -/
def tombstoned (A : DictApi D) (s : LoudsStore D) (q : Quad) : Bool :=
  match lookupQuad A s.dict q with
  | .ok (some (gId, sId, pId, oId)) => decide (s.delta.get (packQuad gId sId pId oId) = some false)
  | _ => false

theorem tombstoned_iff (I : Implements A Knows CompactOk) (h : Inv Knows n s) {q : Quad} :
    tombstoned A s q = true ↔ ∃ k, n.keyOf q = some k ∧ k ∈ s.view.removed := by
  rw [tombstoned, lookupQuad_spec I h.knows]
  cases hids : n.quadIds q with
  | some ids =>
    rcases ids with ⟨g, sId, pId, oId⟩
    rw [Names.lookupQuad_known hids, Names.keyOf_eq_some.mpr ⟨g, sId, pId, oId, hids, rfl⟩]
    simp [view, Delta.mem_marked]
  | none =>
    rw [Names.keyOf_eq_none.mpr hids]
    rcases n.lookupQuad_cases q with hr | ⟨-, -, p, hr⟩
    · rw [hr, hids]
      simp
    · rw [hr]
      simp

/-- The loaded keys meet the tombstones exactly where a loaded quad is
tombstoned. -/
theorem disjoint_removed_iff (I : Implements A Knows CompactOk) {n' : Names}
    (h : Inv Knows n s) (hle : n.Le n') {quads : List Quad} :
    Disjoint (keysOf n' quads) s.view.removed ↔ ∀ q ∈ quads, tombstoned A s q = false := by
  rw [Finset.disjoint_left]
  constructor
  · intro hdisj q hq
    rw [← Bool.not_eq_true, tombstoned_iff I h]
    intro hex
    rcases hex with ⟨k, hk, hrem⟩
    exact hdisj (mem_keysOf.mpr ⟨q, hq, Names.keyOf_of_le hle hk⟩) hrem
  · intro hall k hk hrem
    rcases mem_keysOf.mp hk with ⟨q, hq, hqk⟩
    -- a tombstone's key already belongs to a quad
    rcases h.keys k false (Delta.mem_marked.mp hrem) with ⟨q', hq'⟩
    rw [← Names.keyOf_inj hqk (Names.keyOf_of_le hle hq')] at hq'
    have htomb := (tombstoned_iff I h (q := q)).mpr ⟨k, hq', hrem⟩
    rw [hall q hq] at htomb
    cases htomb

/-- Over quads the union is that of their keys. -/
theorem live_union_iff {n' : Names} {s' : LoudsStore D} (h : Inv Knows n s) (h' : Inv Knows n' s')
    (hle : n.Le n') {quads : List Quad} (hkeys : ∀ q ∈ quads, ∃ k, n'.keyOf q = some k) :
    ({ q | Live n' s' q } : Set Quad) = { q | Live n s q } ∪ { q | q ∈ quads } ↔
      s'.view.live = s.view.live ∪ keysOf n' quads := by
  have hold : ∀ q k, n'.keyOf q = some k → (Live n s q ↔ k ∈ s.view.live) := by
    intro q k hk
    constructor
    · intro hlive
      rcases hlive with ⟨k', hk', hmem⟩
      rw [Names.keyOf_of_le hle hk'] at hk
      cases hk
      exact hmem
    · intro hmem
      rcases h.live_keys hmem with ⟨q', hq'⟩
      rw [← Names.keyOf_inj hk (Names.keyOf_of_le hle hq')] at hq'
      exact ⟨k, hq', hmem⟩
  have hnew : ∀ q k, n'.keyOf q = some k → (q ∈ quads ↔ k ∈ keysOf n' quads) := by
    intro q k hk
    rw [mem_keysOf]
    constructor
    · exact fun hq => ⟨q, hq, hk⟩
    · intro hex
      rcases hex with ⟨q', hq', hk'⟩
      rw [Names.keyOf_inj hk hk']
      exact hq'
  constructor
  · intro heq
    have hiff := fun q => Set.ext_iff.mp heq q
    ext k
    rw [Finset.mem_union]
    -- every key on either side is the key of a quad
    have hkey : (k ∈ s'.view.live ∨ k ∈ s.view.live ∨ k ∈ keysOf n' quads) →
        ∃ q, n'.keyOf q = some k := by
      intro hk
      rcases hk with hk | hk | hk
      · exact h'.live_keys hk
      · rcases h.live_keys hk with ⟨q, hq⟩
        exact ⟨q, Names.keyOf_of_le hle hq⟩
      · rcases mem_keysOf.mp hk with ⟨q, -, hq⟩
        exact ⟨q, hq⟩
    constructor
    · intro hk
      rcases hkey (.inl hk) with ⟨q, hq⟩
      rw [← hold q k hq, ← hnew q k hq]
      exact (hiff q).mp ⟨k, hq, hk⟩
    · intro hk
      rcases hkey (.inr hk) with ⟨q, hq⟩
      rw [← hold q k hq, ← hnew q k hq] at hk
      rcases (hiff q).mpr hk with ⟨k', hk', hmem⟩
      rw [hq] at hk'
      cases hk'
      exact hmem
  · intro heq
    ext q
    simp only [Set.mem_ofPred_eq, Set.mem_union]
    constructor
    · intro hlive
      rcases hlive with ⟨k, hk, hmem⟩
      rw [heq, Finset.mem_union] at hmem
      rw [hold q k hk, hnew q k hk]
      exact hmem
    · intro hor
      have hex : ∃ k, n'.keyOf q = some k := by
        rcases hor with ⟨k, hk, -⟩ | hq
        · exact ⟨k, Names.keyOf_of_le hle hk⟩
        · exact hkeys q hq
      rcases hex with ⟨k, hk⟩
      rw [hold q k hk, hnew q k hk] at hor
      exact ⟨k, hk, by rw [heq, Finset.mem_union]; exact hor⟩

section Source

open Dictionary DictCompact

variable {bs : Nat}

/-- From every state reached with safe dictionary compactions: after a bulk load
that returns `Ok`, the live quads are the old ones and the loaded ones, also after
a compaction, exactly if no loaded quad has a tombstone in the delta. -/
theorem bulkLoad_unites_iff (hbs : 0 < bs) (threshold : Option Nat) {events : List Event}
    (hreach : Machine.Meets (step (api bs)) (DictOk bs) (openNew bs threshold) events)
    {s s' : LoudsStore Dictionary} (hs : (Machine.run (step (api bs)) (openNew bs threshold) events).2 = s)
    {quads : List Quad} (hsafe : DictOk bs s (.bulkLoad quads)) {count : Nat}
    (hload : bulkLoad (api bs) s quads = (.ok count, s')) :
    (LiveSet (api bs) s' = LiveSet (api bs) s ∪ { sq | ∃ q ∈ quads, sq = q.stored } ∧
        ∃ s'', compact (api bs) s' = (.ok (), s'') ∧
          LiveSet (api bs) s'' = LiveSet (api bs) s ∪ { sq | ∃ q ∈ quads, sq = q.stored }) ↔
      ∀ q ∈ quads, tombstoned (api bs) s q = false := by
  have I := implements hbs
  rcases reached_inv hbs threshold hreach with ⟨n, -, hinv⟩
  rw [hs] at hinv
  rcases bulkLoad_spec I hinv quads (hsafe.namesSafe hbs)
    with ⟨s₁, b, hr, hok, hkeys, hnext⟩ | ⟨e, s₁, hr, -⟩
  · rw [hload] at hr
    cases hr
    have hle : n.Le (n.internQuads quads).2 := hnext.le
    -- the compaction that follows changes no live key
    rcases compactLocked_spec I hnext.inv hok with ⟨s'', b', hcomp, hmerged⟩
    have hsame : LiveSet (api bs) s'' = LiveSet (api bs) s' := by
      rw [liveSet_eq I hmerged.inv, liveSet_eq I hnext.inv]
      have hlive : ∀ q, Live (((n.internQuads quads).2.withSealed b).withSealed b') s'' q ↔
          Live ((n.internQuads quads).2.withSealed b) s' q := by
        intro q
        unfold Live
        rw [hmerged.view, Overlay.live_merge]
        rfl
      simp only [hlive]
    have hunion : LiveSet (api bs) s' = LiveSet (api bs) s ∪ { sq | ∃ q ∈ quads, sq = q.stored } ↔
        ∀ q ∈ quads, tombstoned (api bs) s q = false := by
      have hloaded : ({ sq | ∃ q ∈ quads, sq = q.stored } : Set StoredQuad) =
          Quad.stored '' { q | q ∈ quads } := by
        ext sq
        simp [eq_comm]
      rw [liveSet_eq I hnext.inv, liveSet_eq I hinv, hloaded, ← Set.image_union,
        Set.image_eq_image Quad.stored_injective, live_union_iff hinv hnext.inv hnext.le hkeys,
        hnext.view]
      exact (Overlay.live_load_eq_union_iff _ _).trans (disjoint_removed_iff I hinv hle)
    rw [← hunion]
    constructor
    · exact fun hboth => hboth.1
    · exact fun hone => ⟨hone, s'', hcomp, hsame.trans hone⟩
  · rw [hload] at hr
    cases hr

/-- Leaves a ring triple with a tombstone and a pending insert. -/
def pendingEvents : List Event :=
  [.call (.insert (sampleQuad "a")), .call .compact, .call (.remove (sampleQuad "a")),
    .call (.insert (sampleQuad "b"))]

/-- A bulk load of a third quad over both kinds of pending writes. -/
theorem bulkLoad_unites_iff_fresh :
    ∃ s', bulkLoad (api sourceBlockSize)
        (Machine.run (step (api sourceBlockSize)) (openNew sourceBlockSize none) pendingEvents).2
        [sampleQuad "c"] = (.ok 1, s') ∧
      LiveSet (api sourceBlockSize) s' = LiveSet (api sourceBlockSize)
        (Machine.run (step (api sourceBlockSize)) (openNew sourceBlockSize none) pendingEvents).2 ∪
        { sq | ∃ q ∈ [sampleQuad "c"], sq = q.stored } := by
  have hmeets : Machine.Meets (step (api sourceBlockSize)) (fun s e =>
      (stepCompactsAt (api sourceBlockSize) s e).all (fitsBlock sourceBlockSize) = true)
      (openNew sourceBlockSize none) (pendingEvents ++ [.bulkLoad [sampleQuad "c"]]) := by
    decide +kernel
  have hok := Machine.meets_append.mp
    (hmeets.imp (Q := DictOk sourceBlockSize) fun s e he => dictOk_of_fitsBlock he)
  generalize hs : (Machine.run (step (api sourceBlockSize)) (openNew sourceBlockSize none)
    pendingEvents).2 = s at hok ⊢
  have hcount : (bulkLoad (api sourceBlockSize) s [sampleQuad "c"]).1 = .ok 1 := by
    rw [← hs]
    decide +kernel
  have hfree : ∀ q ∈ [sampleQuad "c"], tombstoned (api sourceBlockSize) s q = false := by
    rw [← hs]
    decide +kernel
  have hload : bulkLoad (api sourceBlockSize) s [sampleQuad "c"] =
      (.ok 1, (bulkLoad (api sourceBlockSize) s [sampleQuad "c"]).2) := Prod.ext hcount rfl
  exact ⟨_, hload, ((bulkLoad_unites_iff (by decide) none hok.1 hs hok.2.1 hload).mpr hfree).1⟩

/-- A ring triple is removed and loaded again: the tombstone hides it, and the
compaction that follows drops it. -/
theorem bulkLoad_hides_tombstoned :
    ¬∀ (events : List Event) (quads : List Quad) (count : Nat) (s' : LoudsStore Dictionary),
      bulkLoad (api sourceBlockSize)
        (Machine.run (step (api sourceBlockSize)) (openNew sourceBlockSize none) events).2 quads =
          (.ok count, s') →
      LiveSet (api sourceBlockSize) s' = LiveSet (api sourceBlockSize)
        (Machine.run (step (api sourceBlockSize)) (openNew sourceBlockSize none) events).2 ∪
        { sq | ∃ q ∈ quads, sq = q.stored } := by
  intro hclaim
  generalize hs : (Machine.run (step (api sourceBlockSize)) (openNew sourceBlockSize none)
    [.call (.insert (sampleQuad "a")), .call .compact, .call (.remove (sampleQuad "a"))]).2 = s
  have hcount : (bulkLoad (api sourceBlockSize) s [sampleQuad "a"]).1 = .ok 1 := by
    rw [← hs]
    decide +kernel
  have hunion := hclaim
    [.call (.insert (sampleQuad "a")), .call .compact, .call (.remove (sampleQuad "a"))]
    [sampleQuad "a"] 1 (bulkLoad (api sourceBlockSize) s [sampleQuad "a"]).2
    (by rw [hs]; exact Prod.ext hcount rfl)
  have hread : (quadsForPattern (api sourceBlockSize)
      (bulkLoad (api sourceBlockSize) s [sampleQuad "a"]).2 none none none none).map (fun r => r.1) =
        .ok [] := by
    rw [← hs]
    decide +kernel
  -- the loaded quad is not among the quads returned
  have hmem : (sampleQuad "a").stored ∈ LiveSet (api sourceBlockSize)
      (bulkLoad (api sourceBlockSize) s [sampleQuad "a"]).2 := by
    rw [hunion]
    exact .inr ⟨sampleQuad "a", mem_singleton_self _, rfl⟩
  rcases hmem with ⟨qs, s', hr, hin⟩
  rw [hr] at hread
  cases Except.ok.inj hread
  cases hin

end Source

end LoudsStore

end Nova
