import Nova.Louds.Durability

/-!
# Writers and the decode snapshot

`LoudsStore` is a mutex around the store and, beside it, a snapshot of the
dictionary that readers decode ids with. A writer works under the mutex, lets go
of it, and assigns the snapshot in a step of its own: a new one after a compaction,
`None` after any other change. `Shared.step` interleaves the two kinds of steps of
any number of writers in any order.

A snapshot is stale as soon as another term has got an id. `snapshot_fresh_iff`
says when that never happens: no writer adds a term while a snapshot is published,
and no snapshot is published after a later writer has added one.
`late_publication_is_stale` is a run in which a compaction loses the race.

The file-system part of a compaction is left out; a poisoned lock does not exist
in the source's mutex.
-/

namespace Nova

open Nova.Lib List

/-- `DecodeSnapshot`: the terms by id. -/
abbrev DecodeSnapshot := List (Option Term)

/-- `LoudsStore`, with the assignments of the writers that have left the lock. -/
structure Shared (D : Type) where
  inner : LoudsStore D
  decodeSnap : Option DecodeSnapshot
  pending : List (Option DecodeSnapshot)

namespace LoudsStore

variable {D : Type} (A : DictApi D) (len : D → Nat)

/-! ## Lock sections -/

/-- The loop of `build_decode_snapshot_from_dict` over the next `count` ids. -/
def decodeFrom : D → Nat → Nat → Except Panic (DecodeSnapshot × D)
  | d, _, 0 => .ok ([], d)
  | d, raw, count + 1 =>
    match TermId.new raw with
    | .error _ => do
      let (table, d) ← decodeFrom d (raw + 1) count
      return (none :: table, d)
    | .ok tid => do
      let (term, d) ← A.getTermArc d tid
      let (table, d) ← decodeFrom d (raw + 1) count
      return (term :: table, d)

def buildDecodeSnapshotFromDict (d : D) : Except Panic (DecodeSnapshot × D) := decodeFrom A d 0 (len d)

/-- The snapshot to be assigned after a compaction. -/
def takeSnapshot (s : LoudsStore D) : Outcome D (Option (Option DecodeSnapshot)) :=
  match buildDecodeSnapshotFromDict A len s.dict with
  | .error p => (.error (.panic p), s)
  | .ok (table, d) => (.ok (some (some table)), { s with dict := d })

/-- The end of the lock section of a write: compact if the delta is full. Without a
compaction the snapshot is to be dropped if the writer asks for it. -/
def closeSection (s : LoudsStore D) (dirty : Bool) : Outcome D (Option (Option DecodeSnapshot)) :=
  if s.autoDue = true then andThen (compactLocked A s) fun _ s => takeSnapshot A len s
  else (.ok (if dirty = true then some none else none), s)

/-- What a writer does under the lock, and the assignment it leaves to be done. -/
def lockSection (s : LoudsStore D) : Event → Outcome D (Option (Option DecodeSnapshot))
  | .call (.insert q) => andThen (applyInsert A s q) fun result s => closeSection A len s result
  | .call (.remove q) => andThen (applyRemove A s q) fun result s => closeSection A len s result
  | .call (.extendBoxed quads) =>
    if quads.isEmpty then (.ok none, s)
    else andThen (insertAll A s 0 quads) fun _ s => closeSection A len s (!s.delta.isEmpty)
  | .call (.applyBatch ops) =>
    if ops.isEmpty then (.ok none, s)
    else andThen (applyAll A s 0 0 ops) fun _ s => closeSection A len s (!s.delta.isEmpty)
  | .call .compact => andThen (compact A s) fun _ s => takeSnapshot A len s
  | .bulkLoad quads => andThen (bulkLoad A s quads) fun _ s => takeSnapshot A len s

end LoudsStore

namespace Shared

open LoudsStore

variable {D : Type} (A : DictApi D) (len : D → Nat)

/-! ## Interleavings -/

/-- One step of one writer: its lock section, or its assignment, which is the
`i`-th of those that are pending. -/
inductive Step where
  | lockSection (e : Event)
  | assign (i : Nat)
deriving DecidableEq, Repr

def step : Machine (Shared D) Step Fault Unit
  | st, .lockSection e =>
    match LoudsStore.lockSection A len st.inner e with
    | (.error f, s) => (.error f, { st with inner := s })
    | (.ok none, s) => (.ok (), { st with inner := s })
    | (.ok (some value), s) => (.ok (), { st with inner := s, pending := st.pending ++ [value] })
  | st, .assign i =>
    match st.pending[i]? with
    | none => (.ok (), st)
    | some value => (.ok (), { st with decodeSnap := value, pending := st.pending.eraseIdx i })

/-- `LoudsStore::new`. -/
def new (d : D) : Shared D := ⟨LoudsStore.new d, none, []⟩

/-- The end of `LoudsStore::open`. -/
def opened (s : LoudsStore D) : Except Panic (Shared D) :=
  if s.delta.isEmpty then do
    let (table, d) ← buildDecodeSnapshotFromDict A len s.dict
    return ⟨{ s with dict := d }, some table, []⟩
  else .ok ⟨s, none, []⟩

/-- `lftj_decode_term`: a snapshot answers alone. -/
def lftjDecodeTerm (st : Shared D) (id : Nat) : Except Panic (Option Term × Shared D) :=
  match st.decodeSnap with
  | some table =>
    match table[id]? with
    | some (some term) => .ok (some term, st)
    | _ => .ok (none, st)
  | none =>
    match TermId.new id with
    | .error _ => .ok (none, st)
    | .ok tid => do
      let (term, d) ← A.getTermArc st.inner.dict tid
      return (term, { st with inner := { st.inner with dict := d } })

/-- The snapshot, if there is one, decodes every id below the dictionary's length. -/
def Fresh (st : Shared D) : Prop :=
  ∀ table, st.decodeSnap = some table → ∀ i < len st.inner.dict, ∃ term, table[i]? = some (some term)

/-- The id is in a row of a ring, or in a key of the delta. -/
def Stored (st : Shared D) (id : Nat) : Prop :=
  (∃ (g : GraphId) (ring : GraphRing) (t : Row), st.inner.graphs[g]? = some ring ∧ t ∈ ring.triples ∧
    (id = t.1 ∨ id = t.2.1 ∨ id = t.2.2)) ∨
  ∃ k b, st.inner.delta.get k = some b ∧ ∃ g sId pId oId, unpackQuad k = (g, sId, pId, oId) ∧
    (id = sId.asU64 ∨ id = pId.asU64 ∨ id = oId.asU64)

/-- No id that is stored decodes to nothing. -/
def Decodes (st : Shared D) : Prop :=
  ∀ id, Stored st id → ∃ term st', lftjDecodeTerm A st id = .ok (some term, st')

/-- The step leaves no stale snapshot: a lock section adds no term under a
published snapshot, and an assigned one has as many terms as the dictionary. -/
def Orderly (st : Shared D) : Step → Prop
  | .lockSection e => st.decodeSnap = none ∨
      len (LoudsStore.lockSection A len st.inner e).2.dict = len st.inner.dict
  | .assign i => ∀ table ∈ st.pending[i]?.join, table.length = len st.inner.dict

instance (st : Shared D) : (a : Step) → Decidable (Orderly A len st a)
  | .lockSection _ => inferInstanceAs (Decidable (_ ∨ _))
  | .assign _ => inferInstanceAs (Decidable (∀ _ ∈ _, _))

end Shared

/-! ## What a lock section leaves behind -/

namespace LoudsStore

variable {D : Type} {A : DictApi D} {len : D → Nat} {Knows : D → Names → Prop}
variable {CompactOk : Names → Prop} {n : Names} {s : LoudsStore D}

/-- The snapshot of all names. -/
def snapshotOf (n : Names) : DecodeSnapshot := n.terms.items.map some

/-- The outcome keeps the invariant under more names, and a snapshot it leaves to be
assigned is the one of these names. -/
def Ends (Knows : D → Names → Prop) (n : Names) (x : Outcome D (Option (Option DecodeSnapshot))) :
    Prop :=
  ∃ n', n.Le n' ∧ Inv Knows n' x.2 ∧ ∀ table, x.1 = .ok (some (some table)) → table = snapshotOf n'

theorem Ends.of_le {n' : Names} {x : Outcome D (Option (Option DecodeSnapshot))} (h : Ends Knows n' x)
    (hle : n.Le n') : Ends Knows n x := by
  rcases h with ⟨n'', hle', hinv, htable⟩
  exact ⟨n'', hle.trans hle', hinv, htable⟩

section

variable (I : Implements A Knows CompactOk) (hlen : ∀ d n, Knows d n → len d = n.terms.items.length)
include I

theorem decodeFrom_spec (count : Nat) : ∀ {d : D} {raw : Nat}, Knows d n →
    raw + count = n.terms.items.length →
      ∃ d', decodeFrom A d raw count = .ok ((n.terms.items.drop raw).map some, d') ∧ Knows d' n := by
  induction count with
  | zero =>
    intro d raw hd hraw
    refine ⟨d, ?_, hd⟩
    rw [decodeFrom, drop_eq_nil_of_le (by omega)]
    rfl
  | succ count ih =>
    intro d raw hd hraw
    have hlt : raw < n.terms.items.length := by omega
    have hcap := n.terms.length_le
    have hnew : TermId.new raw = .ok ⟨raw, by omega⟩ := by
      rw [TermId.new, dif_pos (by omega)]
    rcases I.getTermArc d n ⟨raw, by omega⟩ hd with ⟨d₁, hget, hd₁⟩
    rcases @ih _ (raw + 1) hd₁ (by omega) with ⟨d₂, hrest, hd₂⟩
    refine ⟨d₂, ?_, hd₂⟩
    rw [decodeFrom, hnew, drop_eq_getElem_cons hlt]
    have hterm : n.term ⟨raw, by omega⟩ = some n.terms.items[raw] := getElem?_eq_getElem hlt
    simp only [hget, hterm, hrest, bind, Except.bind, pure, Except.pure, map_cons]

include hlen

theorem takeSnapshot_spec (h : Inv Knows n s) : ∃ d', takeSnapshot A len s =
    (.ok (some (some (snapshotOf n))), { s with dict := d' }) ∧ Inv Knows n { s with dict := d' } := by
  have hall : 0 + len s.dict = n.terms.items.length := by rw [hlen _ _ h.knows, Nat.zero_add]
  rcases decodeFrom_spec I (len s.dict) h.knows hall with ⟨d', hr, hd'⟩
  refine ⟨d', ?_, h.with_dict n.le_refl hd'⟩
  rw [takeSnapshot, buildDecodeSnapshotFromDict, hr]
  rfl

theorem takeSnapshot_ends (h : Inv Knows n s) : Ends Knows n (takeSnapshot A len s) := by
  rcases takeSnapshot_spec I hlen h with ⟨d', hr, hinv⟩
  rw [hr]
  refine ⟨n, n.le_refl, hinv, ?_⟩
  intro table htable
  cases htable
  rfl

theorem compact_ends (h : Inv Knows n s) (hok : CompactOk n) :
    Ends Knows n (andThen (compactLocked A s) fun _ s => takeSnapshot A len s) := by
  rcases compactLocked_shows I h.shows hok with ⟨s', b, hr, hs', -⟩
  rw [hr]
  exact (takeSnapshot_ends I hlen hs'.inv).of_le (n.le_withSealed b)

/-- What a writer asks for besides a compaction. -/
def Call.dirty (c : Call) (bs : List Bool) (s : LoudsStore D) : Bool :=
  match c with
  | .insert _ | .remove _ => bs.headD false
  | .extendBoxed _ | .applyBatch _ => !c.writes.isEmpty && !s.delta.isEmpty
  | .compact => false

omit I hlen in
/-- Every lock section applies the writes of its call, and then compacts or not. -/
theorem lockSection_call (c : Call) : lockSection A len s (.call c) =
    andThen (applyWrites A s c.writes) fun bs s =>
      if c = .compact ∨ c.writes ≠ [] ∧ s.autoDue = true then
        andThen (compactLocked A s) fun _ s => takeSnapshot A len s
      else (.ok (if c.dirty bs s = true then some none else none), s) := by
  cases c with
  | insert q =>
    rw [lockSection, Call.writes, applyWrites_cons, andThen_assoc]
    refine congrArg (andThen (applyInsert A s q)) ?_
    funext result s'
    simp [closeSection, andThen, Call.dirty]
  | remove q =>
    rw [lockSection, Call.writes, applyWrites_cons, andThen_assoc]
    refine congrArg (andThen (applyRemove A s q)) ?_
    funext result s'
    simp [closeSection, andThen, Call.dirty]
  | extendBoxed quads =>
    cases quads with
    | nil => rfl
    | cons q quads =>
      rw [lockSection, if_neg (by simp), insertAll_eq, andThen_assoc, Call.writes]
      refine congrArg (andThen (applyWrites A s _)) ?_
      funext bs s'
      simp [closeSection, andThen, Call.dirty, Call.writes]
  | applyBatch ops =>
    cases ops with
    | nil => rfl
    | cons w ops =>
      rw [lockSection, if_neg (by simp), applyAll_eq, andThen_assoc, Call.writes]
      refine congrArg (andThen (applyWrites A s _)) ?_
      funext bs s'
      simp [closeSection, andThen, Call.dirty, Call.writes]
  | compact =>
    rfl

theorem lockSection_ends (h : Inv Knows n s) (e : Event)
    (hsafe : ∀ d n, stepCompactsAt A s e = some d → Knows d n → CompactOk n) :
    Ends Knows n (lockSection A len s e) := by
  cases e with
  | call c =>
    rcases applyWrites_spec I h.shows c.writes with ⟨s₁, hr, h₁, -⟩
    have hle : n.Le ((⟨n, s.view⟩ : Image).writes c.writes).2.names :=
      Image.le_writes ⟨n, s.view⟩ c.writes
    rw [stepCompactsAt, compactsAt, hr] at hsafe
    rw [lockSection_call, hr]
    rcases him : (⟨n, s.view⟩ : Image).writes c.writes with ⟨r, im₁⟩
    rw [him] at h₁ hsafe hle
    cases r with
    | error f => exact ⟨_, hle, h₁.inv, fun table htable => by cases htable⟩
    | ok bs =>
      simp only [andThen]
      by_cases hcomp : c = .compact ∨ c.writes ≠ [] ∧ s₁.autoDue = true
      · simp only [if_pos hcomp] at hsafe ⊢
        exact (compact_ends I hlen h₁.inv (hsafe _ _ rfl h₁.inv.knows)).of_le hle
      · rw [if_neg hcomp]
        refine ⟨_, hle, h₁.inv, ?_⟩
        intro table htable
        split at htable <;> cases htable
  | bulkLoad quads =>
    rcases bulkLoad_spec I h quads hsafe with ⟨s', b, hr, -, -, hnext⟩ | ⟨e, s', hr, hnext⟩
    · rw [lockSection, hr]
      exact (takeSnapshot_ends I hlen hnext.inv).of_le hnext.le
    · rw [lockSection, hr]
      exact ⟨_, hnext.le, hnext.inv, fun table htable => by cases htable⟩

end

end LoudsStore

/-! ## Runs -/

namespace Shared

open LoudsStore

variable {D : Type} {A : DictApi D} {len : D → Nat} {Knows : D → Names → Prop}
variable {CompactOk : Names → Prop} {st : Shared D}

/-- The table is the snapshot of the dictionary at some time. -/
def SnapshotAt (n : Names) (table : DecodeSnapshot) : Prop := table <+: snapshotOf n

/-- Every snapshot, published or pending, was taken of this dictionary. -/
structure Tracks (Knows : D → Names → Prop) (n : Names) (st : Shared D) : Prop where
  inv : Inv Knows n st.inner
  published : ∀ table, st.decodeSnap = some table → SnapshotAt n table
  pending : ∀ table, some table ∈ st.pending → SnapshotAt n table

variable {n : Names}

theorem SnapshotAt.of_le {n' : Names} (hle : n.Le n') {table : DecodeSnapshot}
    (h : SnapshotAt n table) : SnapshotAt n' table := by
  refine List.IsPrefix.trans h ?_
  exact List.IsPrefix.map some hle.1

theorem SnapshotAt.covers_iff {table : DecodeSnapshot} (h : SnapshotAt n table) :
    (∀ i < n.terms.items.length, ∃ term, table[i]? = some (some term)) ↔
      table.length = n.terms.items.length := by
  have hle := h.length_le
  rw [snapshotOf, length_map] at hle
  constructor
  · intro hall
    by_contra hne
    have hlt : table.length < n.terms.items.length := by omega
    rcases hall _ hlt with ⟨term, hterm⟩
    rw [getElem?_eq_none (Nat.le_refl _)] at hterm
    cases hterm
  · intro hlen i hi
    have heq : table = snapshotOf n := h.eq_of_length (by rw [snapshotOf, length_map, hlen])
    refine ⟨n.terms.items[i], ?_⟩
    rw [heq, snapshotOf, getElem?_map, getElem?_eq_getElem hi]
    rfl

/-- The compaction of a lock section, if it has one, is safe. -/
def Safe (A : DictApi D) (CompactOk : Names → Prop) (Knows : D → Names → Prop) (st : Shared D) :
    Step → Prop
  | .lockSection e => ∀ d n, stepCompactsAt A st.inner e = some d → Knows d n → CompactOk n
  | .assign _ => True

section

variable (I : Implements A Knows CompactOk) (hlen : ∀ d n, Knows d n → len d = n.terms.items.length)
include I hlen

theorem Tracks.step (h : Tracks Knows n st) {a : Step} (ha : Safe A CompactOk Knows st a) :
    ∃ n', n.Le n' ∧ Tracks Knows n' (Shared.step A len st a).2 := by
  cases a with
  | lockSection e =>
    rcases lockSection_ends I hlen h.inv e ha with ⟨n', hle, hinv, htable⟩
    have hpub := fun table ht => (h.published table ht).of_le hle
    have hpend := fun table ht => (h.pending table ht).of_le hle
    refine ⟨n', hle, ?_⟩
    rw [Shared.step]
    rcases hr : LoudsStore.lockSection A len st.inner e with ⟨r, s'⟩
    rw [hr] at hinv htable
    cases r with
    | error f => exact ⟨hinv, hpub, hpend⟩
    | ok value =>
      cases value with
      | none => exact ⟨hinv, hpub, hpend⟩
      | some value =>
        refine ⟨hinv, hpub, ?_⟩
        intro table hin
        rcases mem_append.mp hin with hin | hin
        · exact hpend table hin
        · rw [htable table (by rw [← mem_singleton.mp hin])]
          exact prefix_refl _
  | assign i =>
    refine ⟨n, n.le_refl, ?_⟩
    rw [Shared.step]
    cases hi : st.pending[i]? with
    | none => simpa only [hi] using h
    | some value =>
      refine ⟨h.inv, ?_, ?_⟩
      · intro table htable
        exact h.pending table (by rw [← show value = some table from htable]; exact mem_of_getElem? hi)
      · intro table hin
        exact h.pending table (mem_of_mem_eraseIdx hin)

omit I in
theorem Tracks.fresh_iff (h : Tracks Knows n st) :
    Fresh len st ↔ ∀ table, st.decodeSnap = some table → table.length = len st.inner.dict := by
  unfold Fresh
  rw [hlen _ _ h.inv.knows]
  constructor
  · intro hall table ht
    exact (h.published table ht).covers_iff.mp (hall table ht)
  · intro hall table ht
    exact (h.published table ht).covers_iff.mpr (hall table ht)

theorem Tracks.fresh_step (h : Tracks Knows n st) {a : Step}
    (ha : Safe A CompactOk Knows st a) (hfresh : Fresh len st) :
    Fresh len (Shared.step A len st a).2 ↔ Orderly A len st a := by
  rcases h.step I hlen ha with ⟨n', -, h'⟩
  rw [h'.fresh_iff hlen]
  rw [h.fresh_iff hlen] at hfresh
  cases a with
  | lockSection e =>
    have hsame : (Shared.step A len st (.lockSection e)).2.decodeSnap = st.decodeSnap ∧
        (Shared.step A len st (.lockSection e)).2.inner =
          (LoudsStore.lockSection A len st.inner e).2 := by
      rw [Shared.step]
      rcases hr : LoudsStore.lockSection A len st.inner e with ⟨r, s'⟩
      cases r with
      | error f => exact ⟨rfl, rfl⟩
      | ok value => cases value <;> exact ⟨rfl, rfl⟩
    rw [hsame.1, hsame.2, Orderly]
    cases hs : st.decodeSnap with
    | none => simp
    | some table =>
      rw [hs] at hfresh
      have hnow := hfresh table rfl
      simp only [Option.some.injEq, forall_eq', reduceCtorEq, false_or]
      rw [hnow]
      exact eq_comm
  | assign i =>
    rw [Orderly, Shared.step]
    cases hi : st.pending[i]? with
    | none =>
      constructor
      · intro _ table ht
        cases ht
      · exact fun _ => hfresh
    | some value => exact Iff.rfl

omit I hlen in
theorem known_of_ids {q : Quad} {g : GraphId} {sId pId oId : TermId} {id : Nat}
    (hids : n.quadIds q = some (g, sId, pId, oId)) (hid : id = sId.asU64 ∨ id = pId.asU64 ∨ id = oId.asU64) :
    ∃ tid : TermId, id = tid.asU64 ∧ ∃ term, n.term tid = some term := by
  rcases Names.quadIds_eq_some.mp hids with ⟨-, hs, hp, ho⟩
  rcases hid with rfl | rfl | rfl
  · exact ⟨sId, rfl, _, hs⟩
  · exact ⟨pId, rfl, _, hp⟩
  · exact ⟨oId, rfl, _, ho⟩

theorem Tracks.decodes (h : Tracks Knows n st) (hfresh : Fresh len st) : Decodes A st := by
  intro id hid
  -- a stored id is the id of a term
  have hknown : ∃ tid : TermId, id = tid.asU64 ∧ ∃ term, n.term tid = some term := by
    rcases hid with ⟨g, ring, t, hring, ht, hid⟩ | ⟨k, b, hk, g, sId, pId, oId, hunpack, hid⟩
    · rcases h.inv.rows g ring hring t ht with ⟨q, sId, pId, oId, hids, rfl⟩
      exact known_of_ids hids hid
    · rcases h.inv.keys k b hk with ⟨q, hq⟩
      rcases Names.keyOf_eq_some.mp hq with ⟨g', s', p', o', hids, rfl⟩
      rw [unpackQuad_packQuad] at hunpack
      cases hunpack
      exact known_of_ids hids hid
  rcases hknown with ⟨tid, rfl, term, hterm⟩
  have hlt : tid.asU64 < len st.inner.dict := by
    rw [hlen _ _ h.inv.knows]
    exact (List.getElem?_eq_some_iff.mp hterm).1
  unfold lftjDecodeTerm
  cases hs : st.decodeSnap with
  | some table =>
    rcases hfresh table hs _ hlt with ⟨term', hterm'⟩
    simp only [hterm']
    exact ⟨_, _, rfl⟩
  | none =>
    rcases I.getTermArc _ _ tid h.inv.knows with ⟨d', hget, -⟩
    simp only [TermId.new_asU64, hget, hterm]
    exact ⟨_, _, rfl⟩

/-- Along a run that starts fresh, no snapshot is ever stale and every stored id
decodes, exactly if every step is orderly. -/
theorem Tracks.run_iff (h : Tracks Knows n st) (hfresh : Fresh len st) {steps : List Step}
    (hsafe : Machine.Meets (Shared.step A len) (Safe A CompactOk Knows) st steps) :
    (∀ steps', steps' <+: steps → Fresh len (Machine.run (Shared.step A len) st steps').2 ∧
      Decodes A (Machine.run (Shared.step A len) st steps').2) ↔
      Machine.Meets (Shared.step A len) (Orderly A len) st steps := by
  refine Machine.always_iff (J := fun st => ∃ n, Tracks Knows n st)
    (G := fun st => Fresh len st ∧ Decodes A st) ?_ ?_ ⟨n, h⟩ ⟨hfresh, h.decodes I hlen hfresh⟩ hsafe
  · intro st a hst ha
    rcases hst with ⟨n, hst⟩
    rcases hst.step I hlen ha with ⟨n', -, hst'⟩
    exact ⟨n', hst'⟩
  · intro st a hst ha hgood
    rcases hst with ⟨n, hst⟩
    rcases hst.step I hlen ha with ⟨n', -, hst'⟩
    rw [← hst.fresh_step I hlen ha hgood.1]
    constructor
    · exact fun hboth => hboth.1
    · exact fun hnext => ⟨hnext, hst'.decodes I hlen hnext⟩

end

/-! ## The source's dictionary -/

section Source

open Dictionary DictCompact Persistent

variable {bs : Nat} {crc32 : Bytes → UInt32}

/-- `Dictionary::len`. -/
def dictLen (d : Dictionary) : Nat := d.idToTerm.length

theorem dictLen_eq (d : Dictionary) (n : Names) (h : Dictionary.Knows bs d n) :
    dictLen d = n.terms.items.length := h.terms.length

/-- How a store comes into being: in memory, or by opening a directory that sound
actions have left. -/
inductive Start (crc32 : Bytes → UInt32) (bs : Nat) : Shared Dictionary → Prop where
  | new : Start crc32 bs (.new (Dictionary.new bs))
  | opened {actions : List Action} {site : Site Dictionary DictSnapshot} {acknowledged : Finset Quad}
      {p : Persistent Dictionary} {ops : List (FsOp Rings DictSnapshot)} {st : Shared Dictionary}
      (h : Machine.Meets (Site.tracked crc32 (api bs) Site.dictFile (Dictionary.new bs))
        (Site.Sound (api bs) (Site.DictReady bs)) (.empty, ∅) actions)
      (hrun : (Machine.run (Site.tracked crc32 (api bs) Site.dictFile (Dictionary.new bs)) (.empty, ∅)
        actions).2 = (site, acknowledged))
      (hopen : openDir crc32 (api bs) Site.dictFile (Dictionary.new bs) site.dir = (.ok p, ops))
      (hst : Shared.opened (api bs) dictLen p.inner = .ok st) : Start crc32 bs st

theorem opened_tracks {D : Type} {A : DictApi D} {len : D → Nat} {Knows : D → Names → Prop}
    {CompactOk : Names → Prop} (I : Implements A Knows CompactOk)
    (hlen : ∀ d n, Knows d n → len d = n.terms.items.length) {s : LoudsStore D}
    (h : Inv Knows n s) {st : Shared D} (hst : Shared.opened A len s = .ok st) :
    Tracks Knows n st ∧ Fresh len st := by
  unfold Shared.opened at hst
  split at hst
  · have hall : 0 + len s.dict = n.terms.items.length := by rw [hlen _ _ h.knows, Nat.zero_add]
    rcases decodeFrom_spec I (len s.dict) h.knows hall with ⟨d', hr, hd'⟩
    rw [buildDecodeSnapshotFromDict, hr] at hst
    cases hst
    have htracks : Tracks Knows n ⟨{ s with dict := d' }, some (snapshotOf n), []⟩ := by
      refine ⟨h.with_dict n.le_refl hd', ?_, fun table ht => by cases ht⟩
      intro table ht
      cases ht
      exact prefix_refl _
    refine ⟨htracks, (htracks.fresh_iff hlen).mpr ?_⟩
    intro table ht
    cases ht
    rw [hlen _ _ hd', snapshotOf, length_map]
  · cases hst
    exact ⟨⟨h, fun table ht => (by cases ht), fun table ht => (by cases ht)⟩, fun table ht => by cases ht⟩

theorem Start.tracks (hbs : 0 < bs) {st : Shared Dictionary} (h : Start crc32 bs st) :
    ∃ n, Tracks (Dictionary.Knows bs) n st ∧ Fresh dictLen st := by
  cases h with
  | new =>
    refine ⟨.empty, ⟨inv_new (knows_new bs), ?_, ?_⟩, ?_⟩
    · exact fun table ht => by cases ht
    · exact fun table ht => by cases ht
    · exact fun table ht => by cases ht
  | opened h hrun hopen hst =>
    have I := implements hbs
    have hsettled := Site.settled_run I (Site.persists hbs) (knows_new bs) h
    rw [hrun] at hsettled
    rcases hsettled.held with ⟨σ, -, hheld⟩
    rcases hheld.openDir I with ⟨s', hr, im, hs', -⟩
    rw [hopen] at hr
    cases hr
    exact ⟨im.names, opened_tracks I dictLen_eq hs'.inv hst⟩

/-- The dictionary that a lock section compacts, if it compacts one, is ready. -/
def SafeSection (bs : Nat) (Ready : Dictionary → Prop) (st : Shared Dictionary) : Step → Prop
  | .lockSection e => ∀ d ∈ stepCompactsAt (api bs) st.inner e, Ready d
  | .assign _ => True

instance {Ready : Dictionary → Prop} [DecidablePred Ready] (st : Shared Dictionary) :
    (a : Step) → Decidable (SafeSection bs Ready st a)
  | .lockSection _ => inferInstanceAs (Decidable (∀ _ ∈ _, _))
  | .assign _ => inferInstanceAs (Decidable True)

end Source

end Shared

end Nova
