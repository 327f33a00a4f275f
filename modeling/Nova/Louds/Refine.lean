import Nova.Louds.Image

/-!
# The store is a set of quads

`Spec` is what the store is for: a set of quads, with the names that have been
given out. It has no rings, no delta and no compaction. `call_holds`: a call whose
lookups return and whose dictionary compaction is safe answers as the set does, and
the store holds the set afterwards.

The names stand in `Spec` because they decide which writes fail: a quad whose
names do not fit into the id spaces is not stored. Whether the dictionary is sealed
is no part of the set (`Spec.sealedAs`).
-/

namespace Nova

open Nova.Lib List

namespace Names

variable (n : Names) (b : Bool)

theorem internGraph_withSealed (g : GraphName) :
    (n.withSealed b).internGraph g = ((n.internGraph g).1, (n.internGraph g).2.withSealed b) := by
  have hgraphs : (n.withSealed b).graphs = n.graphs := rfl
  unfold internGraph
  rw [hgraphs]
  rcases n.graphs.intern g with ⟨r, graphs⟩
  rcases r with _ | i <;> rfl

theorem internQuad_withSealed (q : Quad) :
    (n.withSealed b).internQuad q = ((n.internQuad q).1, (n.internQuad q).2.withSealed b) := by
  have hintern : ∀ (m : Names) (t : Term),
      (m.withSealed b).intern t = ((m.intern t).1, (m.intern t).2.withSealed b) := fun _ _ => rfl
  unfold internQuad
  rw [internGraph_withSealed]
  -- one name after another
  rcases n.internGraph q.graphName with ⟨_ | g, n₁⟩
  · rfl
  simp only [hintern]
  rcases n₁.intern q.subject.toTerm with ⟨_ | s, n₂⟩
  · rfl
  simp only [hintern]
  rcases n₂.intern (.namedNode q.predicate) with ⟨_ | p, n₃⟩
  · rfl
  simp only [hintern]
  rcases n₃.intern q.object with ⟨_ | o, n₄⟩ <;> rfl

end Names

structure Spec where
  names : Names
  quads : Finset Quad

variable {σ : Spec}

namespace Spec

def empty : Spec := ⟨.empty, ∅⟩

/-- Insert and remove on the set; an insert fails if the quad's names do not
fit. -/
def write (σ : Spec) : QuadOp → Except Fault Bool × Spec
  | .insert q =>
    match σ.names.internQuad q with
    | (.error e, n) => (.error (.err e), ⟨n, σ.quads⟩)
    | (.ok _, n) => (.ok (decide (q ∉ σ.quads)), ⟨n, insert q σ.quads⟩)
  | .remove q => (.ok (decide (q ∈ σ.quads)), ⟨σ.names, σ.quads.erase q⟩)

/-- A call makes its writes, up to the first that fails. A compaction does
nothing. -/
def call (σ : Spec) (c : LoudsStore.Call) : Except Fault LoudsStore.Reply × Spec :=
  let (r, σ) := Machine.batch write σ c.writes
  (r.map c.reply, σ)

theorem write_isSealed (σ : Spec) (w : QuadOp) :
    (σ.write w).2.names.isSealed = σ.names.isSealed := by
  cases w with
  | insert q =>
    have hsealed := σ.names.internQuad_isSealed q
    rw [write]
    rcases hn : σ.names.internQuad q with ⟨r, n'⟩
    rw [hn] at hsealed
    cases r <;> exact hsealed
  | remove q => rfl

/-- The seal of a dictionary is no part of the set. -/
def sealedAs (σ : Spec) (b : Bool) : Spec := ⟨σ.names.withSealed b, σ.quads⟩

theorem write_sealedAs (σ : Spec) (b : Bool) (w : QuadOp) :
    (σ.sealedAs b).write w = ((σ.write w).1, (σ.write w).2.sealedAs b) := by
  rcases w with q | q
  · simp only [write, sealedAs, Names.internQuad_withSealed]
    rcases σ.names.internQuad q with ⟨_ | ids, n⟩ <;> rfl
  · rfl

/-- The write on a plain set. -/
def applyPlain (S : Finset Quad) : QuadOp → Finset Quad
  | .insert q => insert q S
  | .remove q => S.erase q

theorem write_quads {w : QuadOp} (h : (σ.write w).1.isOk = true) :
    (σ.write w).2.quads = applyPlain σ.quads w := by
  cases w with
  | insert q =>
    rw [write] at h ⊢
    rcases hn : σ.names.internQuad q with ⟨r, n'⟩
    rw [hn] at h
    cases r with
    | error e => cases h
    | ok ids => rfl
  | remove q => rfl

theorem write_quads_of_error {w : QuadOp} (h : (σ.write w).1.isOk = false) :
    (σ.write w).2.quads = σ.quads := by
  cases w with
  | insert q =>
    rw [write] at h ⊢
    rcases hn : σ.names.internQuad q with ⟨r, n'⟩
    rw [hn] at h
    cases r with
    | error e => rfl
    | ok ids => cases h
  | remove q => cases h

theorem batch_quads (ws : List QuadOp) : ∀ {σ : Spec}, (Machine.batch write σ ws).1.isOk = true →
    (Machine.batch write σ ws).2.quads = ws.foldl applyPlain σ.quads := by
  induction ws with
  | nil => exact fun _ => rfl
  | cons w ws ih =>
    intro σ h
    have hone := @write_quads σ w
    rw [Machine.batch] at h ⊢
    rcases hw : σ.write w with ⟨r, σ₁⟩
    rw [hw] at h hone
    cases r with
    | error f => cases h
    | ok b =>
      have hrest := @ih σ₁
      simp only at h
      rcases hb : Machine.batch write σ₁ ws with ⟨r', σ₂⟩
      rw [hb] at h hrest
      cases r' with
      | error f => cases h
      | ok bs =>
        simp only [hb]
        rw [hrest rfl, hone rfl]
        rfl

theorem run_quads (calls : List LoudsStore.Call) : ∀ {σ : Spec},
    (∀ r ∈ (Machine.run call σ calls).1, r.isOk = true) →
      (Machine.run call σ calls).2.quads =
        (calls.flatMap LoudsStore.Call.writes).foldl applyPlain σ.quads := by
  induction calls with
  | nil => exact fun _ => rfl
  | cons c calls ih =>
    intro σ h
    rw [Machine.run] at h ⊢
    have hone : (Machine.batch write σ c.writes).1.isOk = true := by
      have hc := h _ mem_cons_self
      rw [call] at hc
      rcases hb : Machine.batch write σ c.writes with ⟨r, σ₁⟩
      rw [hb] at hc
      cases r with
      | error f => cases hc
      | ok bs => rfl
    rw [ih fun r hr => h r (mem_cons_of_mem _ hr), flatMap_cons, foldl_append]
    rw [← batch_quads c.writes hone]
    rfl

end Spec

namespace LoudsStore

variable {D : Type} {A : DictApi D} {Knows : D → Names → Prop} {CompactOk : Names → Prop}

/-! ## Images of the set -/

/-- The image's live keys are the keys of the set's quads. -/
structure Stands (σ : Spec) (im : Image) : Prop where
  names : im.names = σ.names
  known : ∀ q ∈ σ.quads, ∃ k, σ.names.keyOf q = some k
  live : ∀ k, k ∈ im.view.live ↔ ∃ q ∈ σ.quads, σ.names.keyOf q = some k

theorem stands_empty : Stands .empty .empty where
  names := rfl
  known := by
    intro q hq
    cases hq
  live := by
    intro k
    simp [Image.empty, Spec.empty, Overlay.live]

variable {im : Image}

theorem Stands.mem_live (h : Stands σ im) {q : Quad} {k : Nat}
    (hk : σ.names.keyOf q = some k) : k ∈ im.view.live ↔ q ∈ σ.quads := by
  rw [h.live]
  constructor
  · intro hq
    rcases hq with ⟨q', hq', hk'⟩
    rw [Names.keyOf_inj hk hk']
    exact hq'
  · exact fun hq => ⟨q, hq, hk⟩

theorem Stands.of_le (h : Stands σ im) {n : Names} (hle : σ.names.Le n) :
    Stands ⟨n, σ.quads⟩ ⟨n, im.view⟩ where
  names := rfl
  known := by
    intro q hq
    rcases h.known q hq with ⟨k, hk⟩
    exact ⟨k, Names.keyOf_of_le hle hk⟩
  live := by
    intro k
    rw [h.live]
    constructor
    · intro hq
      rcases hq with ⟨q, hq, hk⟩
      exact ⟨q, hq, Names.keyOf_of_le hle hk⟩
    · intro hq
      rcases hq with ⟨q, hq, hk⟩
      rcases h.known q hq with ⟨k', hk'⟩
      have heq := Names.keyOf_of_le hle hk'
      rw [show n.keyOf q = some k from hk] at heq
      cases heq
      exact ⟨q, hq, hk'⟩

theorem live_viewInsert (v : Overlay Nat) (k : Nat) :
    (viewInsert v k).live = Insert.insert k v.live := by
  unfold viewInsert
  split
  · next hk => rw [Finset.insert_eq_self.mpr hk]
  · rw [Overlay.live_insert]

theorem live_viewRemove (v : Overlay Nat) (k : Nat) : (viewRemove v k).live = v.live.erase k := by
  unfold viewRemove
  split
  · rw [Overlay.live_remove]
  · next hk => rw [Finset.erase_eq_of_notMem hk]

theorem Stands.compact (h : Stands σ im) (b : Bool) :
    Stands ⟨σ.names.withSealed b, σ.quads⟩ (im.compact b) where
  names := by rw [Image.compact, h.names]
  known := h.known
  live := by
    intro k
    rw [Image.compact]
    simp only [Overlay.live_merge]
    exact h.live k

theorem Stands.insert (h : Stands σ im) {q : Quad} {k : Nat} (hk : σ.names.keyOf q = some k) :
    Stands ⟨σ.names, Insert.insert q σ.quads⟩ ⟨im.names, viewInsert im.view k⟩ where
  names := h.names
  known := by
    intro q' hq'
    rcases Finset.mem_insert.mp hq' with rfl | hq'
    · exact ⟨k, hk⟩
    · exact h.known q' hq'
  live := by
    intro k'
    simp only [live_viewInsert, Finset.mem_insert, h.live, exists_eq_or_imp]
    constructor
    · intro hor
      rcases hor with rfl | hq
      · exact .inl hk
      · exact .inr hq
    · intro hor
      rcases hor with hq | hq
      · exact .inl (Option.some.inj (hq.symm.trans hk))
      · exact .inr hq

theorem Stands.remove (h : Stands σ im) {q : Quad} {k : Nat} (hk : σ.names.keyOf q = some k) :
    Stands ⟨σ.names, σ.quads.erase q⟩ ⟨im.names, viewRemove im.view k⟩ where
  names := h.names
  known := fun q' hq' => h.known q' (Finset.mem_of_mem_erase hq')
  live := by
    intro k'
    simp only [live_viewRemove, Finset.mem_erase, h.live]
    constructor
    · intro hand
      rcases hand with ⟨hne, q', hq', hk'⟩
      refine ⟨q', ⟨?_, hq'⟩, hk'⟩
      intro heq
      rw [heq, hk] at hk'
      exact hne (Option.some.inj hk').symm
    · intro hex
      rcases hex with ⟨q', ⟨hne, hq'⟩, hk'⟩
      refine ⟨?_, q', hq', hk'⟩
      intro heq
      rw [heq] at hk'
      exact hne (Names.keyOf_inj hk' hk)

/-- A write on the image is the write on the set, as long as its lookup does not
panic. -/
theorem Stands.write (h : Stands σ im) (w : QuadOp) (hquiet : ∀ p, (im.write w).1 ≠ .error (.panic p)) :
    (im.write w).1 = (σ.write w).1 ∧ Stands (σ.write w).2 (im.write w).2 := by
  cases w with
  | insert q =>
    have hle := (σ.names.internQuad_spec q).1
    rw [Image.write, Spec.write, h.names]
    rcases hn : σ.names.internQuad q with ⟨r, n'⟩
    rw [hn] at hle
    have hgrown := h.of_le hle
    cases r with
    | error e => exact ⟨rfl, hgrown⟩
    | ok ids =>
      rcases ids with ⟨g, sId, pId, oId⟩
      have hids := (σ.names.internQuad_spec q).2 (g, sId, pId, oId) (by rw [hn])
      rw [hn] at hids
      have hk := Names.keyOf_eq_some.mpr ⟨g, sId, pId, oId, hids, rfl⟩
      have hmem := hgrown.mem_live hk
      exact ⟨by simp [hmem], hgrown.insert hk⟩
  | remove q =>
    have hlook : im.names.lookupQuad q = .ok (σ.names.quadIds q) := by
      rcases im.names.lookupQuad_cases q with hl | ⟨-, -, p, hl⟩
      · rw [hl, h.names]
      · refine absurd ?_ (hquiet p)
        rw [Image.write, hl]
    rw [Image.write, Spec.write, hlook]
    cases hids : σ.names.quadIds q with
    | none =>
      -- an unknown quad is not in the set
      have hout : q ∉ σ.quads := by
        intro hq
        rcases h.known q hq with ⟨k, hk⟩
        rw [Names.keyOf_eq_none.mpr hids] at hk
        cases hk
      simp only [hout, decide_false, Finset.erase_eq_of_notMem hout]
      exact ⟨trivial, h⟩
    | some ids =>
      rcases ids with ⟨g, sId, pId, oId⟩
      have hk := Names.keyOf_eq_some.mpr ⟨g, sId, pId, oId, hids, rfl⟩
      exact ⟨by simp [h.mem_live hk], h.remove hk⟩

theorem Stands.live_iff {s : LoudsStore D} (h : Stands σ im)
    (hs : Shows Knows im s) (q : Quad) : Live im.names s q ↔ q ∈ σ.quads := by
  unfold Live
  rw [hs.view, h.names]
  constructor
  · intro hq
    rcases hq with ⟨k, hk, hmem⟩
    exact (h.mem_live hk).mp hmem
  · intro hq
    rcases h.known q hq with ⟨k, hk⟩
    exact ⟨k, hk, (h.mem_live hk).mpr hq⟩

/-- The store holds the set, whether its dictionary is sealed or not. -/
def Holds (Knows : D → Names → Prop) (s : LoudsStore D) (σ : Spec) : Prop :=
  ∃ im, Shows Knows im s ∧ Stands (σ.sealedAs im.names.isSealed) im

theorem holds_new {d : D} (h : Knows d .empty) (threshold : Option Nat) :
    Holds Knows { new d with autoCompactThreshold := threshold } .empty :=
  ⟨.empty, shows_new h threshold, stands_empty⟩

/-- The lookup of a removed quad returns. -/
def Quiet (n : Names) : QuadOp → Prop
  | .insert _ => True
  | .remove q => n.lookupQuad q = .ok (n.quadIds q)

theorem Image.write_quiet {im : Image} {w : QuadOp} (h : Quiet im.names w) (p : Panic) :
    (im.write w).1 ≠ .error (.panic p) := by
  rcases w with q | q
  · rw [Image.write]
    rcases im.names.internQuad q with ⟨_ | ids, n⟩ <;> simp
  · have hlook : im.names.lookupQuad q = .ok (im.names.quadIds q) := h
    rw [Image.write, hlook]
    rcases im.names.quadIds q with _ | ids <;> simp

theorem Shows.names_known {im : Image} {s : LoudsStore D} (h : Shows Knows im s) : Knows s.dict im.names :=
  h.inv.knows

theorem applyOne_holds (I : Implements A Knows CompactOk) : Machine.Simulates (Holds Knows) (applyOne A) Spec.write
    fun s w => ∀ n, Knows s.dict n → Quiet n w := by
  intro s σ w h hquiet
  obtain ⟨im, hs, hst⟩ := h
  obtain ⟨s', hr, hs', -⟩ := applyOne_spec I hs w
  obtain ⟨hans, hnext⟩ := hst.write w (Image.write_quiet (hquiet _ hs.names_known))
  have hseal : (im.write w).2.names.isSealed = im.names.isSealed := by
    rw [hnext.names, Spec.write_isSealed]
    rfl
  rw [Spec.write_sealedAs] at hans hnext
  rw [hr]
  refine ⟨hans, (im.write w).2, hs', ?_⟩
  rw [hseal]
  exact hnext

theorem Holds.live_iff {s : LoudsStore D} (h : Holds Knows s σ) :
    ∃ n, Inv Knows n s ∧ ∀ q, Live n s q ↔ q ∈ σ.quads := by
  obtain ⟨im, hs, hst⟩ := h
  exact ⟨im.names, hs.inv, hst.live_iff hs⟩

/-! ## Calls -/

/-- The lookups of the call return, and its compaction is safe. -/
def CallSafe (A : DictApi D) (Knows : D → Names → Prop) (CompactOk : Names → Prop) (s : LoudsStore D) (c : Call) :
    Prop :=
  Machine.BatchMeets (applyOne A) (fun s w => ∀ n, Knows s.dict n → Quiet n w) s c.writes ∧
    ∀ d n, compactsAt A s c = some d → Knows d n → CompactOk n

theorem compactLocked_holds (I : Implements A Knows CompactOk) {s : LoudsStore D} (h : Holds Knows s σ)
    (hok : ∀ n, Knows s.dict n → CompactOk n) : ∃ s', compactLocked A s = (.ok (), s') ∧ Holds Knows s' σ := by
  obtain ⟨im, hs, hst⟩ := h
  obtain ⟨s', b, hr, hs', -⟩ := compactLocked_shows I hs (hok _ hs.names_known)
  exact ⟨s', hr, im.compact b, hs', hst.compact b⟩

/-- A call on the store is the call on the set. -/
theorem call_holds (I : Implements A Knows CompactOk) :
    Machine.Simulates (Holds Knows) (call A) Spec.call (CallSafe A Knows CompactOk) := by
  intro s σ c h hsafe
  obtain ⟨hquiet, hcompact⟩ := hsafe
  obtain ⟨hans, hend⟩ := Machine.batch_sim_of_meets (applyOne_holds I) h hquiet
  rw [call_eq, Spec.call, applyWrites]
  rw [compactsAt, applyWrites] at hcompact
  rcases hstore : Machine.batch (applyOne A) s c.writes with ⟨_ | bs, s'⟩ <;>
    rcases hspec : Machine.batch Spec.write σ c.writes with ⟨a, σ'⟩ <;>
    rw [hstore, hspec] at hans hend <;> obtain rfl := hans
  · exact ⟨rfl, hend⟩
  · rw [hstore] at hcompact
    simp only [andThen, settle_eq]
    by_cases hc : c = .compact ∨ c.writes ≠ [] ∧ s'.autoDue = true
    · -- a compaction leaves the set as it is
      simp only [if_pos hc] at hcompact ⊢
      obtain ⟨s'', hr, hend'⟩ := compactLocked_holds I hend fun n hn => hcompact _ n rfl hn
      rw [hr]
      exact ⟨rfl, hend'⟩
    · rw [if_neg hc]
      exact ⟨rfl, hend⟩

/-- A quad of the default graph, for closed examples. -/
def sampleQuad (object : String) : Quad :=
  ⟨.namedNode ⟨"http://ex/s"⟩, ⟨"http://ex/p"⟩, .literal (.string object), .defaultGraph⟩

end LoudsStore

end Nova
