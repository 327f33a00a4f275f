import Nova.Ring.Recovery

/-!
# What survives in the data directory of the ring store

Runs of a site: requests whose compactions may give up anywhere, crashes at any operation
of a request or of an opening, closing and opening again. `Settled` is the invariant over
whole runs: the directory recovers to the quads of the writes, and a process serves them.

A write counts once it is logged and applied. Then it is in the directory, also where the
compaction behind it gives up and the call returns an error.

The main result is `reopen_holds_writes`. It needs every action to be `Sound`, which
leaves out two ways in which the code loses or brings back data:

* a compaction that gives up leaves its images in the directory. If the graph has no
  triples when a later compaction commits that generation, an opening finds the image and
  shows removed quads (`leftover_image_restores`);
* an opening deletes every segment but the highest, though the MANIFEST may ask for more.
-/

namespace Nova

open Nova.Lib Nova.Ring List
open Wal (WalRecord PayloadShort)

namespace PersistentRing

open RingStore LoudsStore
open Persistent (recordOf)

variable {D S : Type} {crc32 : Bytes → UInt32} {A : DictApi D} {F : DictFile D S} {fresh : D}
variable {Knows : D → Names → Prop} {CompactOk : Names → Prop} {Ready : D → Prop}
variable {dir : RingDir S} {p : PersistentRing D} {σ : Spec} {im : Image}

/-! ## One shape for every call -/

/-- After its writes the call compacts. -/
def settles (p : PersistentRing D) (bs : List Bool) : Event → Bool
  | .call c => decide (c = .compact ∨ c.writes ≠ [] ∧ p.autoCompactThreshold ≤ p.inner.delta.len)
  | .bulkLoad _ => decide (0 < bs.count true ∨ p.inner.delta.isEmpty = false)

section Calls

variable (crc32 : Bytes → UInt32) (A : DictApi D) (F : DictFile D S) (len : D → Nat) (huff : Bool) (c : Course)
  (p : PersistentRing D)

/-- The beginning of a call: its records go to the log, if it has any. -/
def logWrites (e : Event) : Outcome D S Unit :=
  if writes e = [] then (.ok (), p, []) else walAppend crc32 p ((writes e).map recordOf)

/-- The end of a call: compact or not. -/
def settle (bs : List Bool) (e : Event) : Outcome D S Unit :=
  if settles p bs e = true then compactLocked A F len huff c p else (.ok (), p, [])

theorem inMemory_andThen {α β : Type} (x : RingStore.Outcome D α) (k : α → RingStore D → RingStore.Outcome D β) :
    (inMemory p (RingStore.andThen x k) : Outcome D S β) =
      andThen (inMemory p x) fun a p => inMemory p (k a p.inner) := by
  rcases x with ⟨_ | a, r⟩ <;> rfl

/-- A call that logs its writes, makes them and looks at the delta. -/
theorem logged_eq {e : Call} (hw : e.writes ≠ []) {result : Type}
    (apply : RingStore D → RingStore.Outcome D result)
    (f : List Bool → result) (g : result → Reply) (hreply : ∀ bs, e.reply bs = g (f bs))
    (happly : ∀ s, apply s = RingStore.andThen (RingStore.applyWrites A s e.writes) fun bs s => (.ok (f bs), s)) :
    (andThen (logged crc32 A F len huff c p (e.writes.map recordOf) apply) fun a p => (.ok (g a), p, [])) =
      andThen (logWrites crc32 p (.call e)) fun _ p =>
      andThen (inMemory p (RingStore.applyWrites A p.inner e.writes)) fun bs p =>
      andThen (settle A F len huff c p bs (.call e)) fun _ p => (.ok (e.reply bs), p, []) := by
  have hc : e ≠ .compact := by
    rintro rfl
    exact hw rfl
  unfold logged logWrites
  rw [if_neg (show writes (.call e) ≠ [] from hw)]
  simp only [andThen_assoc, happly, inMemory_andThen]
  apply congrArg (andThen (walAppend crc32 p _))
  funext _ p
  apply congrArg (andThen (inMemory p _))
  funext bs p
  have hsettle : maybeAutoCompact A F len huff c p = settle A F len huff c p bs (.call e) := by
    rw [maybeAutoCompact, settle]
    simp only [settles, hc, hw, false_or, ne_eq, not_false_eq_true, true_and, decide_eq_true_eq]
  simp only [inMemory, andThen_ok, hsettle, hreply]

theorem andThen_reply {α β : Type} (x : Outcome D S α) (b : β) :
    (andThen x fun _ p => ((.ok b, p, []) : Outcome D S β)).2 = x.2 := by
  rcases x with ⟨_ | a, p, ops⟩
  · rfl
  · simp [andThen]

theorem applyOne_eq (r : RingStore D) (w : QuadOp) : RingStore.applyOne A r w =
    RingStore.andThen (RingStore.applyWrites A r [w]) fun bs r => (.ok (bs.headD false), r) := by
  rw [RingStore.applyWrites_cons]
  rcases RingStore.applyOne A r w with ⟨_ | b, r'⟩ <;> rfl

/-- Every event has the same three parts. -/
theorem event_eq (e : Event) : event crc32 A F len huff c p e =
    andThen (logWrites crc32 p e) fun _ p =>
    andThen (inMemory p (RingStore.applyWrites A p.inner (writes e))) fun bs p =>
    andThen (settle A F len huff c p bs e) fun _ p => (.ok (reply bs e), p, []) := by
  rcases e with (q | q | quads | ops | _) | quads
  · exact logged_eq crc32 A F len huff c p (e := .insert q) (by simp [Call.writes]) _ (fun bs => bs.headD false)
      .changed (fun _ => rfl) fun s => applyOne_eq A s (.insert q)
  · exact logged_eq crc32 A F len huff c p (e := .remove q) (by simp [Call.writes]) _ (fun bs => bs.headD false)
      .changed (fun _ => rfl) fun s => applyOne_eq A s (.remove q)
  · rcases quads with _ | ⟨q, quads⟩
    · rfl
    · have hmap : (Call.extendBoxed (q :: quads)).writes.map recordOf = (q :: quads).map .insertQuad := by
        simp [Call.writes, recordOf]
      rw [event, extendBoxed, if_neg (by simp), ← hmap]
      refine logged_eq crc32 A F len huff c p (e := .extendBoxed (q :: quads)) (by simp [Call.writes]) _
        (fun bs => bs.count true) .count (fun _ => rfl) ?_
      intro s
      rw [RingStore.insertAll_eq]
      simp [Call.writes]
  · rcases ops with _ | ⟨w, ops⟩
    · rfl
    · refine logged_eq crc32 A F len huff c p (e := .applyBatch (w :: ops)) (by simp [Call.writes])
        (fun s => RingStore.applyAll A s 0 0 (w :: ops)) (fun bs => tally (w :: ops) bs)
        (fun n => .counts n.1 n.2) (fun _ => rfl) ?_
      intro s
      rw [RingStore.applyAll_eq]
      simp [Call.writes]
  · simp only [event, compact, logWrites, writes, Call.writes, if_true, andThen_ok]
    rfl
  · have hlog : (if quads.isEmpty then (.ok (), p,
      []) else walAppend crc32 p (quads.map .insertQuad) : Outcome D S Unit) =
        logWrites crc32 p (.bulkLoad quads) := by
      rcases quads with _ | ⟨q, quads⟩
      · rfl
      · have hmap : (writes (.bulkLoad (q :: quads))).map recordOf = (q :: quads).map .insertQuad := by
          rw [writes, map_map]
          rfl
        rw [if_neg (by simp), logWrites, if_neg (by simp [writes]), hmap]
    simp only [event, bulkLoad, hlog, andThen_assoc]
    apply congrArg (andThen (logWrites crc32 p _))
    funext _ p
    rw [RingStore.insertAll_eq, inMemory_andThen, andThen_assoc]
    apply congrArg (andThen (inMemory p _))
    funext bs p
    simp only [inMemory, andThen_ok, Nat.zero_add, settle, settles, decide_eq_true_eq, reply]
    by_cases hc : 0 < bs.count true ∨ p.inner.delta.isEmpty = false
    · simp only [if_pos hc, andThen_assoc, andThen_ok]
    · simp only [if_neg hc, andThen_ok]

end Calls

/-! ## The log says what was done -/

/-- The writes are made or skipped as a replay of their records makes or skips them: all
of them succeed, or there is only one. -/
def whole (A : DictApi D) (r : RingStore D) (ws : List QuadOp) : Bool :=
  match RingStore.applyWrites A r ws with
  | (.ok _, _) => true
  | (.error (.err _), _) => decide (ws.length ≤ 1)
  | (.error (.panic _), _) => false

theorem replay_of_whole (I : Implements A Knows CompactOk) {r : RingStore D} (h : Shown Knows im r)
    (hst : Stands σ im)
    {ws : List QuadOp} (hw : whole A r ws = true) :
    im.replay (ws.map recordOf) = .ok (im.writes ws).2 ∧ (σ.records (ws.map recordOf)).quads =
      if (im.writes ws).1.isOk = true then ws.foldl Spec.applyPlain σ.quads else σ.quads := by
  rcases h with ⟨s, hmir, hs⟩
  -- the LOUDS store makes the same writes
  have hwhole : Persistent.whole A s ws = true := by
    have hans : (LoudsStore.applyWrites A s ws).1 = (RingStore.applyWrites A r ws).1 :=
      (Machine.batch_sim applyOne_mirrors hmir ws).1.symm
    rw [whole] at hw
    rw [Persistent.whole]
    rcases hring : RingStore.applyWrites A r ws with ⟨res, r'⟩
    rcases hlouds : LoudsStore.applyWrites A s ws with ⟨res', s'⟩
    rw [hring, hlouds] at hans
    rw [hring] at hw
    have hres : res' = res := hans
    subst hres
    rcases res' with (_ | _) | _
    · exact hw
    · exact hw
    · exact hw
  exact Persistent.replay_of_whole I hs hst hwhole

/-! ## Requests -/

/-- The single writes of a request. -/
def Request.writes : Request → List QuadOp
  | .event e => RingStore.writes e
  | _ => []

/-- The writes of a request succeed. -/
def Request.made (A : DictApi D) (p : PersistentRing D) (r : Request) : Bool :=
  (RingStore.applyWrites A p.inner r.writes).1.isOk

/-- The set after a request, if its writes are made. -/
def Request.after (r : Request) (made : Bool) (L : Finset Quad) : Finset Quad :=
  if made = true then r.writes.foldl Spec.applyPlain L else L

/-- The state that a request compacts, if it compacts one. -/
def compactsAt (A : DictApi D) (p : PersistentRing D) : Request → Option (RingStore D)
  | .event e =>
    match RingStore.applyWrites A p.inner (RingStore.writes e) with
    | (.error _, _) => none
    | (.ok bs, r) => if settles { p with inner := r } bs e = true then some r else none
  | _ => none

/-- The records of the request fit the log, its writes are made as a whole, and what it
compacts can be compacted. -/
def RequestOk (A : DictApi D) (Can : RingStore D → Prop) (p : PersistentRing D) (r : Request) : Prop :=
  (match r with
    | .registerNamedGraph g => PayloadShort (.registerGraph g)
    | r => ∀ w ∈ r.writes, PayloadShort (recordOf w)) ∧
  whole A p.inner r.writes = true ∧ ∀ r' ∈ compactsAt A p r, Can r'

instance {Can : RingStore D → Prop} [DecidablePred Can] (r : Request) : Decidable (RequestOk A Can p r) := by
  unfold RequestOk
  rcases r with e | g | t
  · exact inferInstanceAs (Decidable ((∀ w ∈ _, _) ∧ _ ∧ _))
  · exact inferInstanceAs (Decidable (PayloadShort _ ∧ _ ∧ _))
  · exact inferInstanceAs (Decidable ((∀ w ∈ _, _) ∧ _ ∧ _))

/-- No image that an unfinished compaction has left is of a graph without triples, in the
state that the request compacts. -/
def cleanAt (A : DictApi D) (dir : RingDir S) (p : PersistentRing D) (r : Request) : Bool :=
  (compactsAt A p r).all fun r' => leftoversLive dir p.snapshotGen r'

variable {r : Request}

theorem RequestOk.imp {Can Can' : RingStore D → Prop} (himp : ∀ r, Can r → Can' r)
    (h : RequestOk A Can p r) : RequestOk A Can' p r := ⟨h.1, h.2.1, fun r' hr' => himp r' (h.2.2 r' hr')⟩

/-- A request has done its work on memory and directory, and a crash in it leaves the
directory with the old set or the new one. -/
structure Lands (crc32 : Bytes → UInt32) (F : DictFile D S) (fresh : D) (Knows : D → Names → Prop)
    (dir : RingDir S)
    (σ : Spec) (r : Request) (clean made : Bool) (p : PersistentRing D) (ops : List (RingOp S)) : Prop where
  serving : (ops.any isRename = true → clean = true) →
    ∃ σ', Serving crc32 F fresh Knows p (dir.steps ops) σ' ∧ σ'.quads = r.after made σ.quads
  cut : ∀ k gone, ((ops.take k).any isRename = true → clean = true) →
    ∃ σ', Held crc32 F fresh Knows (dir.cut ops k gone) σ' ∧ σ'.quads = r.after (made && decide (1 ≤ k)) σ.quads

variable {clean : Bool}

theorem Steady.lands_idle {ops : List (RingOp S)} (h : Steady crc32 F fresh Knows dir σ clean p ops)
    (hw : r.writes = []) (made : Bool) : Lands crc32 F fresh Knows dir σ r clean made p ops := by
  have hsame : ∀ ok L, r.after ok L = L := by
    intro ok L
    simp [Request.after, hw]
  constructor
  · rw [hsame]
    exact h.serving
  · intro k gone hclean
    rw [hsame]
    exact h.cut k gone hclean

/-- A request that appends its records and then does what changes nothing. -/
theorem Steady.lands_logged {seq : Nat} {bytes : Bytes} {σ₁ : Spec} {ops : List (RingOp S)} {p₀ : PersistentRing D}
    (h : Steady crc32 F fresh Knows (dir.step (.append seq bytes)) σ₁ clean p ops)
    (hbefore : Serving crc32 F fresh Knows p₀ dir σ) {made : Bool}
    (hquads : σ₁.quads = r.after made σ.quads) :
    Lands crc32 F fresh Knows dir σ r clean made p (.append seq bytes :: ops) where
  serving := by
    intro hclean
    rcases h.serving hclean with ⟨σ', hserv, hq⟩
    exact ⟨σ', hserv, hq.trans hquads⟩
  cut := by
    intro k gone hclean
    match k with
    | 0 =>
      rcases hbefore.held with ⟨b, -, hheld⟩
      exact ⟨_, hheld, by simp [Request.after, Spec.sealedAs]⟩
    | k + 1 =>
      rcases h.cut k gone hclean with ⟨σ', hheld, hq⟩
      exact ⟨σ', hheld, by simpa using hq.trans hquads⟩

section

variable (I : Implements A Knows CompactOk) (K : Keeps A F Knows CompactOk Ready) (len : D → Nat) (huff : Bool)
  (c : Course)
include I K

theorem Serving.settle (h : Serving crc32 F fresh Knows p dir σ) {bs : List Bool} {e : Event}
    (hcan : settles p bs e = true → Ready p.inner.dict ∧ RingStore.Fits p.inner)
    (hclean : settles p bs e = true → clean = true → leftoversLive dir p.snapshotGen p.inner = true) :
    Steady crc32 F fresh Knows dir σ clean (settle A F len huff c p bs e).2.1 (settle A F len huff c p bs e).2.2 := by
  rw [PersistentRing.settle]
  by_cases hs : settles p bs e = true
  · rw [if_pos hs]
    rcases h.compactLocked I K (hcan hs).1 (hcan hs).2 len huff c with ⟨hserving, hcut⟩
    exact ⟨fun hren => hserving fun hany => hclean hs (hren hany),
      fun k gone hren => hcut k gone fun hany => hclean hs (hren hany)⟩
  · rw [if_neg hs]
    exact h.steady clean

/-- An event logs its writes, changes the memory and compacts where that is due. -/
theorem Serving.event_lands (h : Serving crc32 F fresh Knows p dir σ) {e : Event}
    (hok : RequestOk A (fun r => Ready r.dict ∧ RingStore.Fits r) p (.event e)) :
    Lands crc32 F fresh Knows dir σ (.event e) (cleanAt A dir p (.event e)) (Request.made A p (.event e))
      (event crc32 A F len huff c p e).2.1 (event crc32 A F len huff c p e).2.2 := by
  rcases hok with ⟨hshort, hwhole, hcan⟩
  rcases h.memory with ⟨im, hshown, hst⟩
  rcases hshown.applyWrites I (RingStore.writes e) with ⟨r₁, hr, hshown₁⟩
  rcases replay_of_whole I hshown hst hwhole with ⟨hrep, hquads⟩
  have hmade : Request.made A p (.event e) = (im.writes (RingStore.writes e)).1.isOk := by
    rw [Request.made, Request.writes, hr]
  have hquads' : (σ.records ((RingStore.writes e).map recordOf)).quads =
      (Request.event e).after (Request.made A p (.event e)) σ.quads := by
    rw [hmade]
    exact hquads
  rw [event_eq]
  by_cases hw : RingStore.writes e = []
  · -- nothing is logged: a compaction, or a batch without elements
    have hat : compactsAt A p (.event e) = if settles p [] e = true then some p.inner else none := by
      rw [compactsAt, hw]
      rfl
    have hnone : (inMemory p (RingStore.applyWrites A p.inner (RingStore.writes e)) : Outcome D S (List Bool)) =
        (.ok [], p, []) := by
      rw [hw]
      rfl
    rw [logWrites, if_pos hw, andThen_ok, hnone, andThen_ok, andThen_reply]
    apply Steady.lands_idle (r := .event e) _ hw
    apply h.settle I K len huff c
    · intro hs
      exact hcan _ (by rw [hat, if_pos hs]; rfl)
    · intro hs hclean
      rw [cleanAt, hat, if_pos hs] at hclean
      exact hclean
  · -- the records are logged, then applied
    have hshort' : ∀ rec ∈ (RingStore.writes e).map recordOf, PayloadShort rec := by
      intro rec hrec
      rcases mem_map.mp hrec with ⟨w, hwm, rfl⟩
      exact hshort w hwm
    have happ := h.append hshort' hst hrep hshown₁
    rw [logWrites, if_neg hw, walAppend, andThen]
    simp only [inMemory, hr]
    -- where a write fails, its records are in the log and it is not answered
    rcases hres : (im.writes (RingStore.writes e)).1 with f | bs
    · exact (happ.steady _).lands_logged h hquads'
    · have hat : compactsAt A p (.event e) = if settles { p with inner := r₁ } bs e = true then some r₁ else none := by
        rw [compactsAt, hr, hres]
      simp only [andThen_ok, andThen_reply]
      apply Steady.lands_logged _ h hquads'
      apply happ.settle I K len huff c
      · intro hs
        exact hcan _ (by rw [hat, if_pos hs]; rfl)
      · intro hs hclean
        rw [cleanAt, hat, if_pos hs] at hclean
        exact hclean

omit K in
theorem Serving.register_lands (h : Serving crc32 F fresh Knows p dir σ) {g : GraphName}
    (hok : PayloadShort (.registerGraph g)) (clean : Bool) (made : Bool) :
    Lands crc32 F fresh Knows dir σ (.registerNamedGraph g) clean made (registerNamedGraph (S := S) crc32 A p g).2.1
      (registerNamedGraph crc32 A p g).2.2 := by
  cases g with
  | defaultGraph => exact (h.steady clean).lands_idle rfl made
  | blankNode b => exact (h.steady clean).lands_idle rfl made
  | namedNode n =>
    rcases h.memory with ⟨im, hshown, hst⟩
    rcases hshown.applyRecord I (.registerGraph (.namedNode n)) with ⟨r', hr, hr'⟩
    have hquiet : im.Quiet (.registerGraph (.namedNode n)) := by
      intro pn hp
      rw [Image.record] at hp
      rcases hg : (im.names.internGraph (.namedNode n)).1 with e | g
      · rw [hg] at hp
        cases hp
      · rw [hg] at hp
        cases hp
    have hrep : im.replay [.registerGraph (.namedNode n)] =
        .ok (im.record (.registerGraph (.namedNode n))).2 := by
      rw [Image.replay_cons hquiet]
      rfl
    have hshort : ∀ rec ∈ [WalRecord.registerGraph (.namedNode n)], PayloadShort rec := by
      intro rec hrec
      rw [mem_singleton.mp hrec]
      exact hok
    have happ := h.append hshort hst hrep hr'
    have hquads : (σ.records [.registerGraph (.namedNode n)]).quads =
        (Request.registerNamedGraph (.namedNode n)).after made σ.quads := by
      rw [Request.after]
      split <;> rfl
    rw [RingStore.applyRecord] at hr
    rw [registerNamedGraph, walAppend, andThen]
    simp only [inMemory, hr]
    exact (happ.steady clean).lands_logged h hquads

theorem Serving.request_lands (h : Serving crc32 F fresh Knows p dir σ)
    (hok : RequestOk A (fun r => Ready r.dict ∧ RingStore.Fits r) p r) :
    Lands crc32 F fresh Knows dir σ r (cleanAt A dir p r) (Request.made A p r)
      (request crc32 A F len huff c p r).2.1 (request crc32 A F len huff c p r).2.2 := by
  cases r with
  | event e => exact h.event_lands I K len huff c hok
  | registerNamedGraph g =>
    rw [request, andThen_reply]
    exact h.register_lands I hok.1 _ _
  | setAutoCompactThreshold t =>
    have hserv : Serving crc32 F fresh Knows { p with autoCompactThreshold := t } dir σ :=
      ⟨h.memory, h.held, h.gen, h.seq, h.later⟩
    exact (hserv.steady _).lands_idle rfl _

end

end PersistentRing

namespace RingSite

open LoudsStore PersistentRing

variable {D S : Type} {crc32 : Bytes → UInt32} {A : DictApi D} {F : DictFile D S} {fresh : D}
variable {Knows : D → Names → Prop} {CompactOk : Names → Prop} {Ready : D → Prop}

/-! ## Runs of a site -/

/-- The quads of the writes that were made. A request that a crash cuts counts if its
records had reached the log. -/
def account (A : DictApi D) (site : RingSite D S) (a : RingAction) (L : Finset Quad) : Finset Quad :=
  match site.process, a with
  | some p, .request r _ => r.after (r.made A p) L
  | some p, .crash r _ k _ => r.after (r.made A p && decide (1 ≤ k)) L
  | _, _ => L

section

variable (crc32 : Bytes → UInt32) (A : DictApi D) (F : DictFile D S) (len : D → Nat) (huff : Bool) (fresh : D)

/-- A site together with the quads of its writes. -/
def tracked : Machine (RingSite D S × Finset Quad) RingAction Fault (Option Reply) := fun st a =>
  ((step crc32 A F len huff fresh st.1 a).1, (step crc32 A F len huff fresh st.1 a).2, account A st.1 a st.2)

/-- The action keeps the writes: a request as in `RequestOk` that renames the MANIFEST over
no stale image, and an opening whose cleanup deletes no records that the MANIFEST asks
for. -/
def Sound (Can : RingStore D → Prop) (st : RingSite D S × Finset Quad) (a : RingAction) : Prop :=
  match st.1.process, a with
  | some p, .request r c => RequestOk A Can p r ∧
      ((request crc32 A F len huff c p r).2.2.any isRename = true → cleanAt A st.1.dir p r = true)
  | some p, .crash r rank k _ => RequestOk A Can p r ∧
      (((request crc32 A F len huff ⟨rank, none⟩ p r).2.2.take k).any isRename = true →
        cleanAt A st.1.dir p r = true)
  | none, .openDir => openKeepsLog st.1.dir = true
  | none, .crashOpening k _ => 0 < k → openKeepsLog st.1.dir = true
  | _, _ => True

instance {Can : RingStore D → Prop} [DecidablePred Can] : (st : RingSite D S × Finset Quad) → (a : RingAction) →
    Decidable (Sound crc32 A F len huff Can st a)
  | (⟨_, some _⟩, _), .request _ _ => inferInstanceAs (Decidable (_ ∧ (_ → _)))
  | (⟨_, some _⟩, _), .crash _ _ _ _ => inferInstanceAs (Decidable (_ ∧ (_ → _)))
  | (⟨_, some _⟩, _), .close => inferInstanceAs (Decidable True)
  | (⟨_, some _⟩, _), .openDir => inferInstanceAs (Decidable True)
  | (⟨_, some _⟩, _), .crashOpening _ _ => inferInstanceAs (Decidable True)
  | (⟨_, none⟩, _), .request _ _ => inferInstanceAs (Decidable True)
  | (⟨_, none⟩, _), .crash _ _ _ _ => inferInstanceAs (Decidable True)
  | (⟨_, none⟩, _), .close => inferInstanceAs (Decidable True)
  | (⟨dir, none⟩, _), .openDir => inferInstanceAs (Decidable (openKeepsLog dir = true))
  | (⟨dir, none⟩, _), .crashOpening k _ => inferInstanceAs (Decidable (0 < k → openKeepsLog dir = true))

end

variable {st : RingSite D S × Finset Quad}

theorem Sound.imp {len : D → Nat} {huff : Bool} {Can Can' : RingStore D → Prop} (himp : ∀ r, Can r → Can' r)
    {a : RingAction} (h : Sound crc32 A F len huff Can st a) : Sound crc32 A F len huff Can' st a := by
  rcases st with ⟨⟨dir, process⟩, L⟩
  cases process with
  | some p => cases a <;> first | exact ⟨RequestOk.imp himp h.1, h.2⟩ | trivial
  | none => cases a <;> exact h

/-- The directory recovers to these quads, and a process serves them. -/
def Settled (crc32 : Bytes → UInt32) (F : DictFile D S) (fresh : D) (Knows : D → Names → Prop)
    (st : RingSite D S × Finset Quad) : Prop :=
  ∃ σ : Spec, σ.quads = st.2 ∧
    match st.1.process with
    | some p => Serving crc32 F fresh Knows p st.1.dir σ
    | none => Held crc32 F fresh Knows st.1.dir σ

theorem settled_empty (h : Knows fresh .empty) : Settled crc32 F fresh Knows ((.empty : RingSite D S), ∅) := by
  refine ⟨.empty, rfl, .new fresh, .empty, [], .empty, rfl, RingStore.shown_new h, ?_, rfl, stands_empty⟩
  apply Wal.Logged.empty
  intro e he
  cases he

theorem Settled.held (h : Settled crc32 F fresh Knows st) :
    ∃ σ : Spec, σ.quads = st.2 ∧ Held crc32 F fresh Knows st.1.dir σ := by
  rcases st with ⟨⟨dir, process⟩, L⟩
  rcases h with ⟨σ, hq, h⟩
  cases process with
  | some p =>
    rcases h.held with ⟨b, -, hheld⟩
    exact ⟨σ.sealedAs b, hq, hheld⟩
  | none => exact ⟨σ, hq, h⟩

section

variable (I : Implements A Knows CompactOk) (K : RingStore.Keeps A F Knows CompactOk Ready) {len : D → Nat}
  {huff : Bool}
include I K

theorem Settled.step (h : Settled crc32 F fresh Knows st) {a : RingAction}
    (ha : Sound crc32 A F len huff (fun r => Ready r.dict ∧ RingStore.Fits r) st a) :
    Settled crc32 F fresh Knows (tracked crc32 A F len huff fresh st a).2 := by
  rcases st with ⟨⟨dir, process⟩, L⟩
  rcases h with ⟨σ, rfl, h⟩
  cases process with
  | some p =>
    cases a with
    | request r c =>
      rcases (h.request_lands I K len huff c ha.1).serving ha.2 with ⟨σ', hserv, hq⟩
      exact ⟨σ', hq, hserv⟩
    | crash r rank k gone =>
      rcases (h.request_lands I K len huff ⟨rank, none⟩ ha.1).cut k gone ha.2 with ⟨σ', hheld, hq⟩
      exact ⟨σ', hq, hheld⟩
    | close =>
      rcases h.held with ⟨b, -, hheld⟩
      exact ⟨σ.sealedAs b, rfl, hheld⟩
    | openDir => exact ⟨σ, rfl, h⟩
    | crashOpening k gone => exact ⟨σ, rfl, h⟩
  | none =>
    cases a with
    | request r c => exact ⟨σ, rfl, h⟩
    | crash r rank k gone => exact ⟨σ, rfl, h⟩
    | close => exact ⟨σ, rfl, h⟩
    | openDir =>
      rcases h.serving I ha with ⟨p, hr, hserv⟩
      refine ⟨σ, rfl, ?_⟩
      simp only [tracked, RingSite.step, hr]
      exact hserv
    | crashOpening k gone =>
      rcases h.openDir I with ⟨r', hr, -⟩
      refine ⟨σ, rfl, ?_⟩
      simp only [tracked, RingSite.step, hr]
      exact h.openDir_cut k gone ha

theorem settled_run {actions : List RingAction} (hfresh : Knows fresh .empty)
    (h : Machine.Meets (tracked crc32 A F len huff fresh)
      (Sound crc32 A F len huff fun r => Ready r.dict ∧ RingStore.Fits r) ((.empty : RingSite D S), ∅) actions) :
    Settled crc32 F fresh Knows
      (Machine.run (tracked crc32 A F len huff fresh) ((.empty : RingSite D S), ∅) actions).2 :=
  Machine.run_inv (J := Settled crc32 F fresh Knows) (fun _ _ hs ha => hs.step I K ha) (settled_empty hfresh) h

end

section Source

open Dictionary DictCompact Site

variable {bs : Nat}

theorem encodedCount_ne_zero {d d' : Dictionary} {terms : List Term} (h : Represents bs d terms)
    (h' : Represents bs d' terms) (hfull : d'.compacted.highWater = terms.length)
    (hd : d.compacted.encodedCount ≠ 0) : d'.compacted.encodedCount ≠ 0 := by
  rcases h.tier with ⟨es, hes⟩
  rcases h'.tier with ⟨es', hes'⟩
  have hcount : d.compacted.encodedCount = es.length := by
    rw [hes.built]
    rfl
  have hcount' : d'.compacted.encodedCount = es'.length := by
    rw [hes'.built]
    rfl
  rw [hcount] at hd
  rcases exists_mem_of_length_pos (Nat.pos_of_ne_zero hd) with ⟨e, he⟩
  rcases hes.sound e he with ⟨-, term, hterm, hcodes⟩
  have hlt : e.origId < d'.compacted.highWater := by
    rw [hfull]
    exact (List.getElem?_eq_some_iff.mp hterm).1
  have hregular : term.isTriple = false := by
    cases term with
    | triple s p o => cases hcodes.key
    | _ => rfl
  rcases hes'.complete e.origId term hlt hterm hregular with ⟨e', he', -⟩
  rw [hcount']
  exact Nat.ne_of_gt (length_pos_of_mem he')

theorem keeps (hbs : 0 < bs) :
    RingStore.Keeps (api bs) dictFile (Dictionary.Knows bs) (NamesSafe bs) (DictReady bs) where
  compactOk := fun d n h hr => h.namesSafe hbs hr.1
  reload := by
    intro d n h hr
    rcases h.terms.compact_spec hbs hr.1 with ⟨d₁, hcomp, hrep, hsame, hfull⟩
    have hknows : Dictionary.Knows bs d₁ (n.withSealed (decide (d₁.compacted.encodedCount ≠ 0))) :=
      ⟨hrep, hsame.graphsOf h.graphs, rfl⟩
    have hfit : d₁.GraphsFit := by
      unfold GraphsFit graphStrs
      rw [hsame.2.1]
      exact hr.2
    rcases fromSnapshot_toSnapshot hknows hbs hfull hfit with ⟨d₂, hload, hd₂⟩
    refine ⟨d₁, d₂, _, hcomp, hload, hknows, hd₂, ?_⟩
    intro hsealed
    rw [h.isSealed, decide_eq_true_iff] at hsealed
    rw [decide_eq_true_iff]
    exact encodedCount_ne_zero h.terms hrep hfull hsealed

/-- After every run of sound actions, whatever gave up, was cut, and however often it was
opened in between, the directory opens to a store that answers for the quads of the
writes. -/
theorem reopen_holds_writes (hbs : 0 < bs) {huff : Bool} {actions : List RingAction}
    (h : Machine.Meets (tracked crc32 (api bs) dictFile RingStore.dictLen huff (Dictionary.new bs))
      (Sound crc32 (api bs) dictFile RingStore.dictLen huff fun r => DictReady bs r.dict ∧ RingStore.Fits r)
      (.empty, ∅) actions)
    {site : RingSite Dictionary DictSnapshot} {written : Finset Quad}
    (hrun : (Machine.run (tracked crc32 (api bs) dictFile RingStore.dictLen huff (Dictionary.new bs)) (.empty, ∅)
      actions).2 = (site, written)) :
    ∃ p ops, openDir crc32 (api bs) dictFile (Dictionary.new bs) site.dir = (.ok p, ops) ∧
      RingStore.Answers bs p.inner written := by
  have hsettled := settled_run (implements hbs) (keeps hbs) (knows_new bs) h
  rw [hrun] at hsettled
  rcases hsettled.held with ⟨σ, hq, hheld⟩
  rcases hheld.openDir (implements hbs) with ⟨r', hr, im, hshown, hst⟩
  refine ⟨_, _, hr, ?_⟩
  have hanswers := (hshown.follows hst).answers hbs
  rw [hq] at hanswers
  exact hanswers

/-- The graphs in the order of their ids. -/
def ascending : GraphId → Nat := UInt8.toNat

/-- A compaction gives up after its images, a crash cuts another one there; the next
commits the generation while the graph has a triple. -/
def setbacks : List RingAction :=
  [.openDir, .request (.event (.call (.insert (sampleQuad "a")))) ⟨ascending, none⟩,
    .request (.event (.call .compact)) ⟨ascending, some 2⟩,
    .request (.event (.call (.insert (sampleQuad "b")))) ⟨ascending, none⟩,
    .crash (.event (.call .compact)) ascending 1 (fun _ => false), .openDir,
    .request (.event (.call (.remove (sampleQuad "a")))) ⟨ascending, none⟩,
    .request (.event (.call .compact)) ⟨ascending, none⟩, .close]

/-- With a compaction that is cut off and one that fails. -/
theorem reopen_holds_writes_setbacks :
    ∃ p ops, openDir Wal.crc32 (api sourceBlockSize) dictFile (Dictionary.new sourceBlockSize)
        (Machine.run (tracked Wal.crc32 (api sourceBlockSize) dictFile RingStore.dictLen true
          (Dictionary.new sourceBlockSize)) (.empty, ∅) setbacks).2.1.dir = (.ok p, ops) ∧
      RingStore.Answers sourceBlockSize p.inner {sampleQuad "b"} := by
  have hmeets : Machine.Meets (tracked Wal.crc32 (api sourceBlockSize) dictFile RingStore.dictLen true
      (Dictionary.new sourceBlockSize))
      (Sound Wal.crc32 (api sourceBlockSize) dictFile RingStore.dictLen true fun r =>
        readyBlock sourceBlockSize r.dict = true ∧ RingStore.fitsSmall sourceBlockSize r = true)
      (.empty, ∅) setbacks := by
    decide +kernel
  have hsound := hmeets.imp (Q := Sound Wal.crc32 (api sourceBlockSize) dictFile RingStore.dictLen true fun r =>
      DictReady sourceBlockSize r.dict ∧ RingStore.Fits r)
    fun st a ha => ha.imp fun r hr => ⟨dictReady_of_block hr.1, RingStore.fits_of_fitsSmall hr.2⟩
  have hquads : (Machine.run (tracked Wal.crc32 (api sourceBlockSize) dictFile RingStore.dictLen true
      (Dictionary.new sourceBlockSize)) (.empty, ∅) setbacks).2.2 = {sampleQuad "b"} := by
    decide +kernel
  generalize hrun : (Machine.run (tracked Wal.crc32 (api sourceBlockSize) dictFile RingStore.dictLen true
    (Dictionary.new sourceBlockSize)) (.empty, ∅) setbacks).2 = st at hquads ⊢
  rcases st with ⟨site, written⟩
  rw [← show written = {sampleQuad "b"} from hquads]
  exact reopen_holds_writes (by decide) hsound hrun

/-- The quads of a store, if it shows them. -/
def readAll (r : RingStore Dictionary) : Option (List StoredQuad) :=
  (RingStore.quadsForPattern (api sourceBlockSize) r none none none none).toOption.map Prod.fst

theorem readAll_of_answers {r : RingStore Dictionary} {S : Finset Quad}
    (h : RingStore.Answers sourceBlockSize r S) : ∃ qs : List Quad, readAll r = some (qs.map Quad.stored) ∧
      ∀ q, q ∈ qs ↔ q ∈ S := by
  have hasks : LoudsStore.FindablePattern r.dict none none none := by
    refine ⟨?_, ?_⟩
    · intro t ht
      cases ht
    · intro _ _ t ht
      cases ht
  rcases h.quadsForPattern none none none none hasks with ⟨qs, r', hr, -, hmem⟩
  refine ⟨qs, by rw [readAll, hr]; rfl, ?_⟩
  intro q
  rw [hmem q, and_iff_left_iff_imp]
  intro _
  constructor <;> intro _ hnone <;> cases hnone

/-- A compaction gives up after the image and the ids of the default graph, whose quad is
then removed. The next compaction writes no image of the graph, and the opening finds the
old one. -/
theorem leftover_image_restores :
    ¬∀ (actions : List RingAction) (site : RingSite Dictionary DictSnapshot) (written : Finset Quad),
      (Machine.run (tracked Wal.crc32 (api sourceBlockSize) dictFile RingStore.dictLen true
        (Dictionary.new sourceBlockSize)) (.empty, ∅) actions).2 = (site, written) →
      ∃ p ops, openDir Wal.crc32 (api sourceBlockSize) dictFile (Dictionary.new sourceBlockSize) site.dir = (.ok p, ops) ∧
        RingStore.Answers sourceBlockSize p.inner written := by
  intro hclaim
  generalize hrun : (Machine.run (tracked Wal.crc32 (api sourceBlockSize) dictFile RingStore.dictLen true
    (Dictionary.new sourceBlockSize)) (.empty, ∅)
    [.openDir, .request (.event (.call (.insert (sampleQuad "a")))) ⟨ascending, none⟩,
      .request (.event (.call .compact)) ⟨ascending, some 2⟩,
      .request (.event (.call (.remove (sampleQuad "a")))) ⟨ascending, none⟩,
      .request (.event (.call .compact)) ⟨ascending, none⟩, .close]).2 = st
  have hwritten : st.2 = ∅ := by
    rw [← hrun]
    decide +kernel
  have hread : ((openDir Wal.crc32 (api sourceBlockSize) dictFile (Dictionary.new sourceBlockSize)
      st.1.dir).1.toOption.map fun p => readAll p.inner) = some (some [(sampleQuad "a").stored]) := by
    rw [← hrun]
    decide +kernel
  rcases hclaim _ st.1 st.2 hrun with ⟨p, ops, hopen, hanswers⟩
  rcases readAll_of_answers hanswers with ⟨qs, hqs, hmem⟩
  rw [hopen] at hread
  have hshown : some (qs.map Quad.stored) = some [(sampleQuad "a").stored] := by
    rw [← hqs]
    exact Option.some.inj hread
  rcases qs with _ | ⟨q, qs⟩
  · cases hshown
  · have hin := (hmem q).mp mem_cons_self
    rw [hwritten] at hin
    cases hin

end Source

end RingSite

end Nova
