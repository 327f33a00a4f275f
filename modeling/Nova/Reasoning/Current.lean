import Nova.Louds.Runs
import Mathlib.Logic.Function.Basic

/-!
# The cached overlay and the compaction counter

`ReasoningState` keeps one overlay and the compaction count it was built at. A call of
`current` reads the store's count, looks at the cache, waits for the write lock, looks
again, infers, and records the overlay and then the count it had read at the start. The
store's writers work under a mutex; a compaction counts itself before it lets go of the
mutex, a bulk load does not count itself at all. `step` interleaves these steps for any
number of callers and any sequence of writers.

* `fresh_of_meets`: if no bulk load changes the rings while an overlay is kept or being
  computed under the count of the store, and the count does not wrap around, no call
  returns an overlay computed from rings older than the last operation that had returned
  when the call began.
* `bulkLoad_leaves_overlay`: after a bulk load of one quad, a call still returns the
  overlay of the empty store.

An inference is the scans it makes of the store: each reads the store in one lock
section. What it derives from them is in `Nova.Reasoning.Infer`. The count is one for
all the stores of a process, so it may move on its own; loads of it are taken to be
sequentially consistent.
-/

namespace Nova.Reasoning

open Nova Nova.Lib Nova.LoudsStore

/-- `NEVER_BUILT`. -/
def neverBuilt : Nat := 2 ^ 64 - 1

/-- An overlay, as the state of the rings its engine saw: for every scan, how often
compactions and bulk loads had changed the rings before it. -/
abbrev Reads := List Nat

/-- Where a call of `current` stands. `since` is how often the rings had changed when the
last operation returned before the call; the source does not keep it. -/
inductive Caller where
  | idle
  /-- It has read the generation. -/
  | checking (currentGen since : Nat)
  /-- It waits for the write lock. -/
  | waiting (currentGen since : Nat)
  /-- It holds the write lock and has made some scans. -/
  | inferring (currentGen since : Nat) (reads : Reads)
  /-- It has put its overlay into the cache. -/
  | recording (currentGen since : Nat) (reads : Reads)
  | returned (since : Nat) (overlay : Reads)
deriving DecidableEq

/-- What is left to do in the lock section of a writer. -/
inductive Section where
  | free
  /-- A compaction has to merge and commit. -/
  | compacting
  | loading (quads : List Quad)
  /-- A compaction has to count itself. -/
  | uncounted
  | closing
deriving DecidableEq

/-- The generation and the scans of a call that is computing an overlay. -/
def Caller.building : Caller → Option (Nat × Reads)
  | .inferring g _ reads => some (g, reads)
  | .recording g _ reads => some (g, reads)
  | _ => none

def Section.loads : Section → Bool
  | .loading _ => true
  | _ => false

/-- `ReasoningState`; `writer` is the caller that holds the write lock of the overlay. -/
structure ReasoningState (T : Type) where
  overlay : Option Reads
  builtAtCompactionCount : Nat
  writer : Option T

structure Host (D T : Type) where
  store : LoudsStore D
  inner : Section
  compactionCount : Nat
  state : ReasoningState T
  callers : T → Caller
  /-- How often compactions and bulk loads have changed the rings. -/
  changes : Nat
  /-- Its value when the last operation returned. -/
  returned : Nat

inductive Move (T : Type) where
  | start (t : T)
  | check (t : T)
  | acquire (t : T)
  | scan (t : T)
  | install (t : T)
  | record (t : T)
  /-- The engine returns an error. -/
  | fail (t : T)
  /-- A writer takes the mutex and makes its writes to the delta. -/
  | enter (op : Event)
  /-- It swaps the rings; `saved` is false if the files could not be written. -/
  | commit (saved : Bool)
  | count
  | leave
  /-- Another store of the process compacts. -/
  | elsewhere
deriving DecidableEq

variable {g : Nat}

namespace ReasoningState

variable {T : Type}

def new : ReasoningState T := ⟨none, neverBuilt, none⟩

def isStale (rs : ReasoningState T) : Option Nat → Bool
  | some g => g ≠ rs.builtAtCompactionCount
  | none => false

/-- The overlay both looks at the cache return. -/
def upToDate (rs : ReasoningState T) (currentGen : Nat) : Option Reads :=
  match rs.overlay with
  | some overlay => if rs.isStale (some currentGen) then none else some overlay
  | none => none

theorem upToDate_eq_some {rs : ReasoningState T} {overlay : Reads} :
    rs.upToDate g = some overlay ↔ rs.overlay = some overlay ∧ rs.builtAtCompactionCount = g := by
  unfold upToDate
  cases rs.overlay with
  | none => simp
  | some kept =>
    by_cases hg : rs.builtAtCompactionCount = g
    · have hfresh : rs.isStale (some g) = false := by simp [isStale, hg]
      simp [hfresh, hg]
    · have hstale : rs.isStale (some g) = true := by simp [isStale, Ne.symm hg]
      simp [hstale, hg]

end ReasoningState

namespace Host

variable {D T : Type} [DecidableEq T] (A : DictApi D)

def init (store : LoudsStore D) : Host D T where
  store := store
  inner := .free
  compactionCount := 0
  state := .new
  callers := fun _ => .idle
  changes := 0
  returned := 0

def setCaller (s : Host D T) (t : T) (c : Caller) : Host D T :=
  { s with callers := Function.update s.callers t c }

/-- `COMPACTION_COUNT.fetch_add(1)`. -/
def fetchAdd (s : Host D T) : Host D T := { s with compactionCount := (s.compactionCount + 1) % 2 ^ 64 }

/-- A new store; whether its rings hold other triples is noted. -/
def putStore (s : Host D T) (store : LoudsStore D) : Host D T :=
  { s with
    store := store
    changes := if store.view.base = s.store.view.base then s.changes else s.changes + 1 }

/-- The beginning of a lock section: the writes go to the delta, and a compaction follows
if the call is one or the delta has grown enough. -/
def enter (s : Host D T) : Event → Host D T
  | .bulkLoad quads => { s with inner := .loading quads }
  | .call c =>
    let (result, store) := applyWrites A s.store c.writes
    let due := result.isOk = true ∧ (c = .compact ∨ c.writes ≠ [] ∧ store.autoDue = true)
    { s.putStore store with inner := if due then .compacting else .closing }

/-- The rings of `store` stay where a commit fails. -/
def keepRings (store committed : LoudsStore D) : LoudsStore D :=
  { committed with graphs := store.graphs, delta := store.delta }

/-- The store a commit leaves, and what is left to do. -/
def committed (store : LoudsStore D) (saved : Bool) : Section → Option (LoudsStore D × Section)
  | .compacting =>
    match compactLocked A store with
    -- `dict.compact()?` returns before the compaction is counted
    | (.error _, s') => some (s', .closing)
    -- a failed commit is counted as well
    | (.ok (), s') => some (if saved then s' else keepRings store s', .uncounted)
  | .loading quads =>
    match bulkLoad A store quads with
    | (.error _, s') => some (s', .closing)
    | (.ok _, s') => some (if saved then s' else keepRings store s', .closing)
  | _ => none

/-- The state after a step, or `none` if the party cannot make it. -/
def next (s : Host D T) : Move T → Option (Host D T)
  | .start t =>
    match s.callers t with
    | .idle | .returned _ _ => some (s.setCaller t (.checking s.compactionCount s.returned))
    | _ => none
  | .check t =>
    match s.callers t, s.state.writer with
    | .checking g since, none =>
      match s.state.upToDate g with
      | some overlay => some (s.setCaller t (.returned since overlay))
      | none => some (s.setCaller t (.waiting g since))
    | _, _ => none
  | .acquire t =>
    match s.callers t, s.state.writer with
    | .waiting g since, none =>
      match s.state.upToDate g with
      | some overlay => some (s.setCaller t (.returned since overlay))
      | none =>
        some ({ s with state := { s.state with writer := some t } }.setCaller t (.inferring g since []))
    | _, _ => none
  | .scan t =>
    match s.callers t, s.inner with
    | .inferring g since reads, .free => some (s.setCaller t (.inferring g since (s.changes :: reads)))
    | _, _ => none
  | .install t =>
    match s.callers t with
    | .inferring g since reads =>
      some ({ s with state := { s.state with overlay := some reads } }.setCaller t
        (.recording g since reads))
    | _ => none
  | .record t =>
    match s.callers t with
    | .recording g since reads =>
      some ({ s with state := { s.state with builtAtCompactionCount := g, writer := none } }.setCaller t
        (.returned since reads))
    | _ => none
  | .fail t =>
    match s.callers t with
    | .inferring _ _ _ => some ({ s with state := { s.state with writer := none } }.setCaller t .idle)
    | _ => none
  | .enter op =>
    match s.inner with
    | .free => some (s.enter A op)
    | _ => none
  | .commit saved =>
    match committed A s.store saved s.inner with
    | some (store, inner) => some { s.putStore store with inner := inner }
    | none => none
  | .count =>
    match s.inner with
    | .uncounted => some { s.fetchAdd with inner := .closing }
    | _ => none
  | .leave =>
    match s.inner with
    | .closing => some { s with inner := .free, returned := s.changes }
    | _ => none
  | .elsewhere => some s.fetchAdd

/-- A move that cannot be made leaves the state as it is. -/
def step : Machine (Host D T) (Move T) Unit Unit := fun s m =>
  match s.next A m with
  | some s' => (.ok (), s')
  | none => (.error (), s)

end Host

namespace Host

variable {D T : Type} {s : Host D T}

/-- No call has returned an overlay older than what had returned before the call. -/
def Fresh (s : Host D T) : Prop :=
  ∀ t since overlay, s.callers t = .returned since overlay → ∀ read ∈ overlay, since ≤ read

/-- Nothing is kept under the count of the store, and nothing scanned is being computed
under it. -/
def Unkeyed (s : Host D T) : Prop :=
  (s.state.overlay = none ∨ s.state.builtAtCompactionCount ≠ s.compactionCount) ∧
    ∀ t ∈ s.state.writer, ∀ b ∈ (s.callers t).building, b.1 = s.compactionCount → b.2 = []

instance : Decidable s.Unkeyed := inferInstanceAs (Decidable (_ ∧ _))

/-- A bulk load that changes the rings finds nothing under the count, and the count does
not wrap around. -/
def LoadsUnkeyed (A : DictApi D) (s : Host D T) : Move T → Prop
  | .commit saved => s.inner.loads = true → ∀ c ∈ committed A s.store saved s.inner,
      c.1.view.base ≠ s.store.view.base → s.Unkeyed
  | .count => s.inner = .uncounted → s.compactionCount + 1 < 2 ^ 64
  | .elsewhere => s.compactionCount + 1 < 2 ^ 64
  | _ => True

instance (A : DictApi D) (m : Move T) : Decidable (LoadsUnkeyed A s m) := by
  cases m <;> unfold LoadsUnkeyed <;> infer_instance

/-! ## Writes to the delta leave the rings alone -/

section Rings

variable {A : DictApi D} {st : LoudsStore D}

theorem andThen_graphs {α β : Type} {x : Outcome D α} {k : α → LoudsStore D → Outcome D β}
    (hx : x.2.graphs = st.graphs) (hk : ∀ a st', st'.graphs = st.graphs → (k a st').2.graphs = st.graphs) :
    (andThen x k).2.graphs = st.graphs := by
  rcases x with ⟨r, st'⟩
  cases r with
  | ok a => exact hk a st' hx
  | error f => exact hx

theorem intern_graphs (t : Term) : (intern A st t).2.graphs = st.graphs := by
  unfold intern
  split <;> rfl

theorem internGraph_graphs (g : GraphName) : (internGraph A st g).2.graphs = st.graphs := by
  unfold internGraph
  split <;> rfl

theorem internQuad_graphs (q : Quad) : (internQuad A st q).2.graphs = st.graphs := by
  apply andThen_graphs (internGraph_graphs q.graphName)
  intro gId st₁ h₁
  apply andThen_graphs ((intern_graphs _).trans h₁)
  intro sId st₂ h₂
  apply andThen_graphs ((intern_graphs _).trans h₂)
  intro pId st₃ h₃
  apply andThen_graphs ((intern_graphs _).trans h₃)
  intro oId st₄ h₄
  exact h₄

theorem applyOne_graphs (w : QuadOp) : (applyOne A st w).2.graphs = st.graphs := by
  cases w with
  | insert q =>
    apply andThen_graphs (internQuad_graphs q)
    rintro ⟨gId, sId, pId, oId⟩ st' h
    simp only
    split
    · exact h
    · exact h
    · split
      · exact h
      · split <;> exact h
  | remove q =>
    rw [applyOne, applyRemove]
    split
    · rfl
    · rfl
    · simp only
      split
      · rfl
      · rfl
      · split <;> rfl

theorem applyWrites_graphs (ws : List QuadOp) : (applyWrites A st ws).2.graphs = st.graphs := by
  refine Machine.batch_inv (J := fun st' => st'.graphs = st.graphs) (P := fun _ _ => True) ?_ rfl
    (Machine.batchMeets_true st ws)
  intro st' w h _
  exact (applyOne_graphs w).trans h

theorem compactDict_graphs : (compactDict A st).2.graphs = st.graphs := by
  unfold compactDict
  split <;> rfl

theorem compactLocked_error_graphs {f : Fault} {st' : LoudsStore D}
    (h : compactLocked A st = (.error f, st')) : st'.graphs = st.graphs := by
  have hdict : (compactDict A st).2.graphs = st.graphs := compactDict_graphs
  rw [compactLocked] at h
  rcases hc : compactDict A st with ⟨r, s₁⟩
  rw [hc] at h hdict
  cases r with
  | ok _ => cases h
  | error f' =>
    cases h
    exact hdict

theorem base_eq {st' : LoudsStore D} (h : st'.graphs = st.graphs) : st'.view.base = st.view.base := by
  simp only [view, ringKeys, h]

end Rings

/-! ## What an overlay has seen

`seen g` is how often the rings had changed, at least, before every scan of an overlay
built at count `g`. -/

def CallerOk (seen : Nat → Nat) (count : Nat) : Caller → Prop
  | .idle => True
  | .checking g since => g ≤ count ∧ since ≤ seen g
  | .waiting g since => g ≤ count ∧ since ≤ seen g
  | .inferring g since reads => g ≤ count ∧ since ≤ seen g ∧ ∀ read ∈ reads, seen g ≤ read
  | .recording g since reads => g ≤ count ∧ since ≤ seen g ∧ ∀ read ∈ reads, seen g ≤ read
  | .returned since overlay => ∀ read ∈ overlay, since ≤ read

structure Inv (s : Host D T) (seen : Nat → Nat) : Prop where
  bounded : ∀ g, g ≤ s.compactionCount → seen g ≤ s.changes
  returned : s.returned ≤ seen s.compactionCount
  counted : s.inner ≠ .uncounted → seen s.compactionCount = s.changes
  caller : ∀ t, CallerOk seen s.compactionCount (s.callers t)
  writer : ∀ t, (s.callers t).building ≠ none → s.state.writer = some t
  installed : ∀ t g since reads, s.callers t = .recording g since reads → s.state.overlay = some reads
  /-- Between the two stores of a caller the cache holds the overlay of one count under another. -/
  cached : (∀ t g since reads, s.callers t ≠ .recording g since reads) →
    ∀ overlay, s.state.overlay = some overlay →
    s.state.builtAtCompactionCount ≤ s.compactionCount ∧
      ∀ read ∈ overlay, seen s.state.builtAtCompactionCount ≤ read

variable {seen : Nat → Nat} {t : T}

theorem Inv.fresh (h : Inv s seen) : Fresh s := by
  intro t since overlay ht
  have hok := h.caller t
  rw [ht] at hok
  exact hok

theorem inv_init (store : LoudsStore D) : Inv (init (T := T) store) fun _ => 0 where
  bounded := fun _ _ => Nat.le_refl 0
  returned := Nat.le_refl 0
  counted := fun _ => rfl
  caller := fun _ => trivial
  writer := fun _ h => absurd rfl h
  installed := by
    intro t g since reads h
    cases h
  cached := by
    intro _ overlay h
    cases h

theorem Inv.not_recording (h : Inv s seen) (hw : s.state.writer = none) (t : T) (g since : Nat) (reads : Reads) :
    s.callers t ≠ .recording g since reads := by
  intro ht
  have hwriter := h.writer t (by simp [ht, Caller.building])
  rw [hw] at hwriter
  cases hwriter

variable {since : Nat}

theorem Inv.upToDate (h : Inv s seen) (hw : s.state.writer = none) (hsince : since ≤ seen g)
    {overlay : Reads} (hup : s.state.upToDate g = some overlay) :
    CallerOk seen s.compactionCount (.returned since overlay) := by
  intro read hread
  rcases ReasoningState.upToDate_eq_some.mp hup with ⟨ho, rfl⟩
  exact hsince.trans ((h.cached (h.not_recording hw) overlay ho).2 read hread)

theorem Inv.lock (h : Inv s seen) (hw : s.state.writer = none) :
    Inv { s with state := { s.state with writer := some t } } seen where
  bounded := h.bounded
  returned := h.returned
  counted := h.counted
  caller := h.caller
  writer := by
    intro t' ht'
    have hother := h.writer t' ht'
    rw [hw] at hother
    cases hother
  installed := h.installed
  cached := h.cached

/-! ## Writers -/

theorem CallerOk.of_eq {seen' : Nat → Nat} {count count' : Nat} {c : Caller} (h : CallerOk seen count c)
    (hcount : count ≤ count') (hseen : ∀ g, g ≤ count → seen' g = seen g) : CallerOk seen' count' c := by
  cases c with
  | idle => trivial
  | checking g since => exact ⟨h.1.trans hcount, by rw [hseen g h.1]; exact h.2⟩
  | waiting g since => exact ⟨h.1.trans hcount, by rw [hseen g h.1]; exact h.2⟩
  | inferring g since reads => exact ⟨h.1.trans hcount, by rw [hseen g h.1]; exact h.2⟩
  | recording g since reads => exact ⟨h.1.trans hcount, by rw [hseen g h.1]; exact h.2⟩
  | returned since overlay => exact h

/-- The count goes up: what is built under the new one sees at least what has returned,
and after a compaction all of its changes. -/
theorem Inv.count (h : Inv s seen) (hwrap : s.compactionCount + 1 < 2 ^ 64) (inner : Section) {v : Nat}
    (hlow : s.returned ≤ v) (hhigh : v ≤ s.changes) (hcounted : inner ≠ .uncounted → v = s.changes) :
    Inv { s.fetchAdd with inner := inner } (Function.update seen (s.compactionCount + 1) v) := by
  have hcount : s.fetchAdd.compactionCount = s.compactionCount + 1 := Nat.mod_eq_of_lt hwrap
  have hold : ∀ g, g ≤ s.compactionCount → Function.update seen (s.compactionCount + 1) v g = seen g := by
    intro g hg
    exact Function.update_of_ne (Nat.ne_of_lt (Nat.lt_succ_of_le hg)) v seen
  have hnew : Function.update seen (s.compactionCount + 1) v (s.compactionCount + 1) = v :=
    Function.update_self _ v seen
  constructor
  · intro g hg
    simp only [hcount] at hg
    rcases Nat.le_or_eq_of_le_succ hg with hg | rfl
    · rw [hold g hg]
      exact h.bounded g hg
    · rw [hnew]
      exact hhigh
  · simp only [hcount, hnew]
    exact hlow
  · intro hin
    simp only [hcount, hnew]
    exact hcounted hin
  · intro t
    simp only [hcount]
    exact (h.caller t).of_eq (Nat.le_succ _) hold
  · exact h.writer
  · exact h.installed
  · intro hnone overlay ho
    rcases h.cached hnone overlay ho with ⟨hb, hreads⟩
    simp only [hcount]
    refine ⟨Nat.le_succ_of_le hb, ?_⟩
    intro read hread
    rw [show s.fetchAdd.state.builtAtCompactionCount = s.state.builtAtCompactionCount from rfl, hold _ hb]
    exact hreads read hread

variable {store : LoudsStore D} {inner : Section}

/-- The rings change and nothing is kept or computed under the count: what is built from
now on sees the change. -/
theorem Inv.change (h : Inv s seen) (hun : s.Unkeyed) :
    Inv { s with store := store, changes := s.changes + 1, inner := inner }
      (Function.update seen s.compactionCount (s.changes + 1)) := by
  have hself : Function.update seen s.compactionCount (s.changes + 1) s.compactionCount = s.changes + 1 :=
    Function.update_self _ _ seen
  have hle : ∀ g, g ≤ s.compactionCount → seen g ≤ Function.update seen s.compactionCount (s.changes + 1) g := by
    intro g hg
    by_cases heq : g = s.compactionCount
    · rw [heq, hself]
      exact (h.bounded _ (Nat.le_refl _)).trans (Nat.le_succ _)
    · rw [Function.update_of_ne heq]
  -- nobody that works under the current count has read anything yet
  have hreads : ∀ t g since reads, s.callers t = .inferring g since reads ∨
    s.callers t = .recording g since reads →
      (∀ read ∈ reads, seen g ≤ read) →
      ∀ read ∈ reads, Function.update seen s.compactionCount (s.changes + 1) g ≤ read := by
    intro t g since reads ht hall read hread
    have hb : (s.callers t).building = some (g, reads) := by
      rcases ht with ht | ht <;> rw [ht] <;> rfl
    by_cases heq : g = s.compactionCount
    · have hnil := hun.2 t (h.writer t (by simp [hb])) _ hb heq
      simp only at hnil
      rw [hnil] at hread
      cases hread
    · rw [Function.update_of_ne heq]
      exact hall read hread
  constructor
  · intro g hg
    by_cases heq : g = s.compactionCount
    · rw [heq, hself]
    · rw [Function.update_of_ne heq]
      exact (h.bounded g hg).trans (Nat.le_succ _)
  · exact h.returned.trans (hle _ (Nat.le_refl _))
  · exact fun _ => hself
  · intro t
    have hok := h.caller t
    cases ht : s.callers t with
    | idle => trivial
    | checking g since =>
      rw [ht] at hok
      exact ⟨hok.1, hok.2.trans (hle g hok.1)⟩
    | waiting g since =>
      rw [ht] at hok
      exact ⟨hok.1, hok.2.trans (hle g hok.1)⟩
    | inferring g since reads =>
      rw [ht] at hok
      exact ⟨hok.1, hok.2.1.trans (hle g hok.1), hreads t g since reads (.inl ht) hok.2.2⟩
    | recording g since reads =>
      rw [ht] at hok
      exact ⟨hok.1, hok.2.1.trans (hle g hok.1), hreads t g since reads (.inr ht) hok.2.2⟩
    | returned since overlay =>
      rw [ht] at hok
      exact hok
  · exact h.writer
  · exact h.installed
  · intro hnone overlay ho
    have hother : s.state.builtAtCompactionCount ≠ s.compactionCount := by
      rcases hun.1 with hempty | hother
      · rw [show s.state.overlay = some overlay from ho] at hempty
        cases hempty
      · exact hother
    simp only [Function.update_of_ne hother]
    exact h.cached hnone overlay ho

theorem Inv.writes (h : Inv s seen) {changes : Nat}
    (hle : s.changes ≤ changes) (hcounted : inner ≠ .uncounted → seen s.compactionCount = changes) :
    Inv { s with store := store, changes := changes, inner := inner } seen where
  bounded := fun g hg => (h.bounded g hg).trans hle
  returned := h.returned
  counted := hcounted
  caller := h.caller
  writer := h.writer
  installed := h.installed
  cached := h.cached

theorem Inv.leave (h : Inv s seen) (hin : s.inner = .closing) :
    Inv { s with inner := .free, returned := s.changes } seen := by
  have hall := h.counted (by simp [hin])
  exact { h with
    returned := by rw [hall]
    counted := fun _ => hall }

theorem putStore_of_eq (h : store.view.base = s.store.view.base) :
    s.putStore store = { s with store := store } := by
  simp only [putStore, if_pos h]

theorem putStore_of_ne (h : store.view.base ≠ s.store.view.base) :
    s.putStore store = { s with store := store, changes := s.changes + 1 } := by
  simp only [putStore, if_neg h]

variable {A : DictApi D}

theorem Inv.enter (h : Inv s seen) (hin : s.inner = .free) (op : Event) : Inv (s.enter A op) seen := by
  have hall := h.counted (by simp [hin])
  cases op with
  | bulkLoad quads => exact h.writes (Nat.le_refl _) fun _ => hall
  | call c =>
    have hrings : (applyWrites A s.store c.writes).2.view.base = s.store.view.base :=
      base_eq (applyWrites_graphs c.writes)
    simp only [Host.enter, putStore_of_eq hrings]
    exact h.writes (Nat.le_refl _) fun _ => hall

theorem committed_compacting {st : LoudsStore D} {saved : Bool}
    (h : committed A store saved .compacting = some (st, inner)) :
    inner = .uncounted ∨ st.view.base = store.view.base := by
  rw [committed] at h
  rcases hc : compactLocked A store with ⟨r, s'⟩
  rw [hc] at h
  cases r with
  | ok _ =>
    cases h
    exact .inl rfl
  | error f =>
    cases h
    exact .inr (base_eq (compactLocked_error_graphs hc))

theorem Inv.commit (h : Inv s seen) {saved : Bool} (hok : LoadsUnkeyed A s (.commit saved)) {st : LoudsStore D}
    (hc : committed A s.store saved s.inner = some (st, inner)) :
    ∃ seen', Inv { s.putStore st with inner := inner } seen' := by
  by_cases hrings : st.view.base = s.store.view.base
  · rw [putStore_of_eq hrings]
    refine ⟨seen, h.writes (Nat.le_refl _) fun _ => h.counted ?_⟩
    intro hin
    rw [hin] at hc
    cases hc
  · rw [putStore_of_ne hrings]
    cases hin : s.inner with
    | compacting =>
      rw [hin] at hc
      rcases committed_compacting hc with rfl | hsame
      · exact ⟨seen, h.writes (Nat.le_succ _) fun hne => absurd rfl hne⟩
      · exact absurd hsame hrings
    | loading quads =>
      exact ⟨_, h.change (hok (by rw [hin]; rfl) _ hc hrings)⟩
    | free =>
      rw [hin] at hc
      cases hc
    | uncounted =>
      rw [hin] at hc
      cases hc
    | closing =>
      rw [hin] at hc
      cases hc

section Steps

variable [DecidableEq T]

@[simp] theorem setCaller_self (t : T) (c : Caller) : (s.setCaller t c).callers t = c := by
  simp [setCaller]

theorem setCaller_ne {t t' : T} (hne : t' ≠ t) (c : Caller) : (s.setCaller t c).callers t' = s.callers t' := by
  simp [setCaller, hne]

theorem Inv.setCaller (h : Inv s seen) {c : Caller} (hok : CallerOk seen s.compactionCount c)
    (hwriter : c.building ≠ none → s.state.writer = some t)
    (hwas : ∀ g since reads, s.callers t ≠ .recording g since reads)
    (hnot : ∀ g since reads, c ≠ .recording g since reads) : Inv (s.setCaller t c) seen where
  bounded := h.bounded
  returned := h.returned
  counted := h.counted
  caller := by
    intro t'
    by_cases ht : t' = t
    · rw [ht, setCaller_self]
      exact hok
    · rw [setCaller_ne ht]
      exact h.caller t'
  writer := by
    intro t'
    by_cases ht : t' = t
    · rw [ht, setCaller_self]
      exact hwriter
    · rw [setCaller_ne ht]
      exact h.writer t'
  installed := by
    intro t' g since reads
    by_cases ht : t' = t
    · rw [ht, setCaller_self]
      exact fun hc => absurd hc (hnot g since reads)
    · rw [setCaller_ne ht]
      exact h.installed t' g since reads
  cached := by
    intro hnone
    apply h.cached
    intro t' g since reads
    by_cases ht : t' = t
    · rw [ht]
      exact hwas g since reads
    · have hother := hnone t' g since reads
      rwa [setCaller_ne ht] at hother

variable {reads : Reads}

theorem Inv.unlock (h : Inv s seen) (ht : s.callers t = .inferring g since reads) :
    Inv ({ s with state := { s.state with writer := none } }.setCaller t .idle) seen := by
  have hidle : Inv (s.setCaller t .idle) seen :=
    h.setCaller trivial (fun hb => absurd rfl hb) (by simp [ht]) (by simp)
  have howner := h.writer t (by simp [ht, Caller.building])
  refine { hidle with writer := ?_ }
  intro t' ht'
  by_cases heq : t' = t
  · rw [heq, setCaller_self] at ht'
    exact absurd rfl ht'
  · rw [setCaller_ne heq] at ht'
    have hother := h.writer t' ht'
    rw [howner] at hother
    exact absurd (Option.some.inj hother).symm heq

theorem Inv.install (h : Inv s seen) (ht : s.callers t = .inferring g since reads) :
    Inv ({ s with state := { s.state with overlay := some reads } }.setCaller t (.recording g since reads)) seen := by
  have howner := h.writer t (by simp [ht, Caller.building])
  have hok := h.caller t
  rw [ht] at hok
  constructor
  · exact h.bounded
  · exact h.returned
  · exact h.counted
  · intro t'
    by_cases heq : t' = t
    · rw [heq, setCaller_self]
      exact hok
    · rw [setCaller_ne heq]
      exact h.caller t'
  · intro t' ht'
    by_cases heq : t' = t
    · rw [heq]
      exact howner
    · rw [setCaller_ne heq] at ht'
      exact h.writer t' ht'
  · intro t' g' since' reads' hrec
    by_cases heq : t' = t
    · rw [heq, setCaller_self] at hrec
      cases hrec
      rfl
    · -- only the holder of the write lock records
      rw [setCaller_ne heq] at hrec
      have hother := h.writer t' (by simp [show s.callers t' = _ from hrec, Caller.building])
      rw [howner] at hother
      exact absurd (Option.some.inj hother).symm heq
  · intro hnone
    exact absurd (setCaller_self t _) (hnone t g since reads)

/-- The builder installs what it has read and steps down. -/
theorem Inv.record (h : Inv s seen) (ht : s.callers t = .recording g since reads) :
    Inv ({ s with state := { s.state with builtAtCompactionCount := g, writer := none } }.setCaller t
      (.returned since reads)) seen := by
  have howner := h.writer t (by simp [ht, Caller.building])
  have hok := h.caller t
  rw [ht] at hok
  have hkept := h.installed t g since reads ht
  have hquiet : ∀ t', t' ≠ t → (s.callers t').building = none := by
    intro t' hne
    by_contra hb
    have hother := h.writer t' hb
    rw [howner] at hother
    exact hne (Option.some.inj hother).symm
  constructor
  · exact h.bounded
  · exact h.returned
  · exact h.counted
  · intro t'
    by_cases heq : t' = t
    · rw [heq, setCaller_self]
      intro read hread
      exact hok.2.1.trans (hok.2.2 read hread)
    · rw [setCaller_ne heq]
      exact h.caller t'
  · intro t' ht'
    by_cases heq : t' = t
    · rw [heq, setCaller_self] at ht'
      exact absurd rfl ht'
    · rw [setCaller_ne heq] at ht'
      exact absurd (hquiet t' heq) ht'
  · intro t' g' since' reads' hrec
    by_cases heq : t' = t
    · rw [heq, setCaller_self] at hrec
      cases hrec
    · rw [setCaller_ne heq] at hrec
      have hidle := hquiet t' heq
      rw [show s.callers t' = _ from hrec] at hidle
      cases hidle
  · intro _ overlay ho
    rw [show s.state.overlay = some overlay from ho] at hkept
    cases hkept
    exact ⟨hok.1, hok.2.2⟩

/-! ## Every run -/

/-- A step that meets the condition keeps the invariant; only commits and counts change
what the scans have to have seen. -/
theorem Inv.next {A : DictApi D} (h : Inv s seen) {m : Move T} (hok : LoadsUnkeyed A s m) {s' : Host D T}
    (hnext : s.next A m = some s') : ∃ seen', Inv s' seen' := by
  cases m with
  | start t =>
    have hnew : CallerOk seen s.compactionCount (.checking s.compactionCount s.returned) :=
      ⟨Nat.le_refl _, h.returned⟩
    rw [Host.next] at hnext
    cases ht : s.callers t <;> simp only [ht] at hnext <;> cases hnext
    all_goals exact ⟨seen, h.setCaller hnew (fun hb => absurd rfl hb) (by simp [ht]) (by simp)⟩
  | check t =>
    rw [Host.next] at hnext
    cases ht : s.callers t with
    | checking g since =>
      cases hw : s.state.writer with
      | none =>
        have hwait := h.caller t
        rw [ht] at hwait
        simp only [ht, hw] at hnext
        cases hup : s.state.upToDate g with
        | some overlay =>
          simp only [hup] at hnext
          cases hnext
          exact ⟨seen, h.setCaller (h.upToDate hw hwait.2 hup) (fun hb => absurd rfl hb) (by simp [ht]) (by simp)⟩
        | none =>
          simp only [hup] at hnext
          cases hnext
          exact ⟨seen, h.setCaller (c := .waiting g since) hwait (fun hb => absurd rfl hb)
            (by simp [ht]) (by simp)⟩
      | some t' => simp [ht, hw] at hnext
    | _ => simp [ht] at hnext
  | acquire t =>
    rw [Host.next] at hnext
    cases ht : s.callers t with
    | waiting g since =>
      cases hw : s.state.writer with
      | none =>
        have hwait := h.caller t
        rw [ht] at hwait
        simp only [ht, hw] at hnext
        cases hup : s.state.upToDate g with
        | some overlay =>
          simp only [hup] at hnext
          cases hnext
          exact ⟨seen, h.setCaller (h.upToDate hw hwait.2 hup) (fun hb => absurd rfl hb) (by simp [ht]) (by simp)⟩
        | none =>
          simp only [hup] at hnext
          cases hnext
          have hempty : CallerOk seen s.compactionCount (.inferring g since []) :=
            ⟨hwait.1, hwait.2, fun read hread => absurd hread (List.not_mem_nil)⟩
          exact ⟨seen, (h.lock hw).setCaller hempty (fun _ => rfl) (by simp [ht]) (by simp)⟩
      | some t' => simp [ht, hw] at hnext
    | _ => simp [ht] at hnext
  | scan t =>
    rw [Host.next] at hnext
    cases ht : s.callers t with
    | inferring g since reads =>
      have hok := h.caller t
      have howner := h.writer t (by simp [ht, Caller.building])
      rw [ht] at hok
      cases hin : s.inner <;> simp [ht, hin] at hnext
      subst hnext
      -- the scan sees all the changes there have been
      have hmore : CallerOk seen s.compactionCount (.inferring g since (s.changes :: reads)) := by
        refine ⟨hok.1, hok.2.1, ?_⟩
        intro read hread
        rcases List.mem_cons.mp hread with rfl | hread
        · exact h.bounded g hok.1
        · exact hok.2.2 read hread
      exact ⟨seen, h.setCaller hmore (fun _ => howner) (by simp [ht]) (by simp)⟩
    | _ => simp [ht] at hnext
  | install t =>
    rw [Host.next] at hnext
    cases ht : s.callers t with
    | inferring g since reads =>
      simp only [ht] at hnext
      cases hnext
      exact ⟨seen, h.install ht⟩
    | _ => simp [ht] at hnext
  | record t =>
    rw [Host.next] at hnext
    cases ht : s.callers t with
    | recording g since reads =>
      simp only [ht] at hnext
      cases hnext
      exact ⟨seen, h.record ht⟩
    | _ => simp [ht] at hnext
  | fail t =>
    rw [Host.next] at hnext
    cases ht : s.callers t with
    | inferring g since reads =>
      simp only [ht] at hnext
      cases hnext
      exact ⟨seen, h.unlock ht⟩
    | _ => simp [ht] at hnext
  | enter op =>
    rw [Host.next] at hnext
    cases hin : s.inner <;> simp [hin] at hnext
    subst hnext
    exact ⟨seen, h.enter hin op⟩
  | commit saved =>
    rw [Host.next] at hnext
    cases hc : committed A s.store saved s.inner with
    | none => simp [hc] at hnext
    | some c =>
      simp only [hc] at hnext
      cases hnext
      exact h.commit hok hc
  | count =>
    rw [Host.next] at hnext
    cases hin : s.inner <;> simp [hin] at hnext
    subst hnext
    have hreturned := h.returned.trans (h.bounded _ (Nat.le_refl _))
    exact ⟨_, h.count (hok hin) .closing hreturned (Nat.le_refl _) fun _ => rfl⟩
  | leave =>
    rw [Host.next] at hnext
    cases hin : s.inner <;> simp [hin] at hnext
    subst hnext
    exact ⟨seen, h.leave hin⟩
  | elsewhere =>
    rw [Host.next] at hnext
    cases hnext
    exact ⟨_, h.count hok s.inner h.returned (h.bounded _ (Nat.le_refl _)) h.counted⟩

theorem step_inv {A : DictApi D} (h : ∃ seen, Inv s seen) {m : Move T} (hok : LoadsUnkeyed A s m) :
    ∃ seen, Inv (step A s m).2 seen := by
  rcases h with ⟨seen, h⟩
  unfold step
  cases hnext : s.next A m with
  | none => exact ⟨seen, h⟩
  | some s' => exact h.next hok hnext

/-- In a run where every bulk load that changes the rings finds nothing under the count of
the store, no call returns an overlay older than what had returned before it. -/
theorem fresh_of_meets (A : DictApi D) (store : LoudsStore D) {moves : List (Move T)}
    (h : Machine.Meets (step A) (LoadsUnkeyed A) (init store) moves) :
    ∀ reached, reached <+: moves → Fresh (Machine.run (step A) (init store) reached).2 := by
  rintro reached ⟨rest, rfl⟩
  have hreached := Machine.run_inv (J := fun s => ∃ seen, Inv s seen) (fun s m hs hm => step_inv hs hm)
    ⟨_, inv_init store⟩ (Machine.meets_append.mp h).1
  rcases hreached with ⟨seen, hinv⟩
  exact hinv.fresh

end Steps

end Host

/-! ## Two runs -/

section Samples

open Dictionary DictCompact

/-- One call of `current` from its start to its return, with one scan. -/
def wholeCall (t : Nat) : List (Move Nat) := [.start t, .check t, .acquire t, .scan t, .install t, .record t]

/-- A caller begins while a quad is inserted and compacted, and the next one afterwards. -/
def compactedCalls : List (Move Nat) :=
  [.start 0, .check 0, .acquire 0, .scan 0, .enter (.call (.insert (sampleQuad "a"))), .leave,
    .enter (.call .compact), .commit true, .install 0, .count, .leave, .record 0] ++ wholeCall 1 ++
    [.start 0, .check 0]

/-- An overlay is built, a quad bulk loaded, and the overlay asked for again. -/
def loadedCalls : List (Move Nat) :=
  wholeCall 0 ++ [.enter (.bulkLoad [sampleQuad "a"]), .commit true, .leave, .start 0, .check 0]

theorem fresh_compacted : Host.Fresh (Machine.run (Host.step (T := Nat) (api sourceBlockSize))
    (Host.init (openNew sourceBlockSize none)) compactedCalls).2 := by
  have hmeets : Machine.Meets (Host.step (api sourceBlockSize)) (Host.LoadsUnkeyed (api sourceBlockSize))
      (Host.init (openNew sourceBlockSize none)) compactedCalls := by
    decide +kernel
  exact Host.fresh_of_meets (api sourceBlockSize) (openNew sourceBlockSize none) hmeets compactedCalls
    (List.prefix_refl compactedCalls)

/-- The second call begins after the bulk load has returned, and gets what was inferred
from the empty store. -/
theorem bulkLoad_leaves_overlay : ¬∀ moves : List (Move Nat), Host.Fresh
    (Machine.run (Host.step (T := Nat) (api sourceBlockSize))
    (Host.init (openNew sourceBlockSize none)) moves).2 := by
  intro hclaim
  have hfresh := hclaim loadedCalls 0 1 [0]
  have hcaller : (Machine.run (Host.step (T := Nat) (api sourceBlockSize))
      (Host.init (openNew sourceBlockSize none)) loadedCalls).2.callers 0 = .returned 1 [0] := by
    decide +kernel
  have hle := hfresh hcaller 0 (List.mem_singleton_self 0)
  omega

end Samples

end Nova.Reasoning
