import Nova.Ring.Prepared
import Nova.Ring.Store

/-!
# The caches of prepared operators

Prepared operators are kept between queries, under the version of the snapshot, the graph
and the shape; so are the tables of ranges under a predicate. A query takes an operator
out of the cache, or prepares one, behind a guard; dropping the guard puts it back, however
the execution ended. `PlanRun.step` interleaves any number of guards over one snapshot.

`interrupted_execution_leaves_no_trace` says when each execution gives what a freshly
prepared operator gives: no expansion has been stopped by its callback before.
`stopped_expansion_loses_rows` is the shortest run where one has been.

The counters and timings are left out.
-/

namespace Nova

open Nova.Lib List

variable {img : BraidedGraphImage}

variable {shape : PhysicalOpKind}

namespace Ring

/-! ## The two caches -/

structure PhysicalOpPlanKey where
  snapshotVersion : Nat
  graphId : GraphId
  kind : PhysicalOpKind
  adjMode : PredAdjacencyMode
  deriving Repr, DecidableEq

def preparedPlanCacheCap : Nat := 32

/-- `PhysicalOpPreparedPlanCache`; the order is that of use, the latest last. -/
structure PlanCache where
  cap : Nat
  map : AList fun _ : PhysicalOpPlanKey => PreparedPhysicalOp
  order : List PhysicalOpPlanKey

namespace PlanCache

def new (cap : Nat) : PlanCache := ⟨max cap 1, ∅, []⟩

variable (c : PlanCache)

def clear : PlanCache := { c with map := ∅, order := [] }

/-- The key becomes the one used last. -/
def touch (key : PhysicalOpPlanKey) : PlanCache :=
  { c with order := if key ∈ c.order then c.order.erase key ++ [key] else c.order }

/-- The loop of `evict_if_needed`. -/
def evict (cap : Nat) : (AList fun _ : PhysicalOpPlanKey => PreparedPhysicalOp) → List PhysicalOpPlanKey →
    (AList fun _ : PhysicalOpPlanKey => PreparedPhysicalOp) × List PhysicalOpPlanKey
  | map, [] => (map, [])
  | map, old :: order => if cap < map.entries.length then evict cap (map.erase old) order else (map, old :: order)

/-- Takes a plan out for an execution. -/
def take (key : PhysicalOpPlanKey) : Option PreparedPhysicalOp × PlanCache :=
  match c.map.lookup key with
  | none => (none, c)
  | some plan => (some plan, { c with map := c.map.erase key, order := c.order.erase key })

def putBack (key : PhysicalOpPlanKey) (plan : PreparedPhysicalOp) : PlanCache :=
  match c.map.lookup key with
  | some _ => touch { c with map := c.map.insert key plan } key
  | none =>
    let (map, order) := evict c.cap (c.map.insert key plan) (c.order ++ [key])
    { c with map := map, order := order }

end PlanCache

/-- Version, graph and predicate. -/
abbrev SpAdjKey := Nat × GraphId × Nat

/-- The tables of ranges, the oldest first. -/
structure SpAdjCache where
  cap : Nat
  map : AList fun _ : SpAdjKey => PredicateAdjacency
  order : List SpAdjKey

namespace SpAdjCache

def new (cap : Nat) : SpAdjCache := ⟨max cap 1, ∅, []⟩

variable (c : SpAdjCache)

def clear : SpAdjCache := { c with map := ∅, order := [] }

/-- Drops the oldest table if the cache is full. -/
def makeRoom : SpAdjCache :=
  match c.order with
  | old :: order => if c.cap ≤ c.map.entries.length then { c with map := c.map.erase old, order := order } else c
  | [] => c

/-- `build` gives a table, or none; a read outside an array is `none`. -/
def getOrInsert (key : SpAdjKey) (build : Option (Option PredicateAdjacency)) :
    Option (Option PredicateAdjacency) × SpAdjCache :=
  match c.map.lookup key with
  | some adj => (some (some adj), c)
  | none =>
    match build with
    | none => (none, c)
    | some none => (some none, c)
    | some (some adj) =>
      (some (some adj), { c.makeRoom with
        map := c.makeRoom.map.insert key adj, order := c.makeRoom.order ++ [key] })

end SpAdjCache

/-! ## Preparing a shape -/

/-- `CachedPhysicalOpGuard`; without the cache the plan is used bare. -/
structure CachedPhysicalOpGuard where
  key : PhysicalOpPlanKey
  plan : PreparedPhysicalOp
  returnToCache : Bool

/-- The part of the store that queries prepare from. -/
structure PlanStore where
  graphsSnap : Option (GraphMap BraidedGraphImage)
  snapshotVersion : Nat
  physicalOpCache : PlanCache
  spAdjCache : SpAdjCache

/-- A store without plans. -/
def PlanStore.new (graphsSnap : Option (GraphMap BraidedGraphImage)) (version : Nat) : PlanStore :=
  ⟨graphsSnap, version, .new preparedPlanCacheCap, .new 16⟩

section Prepare

variable (cfg : PathConfig)

def cacheLookupOrPrepare (cache : PlanCache) (key : PhysicalOpPlanKey)
    (prepare : Option (Option PreparedPhysicalOp)) :
    Option (Option CachedPhysicalOpGuard) × PlanCache :=
  let (hit, cache) := if cfg.planCache then cache.take key else (none, cache)
  match hit with
  | some plan => (some (some ⟨key, plan, true⟩), cache)
  | none => (prepare.map (·.map fun plan => ⟨key, plan, cfg.planCache⟩), cache)

/-- The table of an expansion, from the cache of tables or built for it. -/
def expandAdj (img : BraidedGraphImage) (pExpand : Nat) (cached : Option PredicateAdjacency) :
    Option (Option PredicateAdjacency) :=
  match cached with
  | some adj => some (some adj)
  | none => img.buildSharedAdj pExpand cfg.adjMode

/-- The table that a shape takes from the cache of tables: only an expansion does. -/
def warmTable (st : PlanStore) (ver : Nat) (g : GraphId) (img : BraidedGraphImage) (shape : PhysicalOpKind) :
    Option (Option PredicateAdjacency) × PlanStore :=
  match shape with
  | .spExpansion _ _ pExpand =>
    let (cached, adjCache) := st.spAdjCache.getOrInsert (ver, g, pExpand) (img.buildSharedAdj pExpand cfg.adjMode)
    (cached, { st with spAdjCache := adjCache })
  | _ => (some none, st)

/-- The table that a shape is prepared with. -/
def tableFor (img : BraidedGraphImage) (shape : PhysicalOpKind) (cached : Option PredicateAdjacency) :
    Option (Option PredicateAdjacency) :=
  match shape with
  | .spExpansion _ _ pExpand => expandAdj cfg img pExpand cached
  | _ => some none

/-- The `get_or_prepare` functions. -/
def getOrPrepare (st : PlanStore) (ver : Nat) (g : GraphId) (img : BraidedGraphImage) (shape : PhysicalOpKind)
    (cached : Option PredicateAdjacency) : Option (Option CachedPhysicalOpGuard) × PlanStore :=
  match tableFor cfg img shape cached with
  | none => (none, st)
  | some adj =>
    let (guard, cache) := cacheLookupOrPrepare cfg st.physicalOpCache ⟨ver, g, shape, cfg.adjMode⟩
      (PreparedPhysicalOp.prepare cfg img adj shape)
    (guard, { st with physicalOpCache := cache })

/-- `lftj_prepare_shape`, with nothing in between its steps. -/
def lftjPrepareShape (st : PlanStore) (shape : PhysicalOpKind) (g : GraphId) :
    Option (Option CachedPhysicalOpGuard) × PlanStore :=
  match st.graphsSnap.bind (·[g]?) with
  | none => (some none, st)
  | some img =>
    match warmTable cfg st st.snapshotVersion g img shape with
    | (none, st) => (none, st)
    | (some cached, st) => getOrPrepare cfg st st.snapshotVersion g img shape cached

end Prepare

/-- The operator of a shape, prepared from the image alone. -/
def freshOp (cfg : PathConfig) (img : BraidedGraphImage) (shape : PhysicalOpKind) :
    Option (Option PreparedPhysicalOp) := do
  let adj ← tableFor cfg img shape none
  PreparedPhysicalOp.prepare cfg img adj shape

/-! ## What holds of every entry -/

theorem lookup_insert {κ β : Type} [DecidableEq κ] (m : AList fun _ : κ => β) (k k' : κ) (v : β) :
    (m.insert k v).lookup k' = if k' = k then some v else m.lookup k' := by
  by_cases h : k' = k
  · rw [if_pos h, h, AList.lookup_insert]
  · rw [if_neg h, AList.lookup_insert_ne h]

theorem lookup_of_erase {κ β : Type} [DecidableEq κ] {m : AList fun _ : κ => β} {k k' : κ} {v : β}
    (h : (m.erase k).lookup k' = some v) : m.lookup k' = some v := by
  by_cases hk : k' = k
  · rw [hk, AList.lookup_erase] at h
    exact absurd h (by simp)
  · rwa [AList.lookup_erase_ne hk] at h

/-- Every entry of a table meets `P`. -/
def Entries {κ β : Type} [DecidableEq κ] (P : κ → β → Prop) (m : AList fun _ : κ => β) : Prop :=
  ∀ k v, m.lookup k = some v → P k v

section Entries

variable {κ β : Type} [DecidableEq κ] {P : κ → β → Prop} {m : AList fun _ : κ => β}

theorem entries_empty : Entries P (∅ : AList fun _ : κ => β) := by
  intro k v h
  exact absurd h (by simp)

theorem Entries.imp {Q : κ → β → Prop} (h : Entries P m) (hPQ : ∀ k v, P k v → Q k v) : Entries Q m :=
  fun k v hv => hPQ k v (h k v hv)

theorem Entries.erase (h : Entries P m) (k : κ) : Entries P (m.erase k) :=
  fun k' v hv => h k' v (lookup_of_erase hv)

theorem Entries.insert (h : Entries P m) {k : κ} {v : β} (hv : P k v) : Entries P (m.insert k v) := by
  intro k' v' hv'
  rw [lookup_insert] at hv'
  by_cases hk : k' = k
  · rw [if_pos hk] at hv'
    obtain rfl : v = v' := Option.some.inj hv'
    rwa [hk]
  · rw [if_neg hk] at hv'
    exact h k' v' hv'

end Entries

variable {plan : PreparedPhysicalOp}

section PlanCache

variable {P : PhysicalOpPlanKey → PreparedPhysicalOp → Prop} {c : PlanCache} {key : PhysicalOpPlanKey}

theorem entries_evict (cap : Nat) (order : List PhysicalOpPlanKey) :
    ∀ {map : AList fun _ : PhysicalOpPlanKey => PreparedPhysicalOp}, Entries P map →
      Entries P (PlanCache.evict cap map order).1 := by
  induction order with
  | nil => exact fun h => h
  | cons old order ih =>
    intro map h
    rw [PlanCache.evict]
    by_cases hcap : cap < map.entries.length
    · rw [if_pos hcap]
      exact ih (h.erase old)
    · rw [if_neg hcap]
      exact h

theorem PlanCache.entries_take (key : PhysicalOpPlanKey) (h : Entries P c.map) : Entries P (c.take key).2.map := by
  rw [PlanCache.take]
  rcases c.map.lookup key with _ | plan
  · exact h
  · exact h.erase key

theorem PlanCache.of_take (key : PhysicalOpPlanKey) (h : Entries P c.map)
    (plan : PreparedPhysicalOp) (hhit : (c.take key).1 = some plan) :
    P key plan := by
  apply h
  rw [PlanCache.take] at hhit
  rcases hlook : c.map.lookup key with _ | found <;> rw [hlook] at hhit
  · exact absurd hhit (by simp)
  · exact hhit

theorem PlanCache.entries_putBack (h : Entries P c.map) (hplan : P key plan) :
    Entries P (c.putBack key plan).map := by
  rw [PlanCache.putBack]
  rcases c.map.lookup key with _ | found
  · exact entries_evict c.cap _ (h.insert hplan)
  · exact h.insert hplan

end PlanCache

section SpAdjCache

variable {P : SpAdjKey → PredicateAdjacency → Prop} {c : SpAdjCache} {key : SpAdjKey}

theorem SpAdjCache.entries_makeRoom (h : Entries P c.map) : Entries P c.makeRoom.map := by
  rw [SpAdjCache.makeRoom]
  rcases c.order with _ | ⟨old, order⟩
  · exact h
  dsimp only
  by_cases hcap : c.cap ≤ c.map.entries.length
  · rw [if_pos hcap]
    exact h.erase old
  · rw [if_neg hcap]
    exact h

/-- What is built for the key meets `P`, so what is found and what is kept do. -/
theorem SpAdjCache.getOrInsert_spec (key : SpAdjKey) (build : Option (Option PredicateAdjacency))
    (h : Entries P c.map) (hbuild : ∀ adj, build = some (some adj) → P key adj) :
    Entries P (c.getOrInsert key build).2.map ∧
      ((c.getOrInsert key build).1 = build ∨ ∃ adj, (c.getOrInsert key build).1 = some (some adj) ∧
        P key adj) := by
  unfold SpAdjCache.getOrInsert
  rcases hlook : c.map.lookup key with _ | adj
  · rcases build with _ | _ | adj
    · exact ⟨h, .inl rfl⟩
    · exact ⟨h, .inl rfl⟩
    · exact ⟨(SpAdjCache.entries_makeRoom h).insert (hbuild adj rfl), .inl rfl⟩
  · exact ⟨h, .inr ⟨adj, rfl, h key adj hlook⟩⟩

end SpAdjCache

/-! ## Plans and the image they are made from -/

section Sources

variable {cfg : PathConfig} {Img : Nat → GraphId → BraidedGraphImage → Prop}

/-- The table was built from an image of the version and graph of its key. -/
def TableFrom (cfg : PathConfig) (Img : Nat → GraphId → BraidedGraphImage → Prop) (key : SpAdjKey)
    (adj : PredicateAdjacency) : Prop :=
  ∃ img, Img key.1 key.2.1 img ∧ img.buildSharedAdj key.2.2 cfg.adjMode = some (some adj)

/-- The plan is a later state of the one that such an image gives. -/
def PlanFrom (cfg : PathConfig) (Img : Nat → GraphId → BraidedGraphImage → Prop)
    (Later : PreparedPhysicalOp → PreparedPhysicalOp → Prop) (key : PhysicalOpPlanKey)
      (plan : PreparedPhysicalOp) :
    Prop :=
  ∃ img base, Img key.snapshotVersion key.graphId img ∧
    freshOp cfg img key.kind = some (some base) ∧ base.Of base ∧
    Later base plan

theorem TableFrom.imp {Img' : Nat → GraphId → BraidedGraphImage → Prop}
    (hsub : ∀ ver g img, Img ver g img → Img' ver g img) {key : SpAdjKey} {adj : PredicateAdjacency}
    (h : TableFrom cfg Img key adj) : TableFrom cfg Img' key adj := by
  obtain ⟨img, himg, hbuild⟩ := h
  exact ⟨img, hsub _ _ _ himg, hbuild⟩

variable {Later : PreparedPhysicalOp → PreparedPhysicalOp → Prop}

theorem PlanFrom.imp {Img' : Nat → GraphId → BraidedGraphImage → Prop}
    (hsub : ∀ ver g img, Img ver g img → Img' ver g img)
    {key : PhysicalOpPlanKey} (h : PlanFrom cfg Img Later key plan) : PlanFrom cfg Img' Later key plan := by
  obtain ⟨img, base, himg, hrest⟩ := h
  exact ⟨img, base, hsub _ _ _ himg, hrest⟩

variable {g : GraphId} {ver : Nat}

theorem planFrom_prepare
    (hlater : ∀ {base : PreparedPhysicalOp}, base.Of base → Later base base) (himg : Img ver g img)
    (hplan : freshOp cfg img shape = some (some plan)) : PlanFrom cfg Img Later
      ⟨ver, g, shape, cfg.adjMode⟩ plan := by
  obtain ⟨adj, -, hprep⟩ := Option.bind_eq_some_iff.mp hplan
  have hof := PreparedPhysicalOp.of_prepare hprep
  exact ⟨img, plan, himg, hplan, hof, hlater hof⟩

/-- No graph has two images of one version. -/
def OneEach (Img : Nat → GraphId → BraidedGraphImage → Prop) : Prop :=
  ∀ ver g img img', Img ver g img → Img ver g img' → img = img'

variable (huniq : OneEach Img)
include huniq

theorem TableFrom.eq_build {key : SpAdjKey} {adj : PredicateAdjacency} (h : TableFrom cfg Img key adj)
    (himg : Img key.1 key.2.1 img) : img.buildSharedAdj key.2.2 cfg.adjMode = some (some adj) := by
  obtain ⟨img', himg', hbuild⟩ := h
  rwa [huniq _ _ _ _ himg himg']

/-- The cache hands out what is built from the image, and keeps nothing else. -/
theorem getOrInsert_from {c : SpAdjCache} (h : Entries (TableFrom cfg Img) c.map)
    (himg : Img ver g img) (predicate : Nat) :
    Entries (TableFrom cfg Img) (c.getOrInsert (ver, g, predicate)
      (img.buildSharedAdj predicate cfg.adjMode)).2.map ∧
      (c.getOrInsert (ver, g, predicate) (img.buildSharedAdj predicate cfg.adjMode)).1 =
        img.buildSharedAdj predicate cfg.adjMode := by
  obtain ⟨htables, hfound⟩ :=
    SpAdjCache.getOrInsert_spec (ver, g, predicate) (img.buildSharedAdj predicate cfg.adjMode)
    h fun adj hadj => ⟨img, himg, hadj⟩
  refine ⟨htables, ?_⟩
  rcases hfound with hbuild | ⟨adj, hadj, hfrom⟩
  · exact hbuild
  · rw [hadj, hfrom.eq_build huniq himg]

/-- The table from the cache is the one that a fresh operator gets. -/
theorem warmTable_from {st : PlanStore} (h : Entries (TableFrom cfg Img) st.spAdjCache.map)
    (himg : Img ver g img) (shape : PhysicalOpKind) :
    Entries (TableFrom cfg Img) (warmTable cfg st ver g img shape).2.spAdjCache.map ∧
      ∀ cached, (warmTable cfg st ver g img shape).1 = some cached →
        tableFor cfg img shape cached = tableFor cfg img shape none := by
  rcases shape with ⟨p1, p2⟩ | pred | ⟨pf, o, pe⟩ | ⟨p1, p2, p3⟩ | ⟨p1, p2, p3⟩ | ⟨p1, p2, p3⟩ <;>
    try exact ⟨h, fun _ _ => rfl⟩
  -- only an expansion asks the cache
  obtain ⟨htables, hfound⟩ := getOrInsert_from huniq h himg pe
  refine ⟨htables, ?_⟩
  intro cached hcached
  have hbuild : img.buildSharedAdj pe cfg.adjMode = some cached := hfound.symm.trans hcached
  rcases cached with _ | adj
  · rfl
  · exact hbuild.symm

omit huniq

/-- A guard has a plan of the image, from the cache or prepared for it. -/
theorem getOrPrepare_from
    (hlater : ∀ {base : PreparedPhysicalOp}, base.Of base → Later base base) {st : PlanStore}
    (h : Entries (PlanFrom cfg Img Later) st.physicalOpCache.map)
    (himg : Img ver g img) {cached : Option PredicateAdjacency}
    (hcached : tableFor cfg img shape cached = tableFor cfg img shape none) :
    Entries (PlanFrom cfg Img Later) (getOrPrepare cfg st ver g img shape cached).2.physicalOpCache.map ∧
      ∀ guard, (getOrPrepare cfg st ver g img shape cached).1 = some (some guard) →
        PlanFrom cfg Img Later guard.key guard.plan := by
  unfold getOrPrepare
  rcases htable : tableFor cfg img shape cached with _ | adj
  · exact ⟨h, fun guard hguard => absurd hguard (by simp)⟩
  have hfresh : freshOp cfg img shape = PreparedPhysicalOp.prepare cfg img adj shape := by
    rw [freshOp, ← hcached, htable]
    rfl
  have hprepared : ∀ {key : PhysicalOpPlanKey} {keep : Bool} (guard : CachedPhysicalOpGuard),
      key = ⟨ver, g, shape, cfg.adjMode⟩ →
      (PreparedPhysicalOp.prepare cfg img adj shape).map (·.map fun plan =>
        (⟨key, plan, keep⟩ : CachedPhysicalOpGuard)) = some (some guard) →
          PlanFrom cfg Img Later guard.key guard.plan := by
    rintro key keep guard rfl hguard
    rw [← hfresh] at hguard
    rcases hop : freshOp cfg img shape with _ | _ | op <;> rw [hop] at hguard
    · exact absurd hguard (by simp)
    · exact absurd hguard (by simp)
    · obtain rfl : _ = guard := Option.some.inj (Option.some.inj hguard)
      exact planFrom_prepare hlater himg hop
  unfold cacheLookupOrPrepare
  by_cases hcache : cfg.planCache = true
  · simp only [if_pos hcache]
    have hplans := PlanCache.entries_take ⟨ver, g, shape, cfg.adjMode⟩ h
    have hhit := PlanCache.of_take ⟨ver, g, shape, cfg.adjMode⟩ h
    generalize st.physicalOpCache.take ⟨ver, g, shape, cfg.adjMode⟩ = taken at hplans hhit ⊢
    obtain ⟨hit, cache⟩ := taken
    rcases hit with _ | plan
    · exact ⟨hplans, fun guard hguard => hprepared guard rfl hguard⟩
    · refine ⟨hplans, ?_⟩
      intro guard hguard
      obtain rfl : _ = guard := Option.some.inj (Option.some.inj hguard)
      exact hhit plan rfl
  · simp only [if_neg hcache]
    exact ⟨h, fun guard hguard => hprepared guard rfl hguard⟩

theorem warmTable_rest (cfg : PathConfig) (st : PlanStore) (ver : Nat) (g : GraphId) (img : BraidedGraphImage)
    (shape : PhysicalOpKind) :
    (warmTable cfg st ver g img shape).2 =
      { st with spAdjCache := (warmTable cfg st ver g img shape).2.spAdjCache } := by
  rcases shape with ⟨p1, p2⟩ | pred | ⟨pf, o, pe⟩ | ⟨p1, p2, p3⟩ | ⟨p1, p2, p3⟩ | ⟨p1, p2, p3⟩ <;> rfl

theorem getOrPrepare_rest (cfg : PathConfig) (st : PlanStore) (ver : Nat) (g : GraphId) (img : BraidedGraphImage)
    (shape : PhysicalOpKind) (cached : Option PredicateAdjacency) :
    (getOrPrepare cfg st ver g img shape cached).2 =
      { st with physicalOpCache := (getOrPrepare cfg st ver g img shape cached).2.physicalOpCache } := by
  unfold getOrPrepare
  rcases tableFor cfg img shape cached with _ | adj <;> rfl

end Sources

end Ring

open Nova.Ring

/-! ## Runs -/

/-- The store and the guards that are held. -/
structure PlanRun where
  store : PlanStore
  guards : List CachedPhysicalOpGuard

namespace PlanRun

inductive Event where
  | prepare (shape : PhysicalOpKind) (g : GraphId)
  /-- Execute the operator of the i-th guard. -/
  | execute (i : Nat) (emit : Emit)
  | drop (i : Nat)

inductive Reply where
  | prepared (found : Bool)
  /-- How the execution ended, and its rows. -/
  | executed (exit : Option Exit) (rows : Emitted)
  | done
  deriving Repr, DecidableEq

variable (cfg : PathConfig) (rounds : Nat)

def step : Machine PlanRun Event Exit Reply
  | st, .prepare shape g =>
    match lftjPrepareShape cfg st.store shape g with
    | (none, store) => (.error .outOfBounds, { st with store := store })
    | (some none, store) => (.ok (.prepared false), { st with store := store })
    | (some (some guard), store) => (.ok (.prepared true), ⟨store, st.guards ++ [guard]⟩)
  | st, .execute i emit =>
    match st.guards[i]? with
    | none => (.ok .done, st)
    | some guard =>
      let (exit, plan, rows) := guard.plan.execute cfg rounds emit
      (.ok (.executed exit rows), { st with guards := st.guards.set i { guard with plan := plan } })
  | st, .drop i =>
    match st.guards[i]? with
    | none => (.ok .done, st)
    | some guard =>
      let store :=
        if guard.returnToCache then
          { st.store with physicalOpCache := st.store.physicalOpCache.putBack guard.key guard.plan }
        else st.store
      (.ok .done, ⟨store, st.guards.eraseIdx i⟩)

/-- No plans and no guards, on a snapshot. -/
def start (graphsSnap : Option (GraphMap BraidedGraphImage)) (version : Nat) : PlanRun :=
    ⟨.new graphsSnap version, []⟩

/-- The step does not stop an expansion. -/
def Unstopped (st : PlanRun) : Event → Prop
  | .execute i emit => ∀ guard ∈ st.guards[i]?, guard.plan.isExpansion = true →
      (guard.plan.execute cfg rounds emit).1 = none
  | _ => True

instance (st : PlanRun) : (e : Event) → Decidable (Unstopped cfg rounds st e)
  | .prepare _ _ => isTrue trivial
  | .execute _ _ => inferInstanceAs (Decidable (∀ _ ∈ _, _))
  | .drop _ => isTrue trivial

variable {cfg rounds} {snap : Option (GraphMap BraidedGraphImage)} {ver : Nat}

/-- The image that a key means, whatever its version. -/
def ImageIn (snap : Option (GraphMap BraidedGraphImage)) (_ : Nat) (g : GraphId)
    (img : BraidedGraphImage) : Prop :=
  snap.bind (·[g]?) = some img

theorem imageIn_unique : OneEach (ImageIn snap) :=
  fun _ _ _ _ h h' => Option.some.inj (Eq.trans h.symm h')

/-- The plan is the freshly prepared one of its key, in some state. -/
abbrev Fresh (cfg : PathConfig) (snap : Option (GraphMap BraidedGraphImage)) :
    PhysicalOpPlanKey → PreparedPhysicalOp → Prop :=
  PlanFrom cfg (ImageIn snap) PreparedPhysicalOp.Of

/-- The table is the one built for its key. -/
abbrev TableOf (cfg : PathConfig) (snap : Option (GraphMap BraidedGraphImage)) :
    SpAdjKey → PredicateAdjacency → Prop :=
  TableFrom cfg (ImageIn snap)

/-- The snapshot has not changed, and no plan has a trace of its executions. -/
structure Clean (cfg : PathConfig) (snap : Option (GraphMap BraidedGraphImage)) (st : PlanRun) : Prop where
  unchanged : st.store.graphsSnap = snap
  tables : Entries (TableOf cfg snap) st.store.spAdjCache.map
  plans : Entries (Fresh cfg snap) st.store.physicalOpCache.map
  guards : ∀ guard ∈ st.guards, Fresh cfg snap guard.key guard.plan

theorem clean_start (cfg : PathConfig) (snap : Option (GraphMap BraidedGraphImage)) (ver : Nat) :
    Clean cfg snap (start snap ver) where
  unchanged := rfl
  tables := entries_empty
  plans := entries_empty
  guards := by
    intro guard hguard
    exact absurd hguard not_mem_nil

theorem lftjPrepareShape_clean {st : PlanRun} (h : Clean cfg snap st) (shape : PhysicalOpKind) (g : GraphId) :
    Clean cfg snap { st with store := (lftjPrepareShape cfg st.store shape g).2 } ∧
      ∀ guard, (lftjPrepareShape cfg st.store shape g).1 = some (some guard) →
        Fresh cfg snap guard.key guard.plan := by
  unfold lftjPrepareShape
  rw [h.unchanged]
  rcases himg : snap.bind (·[g]?) with _ | img
  · exact ⟨h, fun guard hguard => absurd hguard (by simp)⟩
  have hin : ImageIn snap st.store.snapshotVersion g img := himg
  -- the table first
  obtain ⟨htables, hcached⟩ := warmTable_from imageIn_unique h.tables hin shape
  have hrest := warmTable_rest cfg st.store st.store.snapshotVersion g img shape
  dsimp only
  generalize warmTable cfg st.store st.store.snapshotVersion g img shape = warmed at htables hcached hrest ⊢
  obtain ⟨cached, store⟩ := warmed
  have hplans : Entries (Fresh cfg snap) store.physicalOpCache.map := by
    rw [show store = _ from hrest]
    exact h.plans
  have hsnap : store.graphsSnap = snap := by
    rw [show store = _ from hrest]
    exact h.unchanged
  rcases cached with _ | cached
  · exact ⟨⟨hsnap, htables, hplans, h.guards⟩, fun guard hguard => absurd hguard (by simp)⟩
  -- then the plan
  obtain ⟨hplans', hguard⟩ := getOrPrepare_from (fun hof => hof) hplans
    (show ImageIn snap store.snapshotVersion g img from himg) (hcached cached rfl)
  refine ⟨?_, hguard⟩
  rw [getOrPrepare_rest]
  exact ⟨hsnap, htables, hplans', h.guards⟩

/-- A step leaves in the cache what a plan from scratch would be. -/
theorem step_clean (st : PlanRun) (e : Event) (h : Clean cfg snap st) (hok : Unstopped cfg rounds st e) :
    Clean cfg snap (step cfg rounds st e).2 := by
  rcases e with ⟨shape, g⟩ | ⟨i, emit⟩ | i
  · obtain ⟨hclean, hguard⟩ := lftjPrepareShape_clean h shape g
    rw [step]
    generalize lftjPrepareShape cfg st.store shape g = prepared at hclean hguard ⊢
    obtain ⟨found, store⟩ := prepared
    rcases found with _ | _ | guard
    · exact hclean
    · exact hclean
    · refine ⟨hclean.unchanged, hclean.tables, hclean.plans, ?_⟩
      intro guard' hmem
      rcases mem_append.mp hmem with hold | hnew
      · exact h.guards guard' hold
      · obtain rfl : guard' = guard := mem_singleton.mp hnew
        exact hguard guard' rfl
  · rw [step]
    rcases hguard : st.guards[i]? with _ | guard
    · exact h
    -- the guard holds the plan as the execution left it
    obtain ⟨img, base, himg, hfresh, hbase, hof⟩ := h.guards guard (mem_of_getElem? hguard)
    refine ⟨h.unchanged, h.tables, h.plans, ?_⟩
    intro guard' hmem
    rcases mem_or_eq_of_mem_set hmem with hold | rfl
    · exact h.guards guard' hold
    · exact ⟨img, base, himg, hfresh, hbase, (PreparedPhysicalOp.execute_fresh hbase hof).2.2 (hok guard hguard)⟩
  · rw [step]
    rcases hguard : st.guards[i]? with _ | guard
    · exact h
    have hdropped : ∀ guard' ∈ st.guards.eraseIdx i, Fresh cfg snap guard'.key guard'.plan :=
      fun guard' hmem => h.guards guard' (mem_of_mem_eraseIdx hmem)
    by_cases hreturn : guard.returnToCache = true
    · simp only [if_pos hreturn]
      exact ⟨h.unchanged, h.tables, PlanCache.entries_putBack h.plans
        (h.guards guard (mem_of_getElem? hguard)), hdropped⟩
    · simp only [if_neg hreturn]
      exact ⟨h.unchanged, h.tables, h.plans, hdropped⟩

/-- In every run that stops no expansion, an operator that is held, executed with any
callback, ends as the freshly prepared one does and hands out the same rows. -/
theorem interrupted_execution_leaves_no_trace (cfg : PathConfig) (rounds : Nat)
    (snap : Option (GraphMap BraidedGraphImage)) (ver : Nat) {events : List Event}
    (h : Machine.Meets (step cfg rounds) (Unstopped cfg rounds) (start snap ver) events) {reached : List Event}
    (hpre : reached <+: events) :
    ∀ guard ∈ (Machine.run (step cfg rounds) (start snap ver) reached).2.guards, ∃ img base,
      snap.bind (·[guard.key.graphId]?) = some img ∧ freshOp cfg img guard.key.kind = some (some base) ∧
        ∀ emit, (guard.plan.execute cfg rounds emit).1 = (base.execute cfg rounds emit).1 ∧
          (guard.plan.execute cfg rounds emit).2.2 = (base.execute cfg rounds emit).2.2 := by
  obtain ⟨rest, rfl⟩ := hpre
  have hclean := Machine.run_inv step_clean (clean_start cfg snap ver)
    (Machine.meets_append.mp h).1
  intro guard hguard
  obtain ⟨img, base, himg, hfresh, hbase, hof⟩ := hclean.guards guard hguard
  refine ⟨img, base, himg, hfresh, ?_⟩
  intro emit
  obtain ⟨hexit, hrows, -⟩ := PreparedPhysicalOp.execute_fresh hbase hof
  exact ⟨hexit, hrows⟩

/-! ## A small graph -/

/-- The settings of the source. -/
def productConfig : PathConfig := ⟨.native, 4, 0, true⟩

/-- Two edges in a row, in a mapped image. -/
def pathImage : BraidedGraphImage :=
  (BraidedGraphImage.fromExternalTriples [(1, 2, 3), (3, 2, 4)]).materializeMapped false

def pathSnapshot : Option (GraphMap BraidedGraphImage) := some
    ((∅ : GraphMap BraidedGraphImage).insert graphDefault pathImage)

/-- A callback that errs at once, and one that takes every row. -/
def refuse : Emit := fun _ _ => false

def accept : Emit := fun _ _ => true

/-- An execution of the shape is stopped, and its operator goes through the cache. -/
def stoppedOnce (shape : PhysicalOpKind) : List Event :=
  [.prepare shape graphDefault, .execute 0 refuse, .drop 0, .prepare shape graphDefault]

/-- The rows of a freshly prepared operator of the shape. -/
def freshRows (shape : PhysicalOpKind) : Option Emitted := do
  let img ← pathSnapshot.bind (·[graphDefault]?)
  let base ← (← freshOp productConfig img shape)
  some (base.execute productConfig 8 accept).2.2

theorem freshRows_eq {base : PreparedPhysicalOp} (himg : pathSnapshot.bind (·[graphDefault]?) = some img)
    (hfresh : freshOp productConfig img shape = some (some base)) :
    freshRows shape = some (base.execute productConfig 8 accept).2.2 := by
  rw [freshRows, himg]
  simp only [Option.bind_eq_bind, Option.bind_some, hfresh]

/-- A stopped two-hop has its row again. -/
theorem interrupted_execution_leaves_no_trace_two_hop :
    ∃ guard ∈ (Machine.run (step productConfig 8) (start pathSnapshot 1) (stoppedOnce (.twoHop 2 2))).2.guards,
      (guard.plan.execute productConfig 8 accept).2.2 = [[1, 3, 4]] := by
  have hmeets : Machine.Meets (step productConfig 8) (Unstopped productConfig 8) (start pathSnapshot 1)
      (stoppedOnce (.twoHop 2 2)) := by
    decide +kernel
  have hheld : ∃ guard ∈ (Machine.run (step productConfig 8) (start pathSnapshot 1)
    (stoppedOnce (.twoHop 2 2))).2.guards,
      guard.key = ⟨1, graphDefault, .twoHop 2 2, .native⟩ := by
    decide +kernel
  have hrows : freshRows (.twoHop 2 2) = some [[1, 3, 4]] := by decide +kernel
  obtain ⟨guard, hguard, hkey⟩ := hheld
  obtain ⟨img, base, himg, hfresh, hsame⟩ := interrupted_execution_leaves_no_trace productConfig 8 pathSnapshot 1
    hmeets (prefix_refl _) guard hguard
  rw [hkey] at himg hfresh
  rw [freshRows_eq himg hfresh] at hrows
  exact ⟨guard, hguard, (hsame accept).2.trans (Option.some.inj hrows)⟩

/-- A stopped expansion has no rows any more. -/
theorem stopped_expansion_loses_rows :
    ¬∀ (events : List Event), ∀ guard ∈ (Machine.run (step productConfig 8)
      (start pathSnapshot 1) events).2.guards,
      ∃ img base, pathSnapshot.bind (·[guard.key.graphId]?) = some img ∧
        freshOp productConfig img guard.key.kind = some (some base) ∧
        ∀ emit, (guard.plan.execute productConfig 8 emit).1 = (base.execute productConfig 8 emit).1 ∧
          (guard.plan.execute productConfig 8 emit).2.2 = (base.execute productConfig 8 emit).2.2 := by
  intro hclaim
  have hlost : ∃ guard ∈ (Machine.run (step productConfig 8) (start pathSnapshot 1)
      (stoppedOnce (.spExpansion 2 3 2))).2.guards, guard.key = ⟨1, graphDefault, .spExpansion 2 3 2, .native⟩ ∧
        (guard.plan.execute productConfig 8 accept).2.2 = [] := by
    decide +kernel
  have hrows : freshRows (.spExpansion 2 3 2) = some [[1, 3]] := by decide +kernel
  obtain ⟨guard, hguard, hkey, hnone⟩ := hlost
  obtain ⟨img, base, himg, hfresh, hsame⟩ := hclaim _ guard hguard
  rw [hkey] at himg hfresh
  rw [freshRows_eq himg hfresh, ← (hsame accept).2, hnone] at hrows
  exact absurd (Option.some.inj hrows) (by simp)

end PlanRun

end Nova
