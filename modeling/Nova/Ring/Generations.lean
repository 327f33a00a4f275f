import Nova.Ring.Snapshots

/-!
# Queries that prepare plans while writers publish

A query reads the published image of its graph, then the version counter, and then looks
up or builds what it needs under that version: a table of ranges, and for a shape an
operator. `RingServer.step` interleaves these steps with the steps of the writers.

`caches_keep_generations`: every table and every operator, kept or in use, is made from
images published for its version, if each query finds its image still published for the
version that it reads, and the counter does not wrap around. In
`slow_query_keeps_old_table` a compaction comes between the two reads of a query, and its
table of the old image is kept under the new version.
-/

namespace Nova

open Nova.Lib Nova.Ring List

namespace Ring

/-- `lftj_prepare_sp_object_scan`, after the version has been read. -/
def prepareSpObjectScan (cfg : PathConfig) (st : PlanStore) (ver : Nat) (g : GraphId) (img : BraidedGraphImage)
    (predicate : Nat) : Option (Option PreparedSpObjectScan) × PlanStore :=
  let (adj, adjCache) := st.spAdjCache.getOrInsert (ver, g, predicate) (img.buildSharedAdj predicate cfg.adjMode)
  (adj.map (PreparedSpObjectScan.prepareWithSharedAdj img predicate), { st with spAdjCache := adjCache })

/-- What a query asks for. -/
inductive Want where
  | spObjectScan (predicate : Nat)
  | shape (kind : PhysicalOpKind)

/-- How far a query has come. -/
inductive Query where
  | asked (want : Want) (g : GraphId)
  | imageRead (want : Want) (g : GraphId) (img : BraidedGraphImage)
  | versionRead (want : Want) (g : GraphId) (img : BraidedGraphImage) (ver : Nat)
  | tableRead (kind : PhysicalOpKind) (g : GraphId) (img : BraidedGraphImage) (ver : Nat)
      (cached : Option PredicateAdjacency)
  | scan (predicate : Nat) (scan : PreparedSpObjectScan)
  | operator (guard : CachedPhysicalOpGuard)
  | done

end Ring

/-- The store and its queries. -/
structure RingServer (D : Type) where
  shared : RingShared D
  queries : List Query

namespace RingServer

variable {D : Type} (A : DictApi D) (len : D → Nat) (files : Residency) (threshold : Option Nat)
variable (cfg : PathConfig) (rounds : Nat)

/-! ## Interleavings -/

/-- The next step of a query that prepares; a read outside an array ends it. -/
def advance (st : RingShared D) : Query → Query × PlanStore
  | .asked want g =>
    match st.graphFromSnap g with
    | none => (.done, st.plans)
    | some img => (.imageRead want g img, st.plans)
  | .imageRead want g img => (.versionRead want g img st.plans.snapshotVersion, st.plans)
  | .versionRead (.spObjectScan predicate) g img ver =>
    match prepareSpObjectScan cfg st.plans ver g img predicate with
    | (some (some scan), plans) => (.scan predicate scan, plans)
    | (_, plans) => (.done, plans)
  | .versionRead (.shape kind) g img ver =>
    match warmTable cfg st.plans ver g img kind with
    | (some cached, plans) => (.tableRead kind g img ver cached, plans)
    | (none, plans) => (.done, plans)
  | .tableRead kind g img ver cached =>
    match getOrPrepare cfg st.plans ver g img kind cached with
    | (some (some guard), plans) => (.operator guard, plans)
    | (_, plans) => (.done, plans)
  | query => (query, st.plans)

/-- What is done with a prepared scan or operator. -/
inductive Use where
  | resetToSubject (subject : Nat)
  | advance
  | execute (emit : Emit)

/-- A scan that has failed stays as it is. -/
def use : Query → Use → Query
  | .scan predicate scan, .resetToSubject subject =>
    .scan predicate (((scan.resetToSubject subject).map (·.2)).getD scan)
  | .scan predicate scan, .advance => .scan predicate (scan.advance.getD scan)
  | .operator guard, .execute emit => .operator { guard with plan := (guard.plan.execute cfg rounds emit).2.1 }
  | query, _ => query

/-- The end of a query; an operator goes back into the cache. -/
def finish (plans : PlanStore) : Query → PlanStore
  | .operator guard =>
    if guard.returnToCache then { plans with physicalOpCache := plans.physicalOpCache.putBack guard.key guard.plan }
    else plans
  | _ => plans

inductive Input where
  | writer (i : RingShared.Input)
  | ask (want : Want) (g : GraphId)
  | run (i : Nat)
  | use (i : Nat) (u : Use)
  | drop (i : Nat)

def step : Machine (RingServer D) Input Fault Unit
  | st, .writer i =>
    match RingShared.step A len files threshold st.shared i with
    | (r, shared) => (r, { st with shared := shared })
  | st, .ask want g => (.ok (), { st with queries := st.queries ++ [.asked want g] })
  | st, .run i =>
    match st.queries[i]? with
    | none => (.ok (), st)
    | some query =>
      let (query, plans) := advance cfg st.shared query
      (.ok (), ⟨{ st.shared with plans := plans }, st.queries.set i query⟩)
  | st, .use i u =>
    match st.queries[i]? with
    | none => (.ok (), st)
    | some query => (.ok (), { st with queries := st.queries.set i (use cfg rounds query u) })
  | st, .drop i =>
    match st.queries[i]? with
    | none => (.ok (), st)
    | some query => (.ok (), ⟨{ st.shared with plans := finish st.shared.plans query }, st.queries.set i .done⟩)

/-! ## Generations -/

/-- The image is in the images published for the version. -/
def PublishedFor (st : RingShared D) (ver : Nat) (g : GraphId) (img : BraidedGraphImage) : Prop :=
  ∃ graphs, (ver, graphs) ∈ st.history ∧ graphs[g]? = some img

/-- The operator after some executions; one of them may have lost the subjects. -/
def Later (base plan : PreparedPhysicalOp) : Prop :=
  base.Of plan ∨ ∃ op, base = .spExpansion op ∧ plan = .spExpansion { op with outerSubjectsDense := [] }

/-- The ranges of the scan are those of its image. -/
def OwnRanges (predicate : Nat) (scan : PreparedSpObjectScan) : Prop :=
  ∀ adj, scan.adj = some adj → scan.img.buildSharedAdj predicate cfg.adjMode = some (some adj)

/-- What is kept under a version, or in use, is made from images published for it. -/
structure Built (st : RingServer D) : Prop where
  tables : Entries (TableFrom cfg (PublishedFor st.shared)) st.shared.plans.spAdjCache.map
  plans : Entries (PlanFrom cfg (PublishedFor st.shared) Later) st.shared.plans.physicalOpCache.map
  scans : ∀ predicate scan, .scan predicate scan ∈ st.queries → OwnRanges cfg predicate scan
  operators : ∀ guard, .operator guard ∈ st.queries →
    PlanFrom cfg (PublishedFor st.shared) Later guard.key guard.plan

/-- The counter has room for the step. -/
def Room (st : RingShared D) : RingShared.Action → Prop
  | .fetchAdd | .fetchAddFor _ _ => st.plans.snapshotVersion + 1 < 2 ^ 64
  | _ => True

/-- A query that is about to read the version holds an image published for it. -/
def KeepsUp (st : RingShared D) : Query → Prop
  | .imageRead _ g img => PublishedFor st st.plans.snapshotVersion g img
  | _ => True

/-- A query that reads the version holds an image published for it, and the counter does
not wrap around. -/
def Timely (st : RingServer D) : Input → Prop
  | .writer (.run i) => ∀ a ∈ (st.shared.writers[i]?.getD []).head?, Room st.shared a
  | .run i => ∀ query ∈ st.queries[i]?, KeepsUp st.shared query
  | _ => True

variable {A len files threshold cfg rounds} {st : RingServer D} {shared : RingShared D}

/-! ## More publications -/

theorem PublishedFor.mono {shared' : RingShared D} (hsub : shared.history ⊆ shared'.history)
    {ver : Nat} {g : GraphId}
    {img : BraidedGraphImage} (h : PublishedFor shared ver g img) : PublishedFor shared' ver g img := by
  obtain ⟨graphs, hin, hg⟩ := h
  exact ⟨graphs, hsub hin, hg⟩

theorem publishedFor_unique (h : (shared.history.map Prod.fst).Nodup) : OneEach (PublishedFor shared) := by
  rintro ver g img img' ⟨graphs, hin, hg⟩ ⟨graphs', hin', hg'⟩
  obtain rfl : graphs = graphs' := congrArg Prod.snd (inj_on_of_nodup_map h hin hin' rfl)
  exact Option.some.inj (hg.symm.trans hg')

/-- What is known of a query. -/
def QueryOk (cfg : PathConfig) (shared : RingShared D) : Query → Prop
  | .versionRead _ g img ver => PublishedFor shared ver g img
  | .tableRead kind g img ver cached =>
    PublishedFor shared ver g img ∧ tableFor cfg img kind cached = tableFor cfg img kind none
  | .scan predicate scan => ∃ img adj base, img.buildSharedAdj predicate cfg.adjMode = some adj ∧
      PreparedSpObjectScan.prepareWithSharedAdj img predicate adj = some base ∧ base.Of scan
  | .operator guard => PlanFrom cfg (PublishedFor shared) Later guard.key guard.plan
  | _ => True

variable {query : Query}

theorem QueryOk.mono {shared' : RingShared D} (hsub : shared.history ⊆ shared'.history)
    (h : QueryOk cfg shared query) : QueryOk cfg shared' query := by
  rcases query with _ | _ | _ | _ | _ | guard | _
  · trivial
  · trivial
  · exact PublishedFor.mono hsub h
  · exact ⟨PublishedFor.mono hsub h.1, h.2⟩
  · exact h
  · exact PlanFrom.imp (fun _ _ _ himg => himg.mono hsub) h
  · trivial

/-- The caches hold what is made from images published for the version of the key. -/
structure PlansOk (cfg : PathConfig) (shared : RingShared D) (plans : PlanStore) : Prop where
  version : plans.snapshotVersion = shared.plans.snapshotVersion
  tables : Entries (TableFrom cfg (PublishedFor shared)) plans.spAdjCache.map
  plans : Entries (PlanFrom cfg (PublishedFor shared) Later) plans.physicalOpCache.map

/-- What every timely step keeps. -/
structure Kept (cfg : PathConfig) (st : RingServer D) : Prop where
  versions : (st.shared.history.map Prod.fst).Nodup
  latest : ∀ e ∈ st.shared.history, e.1 ≤ st.shared.plans.snapshotVersion
  plans : PlansOk cfg st.shared st.shared.plans
  queries : ∀ query ∈ st.queries, QueryOk cfg st.shared query

theorem Kept.built (h : Kept cfg st) : Built cfg st where
  tables := h.plans.tables
  plans := h.plans.plans
  scans := by
    intro predicate scan hscan adj hadj
    obtain ⟨img, adj', base, hbuild, hprep, hof⟩ := h.queries _ hscan
    obtain ⟨himg, hadj'⟩ := PreparedSpObjectScan.prepared_from hprep
    rw [hof.img, himg, hbuild]
    rw [hof.adj, hadj'] at hadj
    exact congrArg some hadj
  operators := fun guard hguard => h.queries _ hguard

/-! ## Writers -/

/-- A step of a writer keeps or clears the caches, and a new publication has a new
version. -/
structure Moves (shared shared' : RingShared D) : Prop where
  tables : shared'.plans.spAdjCache = shared.plans.spAdjCache ∨
    shared'.plans.spAdjCache = shared.plans.spAdjCache.clear
  plans : shared'.plans.physicalOpCache = shared.plans.physicalOpCache ∨
    shared'.plans.physicalOpCache = shared.plans.physicalOpCache.clear
  version : shared.plans.snapshotVersion ≤ shared'.plans.snapshotVersion
  history : shared'.history = shared.history ∨ ∃ graphs,
    shared'.history = (shared'.plans.snapshotVersion, graphs) :: shared.history ∧
      shared.plans.snapshotVersion < shared'.plans.snapshotVersion

theorem nextVersion_of_room {v : Nat} (h : v + 1 < 2 ^ 64) : RingShared.nextVersion v = v + 1 := Nat.mod_eq_of_lt h

theorem act_lockSection (A : DictApi D) (len : D → Nat) (files : Residency) (threshold : Option Nat)
    (e : LoudsStore.Event) :
    (RingShared.act A len files threshold shared (.lockSection e)).2 =
      { shared with inner := (RingStore.lockSection A len files threshold shared.inner e).2 } := by
  rw [RingShared.act]
  rcases RingStore.lockSection A len files threshold shared.inner e with ⟨f | _ | decode, s⟩ <;> rfl

theorem act_moves (A : DictApi D) (len : D → Nat) (files : Residency) (threshold : Option Nat)
    {a : RingShared.Action} (hroom : Room shared a) :
    Moves shared (RingShared.act A len files threshold shared a).2 := by
  rcases a with _ | _ | _ | _ | _ | e | ⟨decode, graphs⟩ | decode | graphs
  case clearPhysicalOpCache => exact ⟨.inl rfl, .inr rfl, Nat.le_refl _, .inl rfl⟩
  case clearSpAdjCache => exact ⟨.inr rfl, .inl rfl, Nat.le_refl _, .inl rfl⟩
  case fetchAdd =>
    refine ⟨.inl rfl, .inl rfl, ?_, .inl rfl⟩
    show shared.plans.snapshotVersion ≤ RingShared.nextVersion shared.plans.snapshotVersion
    rw [nextVersion_of_room hroom]
    omega
  case lockSection =>
    rw [act_lockSection]
    exact ⟨.inl rfl, .inl rfl, Nat.le_refl _, .inl rfl⟩
  case fetchAddFor =>
    have hnext : shared.plans.snapshotVersion < RingShared.nextVersion shared.plans.snapshotVersion := by
      rw [nextVersion_of_room hroom]
      omega
    exact ⟨.inl rfl, .inl rfl, Nat.le_of_lt hnext, .inr ⟨graphs, rfl, hnext⟩⟩
  all_goals exact ⟨.inl rfl, .inl rfl, Nat.le_refl _, .inl rfl⟩

theorem step_moves {i : RingShared.Input} (hroom : Timely st (.writer i)) :
    Moves st.shared (RingShared.step A len files threshold st.shared i).2 := by
  rcases i with e | i
  · exact ⟨.inl rfl, .inl rfl, Nat.le_refl _, .inl rfl⟩
  rw [RingShared.step]
  rw [Timely] at hroom
  generalize st.shared.writers[i]? = writer at hroom ⊢
  rcases writer with _ | _ | ⟨a, rest⟩
  · exact ⟨.inl rfl, .inl rfl, Nat.le_refl _, .inl rfl⟩
  · exact ⟨.inl rfl, .inl rfl, Nat.le_refl _, .inl rfl⟩
  · have hmoves := act_moves A len files threshold (hroom a rfl)
    dsimp only
    generalize RingShared.act A len files threshold st.shared a = x at hmoves ⊢
    obtain ⟨f | next, shared⟩ := x
    · exact ⟨hmoves.tables, hmoves.plans, hmoves.version, hmoves.history⟩
    · exact ⟨hmoves.tables, hmoves.plans, hmoves.version, hmoves.history⟩

theorem Kept.moves (h : Kept cfg st) (hmoves : Moves st.shared shared) : Kept cfg
    { st with shared := shared } := by
  have hsub : st.shared.history ⊆ shared.history := by
    rcases hmoves.history with hsame | ⟨graphs, hnew, -⟩
    · rw [hsame]
      exact List.Subset.refl _
    · rw [hnew]
      exact subset_cons_self _ _
  refine ⟨?_, ?_, ⟨rfl, ?_, ?_⟩, fun query hquery => (h.queries query hquery).mono hsub⟩
  · rcases hmoves.history with hsame | ⟨graphs, hnew, hlt⟩
    · rw [hsame]
      exact h.versions
    · -- the new version is above all others
      rw [hnew, map_cons, nodup_cons]
      refine ⟨?_, h.versions⟩
      intro hin
      obtain ⟨e, he, heq⟩ := mem_map.mp hin
      have hle := h.latest e he
      omega
  · intro e he
    rcases hmoves.history with hsame | ⟨graphs, hnew, hlt⟩
    · exact Nat.le_trans (h.latest e (hsame ▸ he)) hmoves.version
    · rw [hnew] at he
      rcases mem_cons.mp he with rfl | he
      · exact Nat.le_refl _
      · exact Nat.le_trans (h.latest e he) hmoves.version
  · rcases hmoves.tables with hsame | hclear
    · rw [hsame]
      exact h.plans.tables.imp fun _ _ hfrom => hfrom.imp fun _ _ _ himg => himg.mono hsub
    · rw [hclear]
      exact entries_empty
  · rcases hmoves.plans with hsame | hclear
    · rw [hsame]
      exact h.plans.plans.imp fun _ _ hfrom => hfrom.imp fun _ _ _ himg => himg.mono hsub
    · rw [hclear]
      exact entries_empty

/-! ## Queries -/

/-- A query that keeps up reads plans of its own image only; one case for each step. -/
theorem advance_ok (h : Kept cfg st) (hquery : QueryOk cfg st.shared query)
    (htimely : KeepsUp st.shared query) : QueryOk cfg st.shared (advance cfg st.shared query).1 ∧
      PlansOk cfg st.shared (advance cfg st.shared query).2 := by
  have hone := publishedFor_unique h.versions
  rcases query with
    ⟨want, g⟩ | ⟨want, g, img⟩ | ⟨predicate | kind, g, img, ver⟩ | ⟨kind, g, img, ver, cached⟩ | _ | _ | _
  · rw [advance]
    rcases st.shared.graphFromSnap g with _ | img
    · exact ⟨trivial, h.plans⟩
    · exact ⟨trivial, h.plans⟩
  · exact ⟨htimely, h.plans⟩
  · -- a scan: the table is that of the image
    obtain ⟨htables, hbuild⟩ := getOrInsert_from hone h.plans.tables hquery predicate
    rw [advance, prepareSpObjectScan]
    generalize st.shared.plans.spAdjCache.getOrInsert _ _ = found at htables hbuild ⊢
    obtain ⟨adj, tables⟩ := found
    have hplans : PlansOk cfg st.shared { st.shared.plans with spAdjCache := tables } :=
      ⟨rfl, htables, h.plans.plans⟩
    rcases adj with _ | adj
    · exact ⟨trivial, hplans⟩
    dsimp only [Option.map_some]
    rcases hprep : PreparedSpObjectScan.prepareWithSharedAdj img predicate adj with _ | scan
    · exact ⟨trivial, hplans⟩
    · exact ⟨⟨img, adj, scan, hbuild.symm, hprep, PreparedSpObjectScan.of_prepared hprep⟩, hplans⟩
  · -- a shape: first the table
    obtain ⟨htables, hcached⟩ := warmTable_from hone h.plans.tables hquery kind
    have hrest := warmTable_rest cfg st.shared.plans ver g img kind
    rw [advance]
    generalize warmTable cfg st.shared.plans ver g img kind = warmed at htables hcached hrest ⊢
    obtain ⟨cached, plans⟩ := warmed
    have hplans : PlansOk cfg st.shared plans := by
      rw [show plans = _ from hrest]
      exact ⟨rfl, htables, h.plans.plans⟩
    rcases cached with _ | cached
    · exact ⟨trivial, hplans⟩
    · exact ⟨⟨hquery, hcached cached rfl⟩, hplans⟩
  · -- then the operator
    obtain ⟨himg, hcached⟩ := hquery
    obtain ⟨hcache, hguard⟩ := getOrPrepare_from (fun hof => .inl hof) h.plans.plans himg hcached
    have hrest := getOrPrepare_rest cfg st.shared.plans ver g img kind cached
    rw [advance]
    generalize getOrPrepare cfg st.shared.plans ver g img kind cached = prepared at hcache hguard hrest ⊢
    obtain ⟨found, plans⟩ := prepared
    have hplans : PlansOk cfg st.shared plans := by
      rw [show plans = _ from hrest]
      exact ⟨rfl, h.plans.tables, hcache⟩
    rcases found with _ | _ | guard
    · exact ⟨trivial, hplans⟩
    · exact ⟨trivial, hplans⟩
    · exact ⟨hguard guard rfl, hplans⟩
  · exact ⟨hquery, h.plans⟩
  · exact ⟨hquery, h.plans⟩
  · exact ⟨hquery, h.plans⟩

theorem Later.execute {base plan : PreparedPhysicalOp} (hbase : base.Of base) (h : Later base plan) (emit : Emit) :
    Later base (plan.execute cfg rounds emit).2.1 := by
  rcases h with hof | ⟨op, rfl, rfl⟩
  · by_cases hexp : plan.isExpansion = true
    · obtain ⟨op, rfl⟩ := PreparedPhysicalOp.isExpansion_iff.mp hexp
      rcases base with _ | _ | op' | _ | _ | _ <;> try exact False.elim hof
      obtain rfl : op = op' := hof
      show Later (.spExpansion op) (.spExpansion (op.execute emit).2.1)
      rcases hexit : (op.execute emit).1 with _ | e
      · rw [PreparedSpExpansion.execute_done hexit]
        exact .inl rfl
      · rw [PreparedSpExpansion.execute_left hexit]
        exact .inr ⟨op, rfl, rfl⟩
    · exact .inl ((PreparedPhysicalOp.execute_fresh hbase hof).2.2 fun hyes => absurd hyes hexp)
  · exact .inr ⟨op, rfl, rfl⟩

theorem use_ok (h : QueryOk cfg shared query) (u : Use) : QueryOk cfg shared (use cfg rounds query u) := by
  rcases query with _ | _ | _ | _ | ⟨predicate, scan⟩ | guard | _ <;> try exact h
  · -- a scan keeps its image and its table
    obtain ⟨img, adj, base, hbuild, hprep, hof⟩ := h
    rcases u with subject | _ | emit
    · refine ⟨img, adj, base, hbuild, hprep, ?_⟩
      rcases hof.resetToSubject_twin hof subject with ⟨hnone, -⟩ | ⟨ok, scan', -, hsome, -, hof', -⟩
      · rw [hnone]
        exact hof
      · rw [hsome]
        exact hof'
    · refine ⟨img, adj, base, hbuild, hprep, ?_⟩
      rcases hadv : scan.advance with _ | scan'
      · exact hof
      · exact hof.advance hadv
    · exact ⟨img, adj, base, hbuild, hprep, hof⟩
  · obtain ⟨img, base, himg, hfresh, hbase, hlater⟩ := h
    rcases u with subject | _ | emit
    · exact ⟨img, base, himg, hfresh, hbase, hlater⟩
    · exact ⟨img, base, himg, hfresh, hbase, hlater⟩
    · exact ⟨img, base, himg, hfresh, hbase, hlater.execute hbase emit⟩

theorem finish_ok {plans : PlanStore} (h : PlansOk cfg shared plans) (hquery : QueryOk cfg shared query) :
    PlansOk cfg shared (finish plans query) := by
  rcases query with _ | _ | _ | _ | _ | guard | _ <;> try exact h
  rw [finish]
  by_cases hreturn : guard.returnToCache = true
  · rw [if_pos hreturn]
    exact ⟨h.version, h.tables, PlanCache.entries_putBack h.plans hquery⟩
  · rw [if_neg hreturn]
    exact h

/-! ## Runs -/

theorem Kept.set (h : Kept cfg st) {plans : PlanStore} (hplans : PlansOk cfg st.shared plans)
    (hquery : QueryOk cfg st.shared query) (i : Nat) :
    Kept cfg ⟨{ st.shared with plans := plans }, st.queries.set i query⟩ := by
  refine ⟨h.versions, ?_, ⟨rfl, hplans.tables, hplans.plans⟩, ?_⟩
  · intro e he
    rw [hplans.version]
    exact h.latest e he
  · intro query' hmem
    rcases mem_or_eq_of_mem_set hmem with hold | rfl
    · exact h.queries query' hold
    · exact hquery

theorem Kept.step (h : Kept cfg st) {i : Input} (htimely : Timely st i) :
    Kept cfg (RingServer.step A len files threshold cfg rounds st i).2 := by
  rcases i with i | ⟨want, g⟩ | i | ⟨i, u⟩ | i
  · exact h.moves (step_moves htimely)
  · refine ⟨h.versions, h.latest, h.plans, ?_⟩
    intro query hmem
    rcases mem_append.mp hmem with hold | hnew
    · exact h.queries query hold
    · obtain rfl : query = .asked want g := mem_singleton.mp hnew
      trivial
  · rw [RingServer.step]
    rcases hquery : st.queries[i]? with _ | query
    · exact h
    obtain ⟨hnext, hplans⟩ := advance_ok h (h.queries query (mem_of_getElem? hquery)) (htimely query hquery)
    exact h.set hplans hnext i
  · rw [RingServer.step]
    rcases hquery : st.queries[i]? with _ | query
    · exact h
    · exact h.set h.plans (use_ok (h.queries query (mem_of_getElem? hquery)) u) i
  · rw [RingServer.step]
    rcases hquery : st.queries[i]? with _ | query
    · exact h
    · exact h.set (finish_ok h.plans (h.queries query (mem_of_getElem? hquery)))
        (show QueryOk cfg st.shared .done from trivial) i

theorem kept_start {len : D → Nat} (h : RingShared.Start A len shared) : Kept cfg ⟨shared, []⟩ := by
  have hempty : ∀ {s : RingStore D} {decode : Option DecodeSnapshot} {snap : Option (GraphMap BraidedGraphImage)}
      {ver : Nat} {history : List (Nat × GraphMap BraidedGraphImage)}, (history.map Prod.fst).Nodup →
      (∀ e ∈ history, e.1 ≤ ver) →
      Kept cfg (⟨⟨s, decode, .new snap ver, history, []⟩, []⟩ : RingServer D) := by
    intro s decode snap ver history hnodup hle
    exact ⟨hnodup, hle, ⟨rfl, entries_empty, entries_empty⟩, forall_mem_nil _⟩
  rcases h with d | h
  · exact hempty nodup_nil (forall_mem_nil _)
  unfold RingShared.opened at h
  rename_i s
  by_cases hpublish : s.delta.isEmpty ∧ ¬s.graphs.isEmpty
  · rw [if_pos hpublish] at h
    obtain ⟨⟨table, d⟩, -, h⟩ := bind_ok h
    obtain rfl : _ = shared := Except.ok.inj h
    refine hempty (nodup_singleton 1) ?_
    intro e he
    rw [mem_singleton.mp he]
  · rw [if_neg hpublish] at h
    obtain rfl : _ = shared := Except.ok.inj h
    exact hempty nodup_nil (forall_mem_nil _)

/-- In every run of timely steps, whatever the interleaving, what is kept under a version
or in use is made from images published for it. -/
theorem caches_keep_generations (A : DictApi D) (len : D → Nat) (files : Residency) (threshold : Option Nat)
    (cfg : PathConfig) (rounds : Nat) (hstart : RingShared.Start A len shared) {inputs : List Input}
    (h : Machine.Meets (step A len files threshold cfg rounds) Timely ⟨shared, []⟩ inputs) {reached : List Input}
    (hpre : reached <+: inputs) :
    Built cfg (Machine.run (step A len files threshold cfg rounds) ⟨shared, []⟩ reached).2 := by
  obtain ⟨rest, rfl⟩ := hpre
  exact (Machine.run_inv (fun _ _ hkept htimely => hkept.step htimely) (kept_start hstart)
    (Machine.meets_append.mp h).1).built

/-! ## The source's dictionary -/

section Source

open Dictionary DictCompact LoudsStore PlanRun

instance (ver : Nat) (g : GraphId) (img : BraidedGraphImage) : Decidable (PublishedFor shared ver g img) :=
  decidable_of_iff (∃ e ∈ shared.history, e.1 = ver ∧ e.2[g]? = some img) (by
    constructor
    · rintro ⟨⟨_, graphs⟩, hin, rfl, hg⟩
      exact ⟨graphs, hin, hg⟩
    · rintro ⟨graphs, hin, hg⟩
      exact ⟨_, hin, rfl, hg⟩)

instance : (a : RingShared.Action) → Decidable (Room shared a)
  | .fetchAdd | .fetchAddFor _ _ => inferInstanceAs (Decidable (_ < _))
  | .clearDecode | .clearGraphsSnap | .clearPhysicalOpCache | .clearSpAdjCache | .lockSection _ | .publishDecode _
  | .publishGraphs _ => isTrue trivial

instance : (query : Query) → Decidable (KeepsUp shared query)
  | .imageRead _ _ _ => inferInstanceAs (Decidable (PublishedFor _ _ _ _))
  | .asked _ _ | .versionRead _ _ _ _ | .tableRead _ _ _ _ _ | .scan _ _ | .operator _ | .done => isTrue trivial

instance : (i : Input) → Decidable (Timely st i)
  | .writer (.run _) => inferInstanceAs (Decidable (∀ _ ∈ _, _))
  | .run _ => inferInstanceAs (Decidable (∀ _ ∈ _, _))
  | .writer (.call _) | .ask _ _ | .use _ _ | .drop _ => isTrue trivial

/-- Every image gets a mapped file. -/
def mappedFiles : Residency := fun _ _ => some false

abbrev sourceServer : Machine (RingServer Dictionary) Input Fault Unit :=
  step (api sourceBlockSize) Shared.dictLen mappedFiles none productConfig 8

/-- Writers `i` and `i + 1` insert a quad and compact, one after the other. -/
def inserted (i : Nat) (object : String) : List Input :=
  .writer (.call (.call (.insert (sampleQuad object)))) :: List.replicate 6 (.writer (.run i)) ++
    .writer (.call (.call .compact)) :: List.replicate 6 (.writer (.run (i + 1)))

/-- Queries between the compactions; the predicate has id 1. -/
def inTime : List Input :=
  inserted 0 "a" ++ [.ask (.spObjectScan 1) graphDefault, .run 0, .run 0, .run 0, .use 0 (.resetToSubject 0),
    .ask (.shape (.twoHop 1 1)) graphDefault, .run 1, .run 1, .run 1, .run 1, .use 1 (.execute refuse), .drop 1] ++
    inserted 2 "b" ++ [.ask (.spObjectScan 1) graphDefault, .run 2, .run 2, .run 2]

/-- A query reads its image, then the store is compacted again, and then it reads the
version. -/
def slow : List Input :=
  inserted 0 "a" ++ [.ask (.spObjectScan 1) graphDefault, .run 0] ++ inserted 2 "b" ++ [.run 0, .run 0]

/-- Queries that take their image before the next version. -/
theorem caches_keep_generations_inTime :
    Built productConfig (Machine.run sourceServer ⟨.new (Dictionary.new sourceBlockSize), []⟩ inTime).2 := by
  have htimely : Machine.Meets sourceServer Timely ⟨.new (Dictionary.new sourceBlockSize), []⟩ inTime := by
    decide +kernel
  exact caches_keep_generations (api sourceBlockSize) Shared.dictLen mappedFiles none productConfig 8 (.new _) htimely
    (prefix_refl _)

/-- Under version 4 is the table of the image of version 2. -/
theorem slow_query_keeps_old_table :
    ¬∀ inputs, Built productConfig (Machine.run sourceServer ⟨.new (Dictionary.new sourceBlockSize), []⟩ inputs).2 := by
  intro hclaim
  have hkept : ((Machine.run sourceServer ⟨.new (Dictionary.new sourceBlockSize),
    []⟩ slow).2.shared.plans.spAdjCache.map.lookup
      (4, graphDefault, 1)).isSome = true := by
    decide +kernel
  -- no images of the version give the table
  have hother : ∀ e ∈ (Machine.run sourceServer ⟨.new (Dictionary.new sourceBlockSize), []⟩ slow).2.shared.history,
      e.1 = 4 → ∀ img ∈ e.2[graphDefault]?, img.buildSharedAdj 1 productConfig.adjMode ≠
        some ((Machine.run sourceServer ⟨.new (Dictionary.new sourceBlockSize),
          []⟩ slow).2.shared.plans.spAdjCache.map.lookup
          (4, graphDefault, 1)) := by
    decide +kernel
  obtain ⟨adj, hadj⟩ := Option.isSome_iff_exists.mp hkept
  obtain ⟨img, ⟨graphs, hin, hg⟩, hbuild⟩ := (hclaim slow).tables _ _ hadj
  apply hother _ hin rfl img hg
  rw [hadj]
  exact hbuild

end Source

end RingServer

end Nova
