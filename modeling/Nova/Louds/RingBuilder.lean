import Nova.Louds.CltjRefine

/-!
# Building the succinct ring

Main results:

* `showsTrie_ofTrie`: the encoding of a trie, with vocabularies, shows that trie with its
  local numbers replaced by ids;
* `ringBuild_refines`: where every column has at most `2 ^ 32` distinct ids, the ring
  built bit by bit refines the ring of `Nova.Louds.Ring`;
* `ringBuild_represents_iff`: with more ids the numbers wrap around, and the ring does not
  represent its triples;
* `ringBuild_answersPatterns_iff`: nor does it answer every pattern then;
* `restored_ring_answers_alike`: a ring taken apart into a snapshot and put together again
  answers every query as before.
-/

namespace Nova

open Nova.Lib Nova.DictCompact List LoudsTrie

variable {rows : List Row}

namespace CltjTrie

/-! ## Tries with vocabularies -/

section Encoding

variable {t : Trie3} (hfull : t.Full) {vocab : List Nat × List Nat × List Nat}

include hfull

theorem openConcrete_ofTrie {q hi depth : Nat} (hq : 0 < q) (hdepth : depth < 2) {labels : List Nat}
    (hnode : t.nodes[q]? = some labels) :
    (⟨LoudsTrie.ofTrie t, vocab⟩ : CltjTrie).openConcrete ⟨hi, q, depth⟩ =
      .ok (some ⟨firstEdge t.degrees q + labels.length, firstEdge t.degrees q + 1, depth + 1⟩) := by
  have hpos : labels.length ≠ 0 := by
    have hdeg : labels.length ∈ t.degrees := mem_map_of_mem (mem_of_getElem? hnode)
    exact Nat.ne_of_gt (hfull.degrees_pos _ hdeg)
  rw [openConcrete, if_neg (by simpa using hdepth)]
  simp only [childFromLabelPos_ofTrie hfull hq hnode]
  show (if (LoudsTrie.ofTrie t).degree (firstEdge t.degrees q) = 0 then _ else _) = _
  rw [degree_ofTrie hfull hnode, if_neg hpos]
  rfl

omit hfull in
/-- An iterator over the edges of a node shows them under the ids of their numbers. -/
theorem shows_node {α : Type} {R : CltjTrieIter → α → Prop} {q depth : Nat} {labels : List Nat}
    (hnode : t.nodes[q]? = some labels) {l : Level α} (hlen : l.length = labels.length)
    (hentry : ∀ i e k, l[i]? = some e → labels[i]? = some k → k < 2 ^ 32 ∧
      ((⟨LoudsTrie.ofTrie t, vocab⟩ : CltjTrie).vocabSlice depth)[k]? = some e.1 ∧
        R ⟨firstEdge t.degrees q + labels.length, firstEdge t.degrees q + 1 + i, depth⟩ e.2) :
    Shows ⟨LoudsTrie.ofTrie t, vocab⟩ R
      ⟨firstEdge t.degrees q + labels.length, firstEdge t.degrees q + 1, depth⟩ l where
  stop := by
    simp only
    omega
  entry := by
    intro i e he
    have hi : i < labels.length := by
      rw [← hlen]
      exact (List.getElem?_eq_some_iff.mp he).1
    rcases hentry i e labels[i] he (getElem?_eq_getElem hi) with ⟨hfits, hkey, hR⟩
    refine ⟨?_, hR⟩
    rw [labelAt_node t hnode hi, show asU32 labels[i] = labels[i] from Nat.mod_eq_of_lt hfits]
    exact hkey

end Encoding

/-- The local numbers of each level have an id. -/
structure InRange (t : Trie3) (n₀ n₁ n₂ : Nat) : Prop where
  top : ∀ e ∈ t, e.1 < n₀
  mid : ∀ e ∈ t, ∀ e' ∈ e.2, e'.1 < n₁
  bottom : ∀ e ∈ t, ∀ e' ∈ e.2, ∀ e'' ∈ e'.2, e''.1 < n₂

theorem inRange_ofRows (hne : rows ≠ []) {n₀ n₁ n₂ : Nat}
    (h : ∀ r ∈ rows, r.1 < n₀ ∧ r.2.1 < n₁ ∧ r.2.2 < n₂) : InRange (Trie3.ofRows rows) n₀ n₁ n₂ := by
  have hfull := Trie3.full_ofRows hne
  -- every path down the trie is a row
  have hrow : ∀ e ∈ Trie3.ofRows rows, ∀ e' ∈ e.2, ∀ e'' ∈ e'.2, (e.1, e'.1, e''.1) ∈ rows := by
    intro e he e' he' e'' he''
    rw [← Trie3.rows_ofRows rows, Trie3.rows]
    refine mem_flatMap.mpr ⟨e, he, mem_map_of_mem ?_⟩
    exact mem_flatMap.mpr ⟨e', he', mem_map_of_mem he''⟩
  have hmid : ∀ e ∈ Trie3.ofRows rows, ∀ e' ∈ e.2, ∃ k, (e.1, e'.1, k) ∈ rows := by
    intro e he e' he'
    rcases exists_mem_of_ne_nil _ (hfull.bottom e he e' he') with ⟨e'', he''⟩
    exact ⟨e''.1, hrow e he e' he' e'' he''⟩
  constructor
  · intro e he
    rcases exists_mem_of_ne_nil _ (hfull.mid e he) with ⟨e', he'⟩
    rcases hmid e he e' he' with ⟨k, hk⟩
    exact (h _ hk).1
  · intro e he e' he'
    rcases hmid e he e' he' with ⟨k, hk⟩
    exact (h _ hk).2.1
  · intro e he e' he' e'' he''
    exact (h _ (hrow e he e' he' e'' he'')).2.2

/-- The id of a local number. -/
def idOf (vocab : List Nat) (k : Nat) : Nat := vocab.getD k 0

theorem getElem?_idOf {vocab : List Nat} {k : Nat} (hk : k < vocab.length) :
    vocab[k]? = some (idOf vocab k) := by
  rw [idOf, getD_eq_getElem _ _ hk, getElem?_eq_getElem hk]

section Levels

variable {t : Trie3} (hfull : t.Full) {v₀ v₁ v₂ : List Nat} (h₀ : GoodVocab v₀) (h₁ : GoodVocab v₁)
  (h₂ : GoodVocab v₂) (hrange : InRange t v₀.length v₁.length v₂.length)

include h₂ hrange

theorem shows_bottom {i j : Nat} {e : Nat × Level (Level Unit)} {e' : Nat × Level Unit}
    (he : t[i]? = some e) (he' : e.2[j]? = some e') :
    Shows₂ ⟨LoudsTrie.ofTrie t, v₀, v₁, v₂⟩
      ⟨firstEdge t.degrees (firstEdge t.degrees (1 + i) + 1 + j) + e'.2.keys.length,
        firstEdge t.degrees (firstEdge t.degrees (1 + i) + 1 + j) + 1, 2⟩
      (e'.2.map fun e'' => (idOf v₂ e''.1, ())) := by
  refine shows_node (Trie3.nodes_bottom he he') (by simp [Level.keys]) ?_
  intro k c n hc hn
  rw [getElem?_map, Option.map_eq_some_iff] at hc
  rcases hc with ⟨c', hc', rfl⟩
  rw [Level.keys, getElem?_map, hc', Option.map_some, Option.some.injEq] at hn
  have hlt := hrange.bottom e (mem_of_getElem? he) e' (mem_of_getElem? he') c' (mem_of_getElem? hc')
  have hfits := h₂.fits
  rw [← hn]
  exact ⟨by omega, getElem?_idOf hlt, trivial⟩

include hfull h₁

theorem shows_mid {i : Nat} {e : Nat × Level (Level Unit)} (he : t[i]? = some e) :
    Shows₁ ⟨LoudsTrie.ofTrie t, v₀, v₁, v₂⟩
      ⟨firstEdge t.degrees (1 + i) + e.2.keys.length, firstEdge t.degrees (1 + i) + 1, 1⟩
      (e.2.map fun e' => (idOf v₁ e'.1, e'.2.map fun e'' => (idOf v₂ e''.1, ()))) := by
  refine shows_node (Trie3.nodes_mid he) (by simp [Level.keys]) ?_
  intro k c n hc hn
  rw [getElem?_map, Option.map_eq_some_iff] at hc
  rcases hc with ⟨c', hc', rfl⟩
  rw [Level.keys, getElem?_map, hc', Option.map_some, Option.some.injEq] at hn
  have hlt := hrange.mid e (mem_of_getElem? he) c' (mem_of_getElem? hc')
  have hfits := h₁.fits
  rw [← hn]
  refine ⟨by omega, getElem?_idOf hlt, ?_⟩
  exact ⟨_, openConcrete_ofTrie hfull (by omega) (by omega) (Trie3.nodes_bottom he hc'),
    shows_bottom h₂ hrange he hc'⟩

include h₀

theorem shows_root : Shows₀ ⟨LoudsTrie.ofTrie t, v₀, v₁, v₂⟩ ⟨t.length, 1, 0⟩
    (t.mapKeys (idOf v₀) (idOf v₁) (idOf v₂)) := by
  have hnode : Shows₀ ⟨LoudsTrie.ofTrie t, v₀, v₁, v₂⟩
      ⟨firstEdge t.degrees 0 + t.keys.length, firstEdge t.degrees 0 + 1, 0⟩
      (t.mapKeys (idOf v₀) (idOf v₁) (idOf v₂)) := by
    refine shows_node (Trie3.nodes_top t) (by simp [Level.keys, Trie3.mapKeys]) ?_
    intro k c n hc hn
    rw [Trie3.mapKeys, getElem?_map, Option.map_eq_some_iff] at hc
    rcases hc with ⟨c', hc', rfl⟩
    rw [Level.keys, getElem?_map, hc', Option.map_some, Option.some.injEq] at hn
    have hlt := hrange.top c' (mem_of_getElem? hc')
    have hfits := h₀.fits
    rw [← hn]
    refine ⟨by omega, getElem?_idOf hlt, ?_⟩
    have hzero : firstEdge t.degrees 0 + 1 + k = 1 + k := by
      rw [firstEdge, take_zero, sum_nil, Nat.zero_add]
    exact ⟨_, openConcrete_ofTrie hfull (by omega) (by omega) (Trie3.nodes_mid hc'),
      shows_mid hfull h₁ h₂ hrange hc'⟩
  rw [firstEdge, take_zero, sum_nil, Nat.zero_add, Nat.zero_add, Trie3.length_keys] at hnode
  exact hnode

theorem showsTrie_ofTrie (hsorted : (t.mapKeys (idOf v₀) (idOf v₁) (idOf v₂)).Sorted) :
    ShowsTrie ⟨LoudsTrie.ofTrie t, v₀, v₁, v₂⟩ (t.mapKeys (idOf v₀) (idOf v₁) (idOf v₂)) where
  vocab := by
    intro d
    match d with
    | 0 => exact h₀
    | 1 => exact h₁
    | _ + 2 => exact h₂
  sorted := hsorted
  root := by
    have hpos := length_pos_of_ne_nil hfull.top
    have hroot : (⟨LoudsTrie.ofTrie t, v₀, v₁, v₂⟩ : CltjTrie).iterD0 = some ⟨t.length, 1, 0⟩ := by
      unfold iterD0 iterD0Concrete
      simp only [rootDegree_ofTrie hfull]
      rw [if_neg (by omega)]
    exact ⟨_, hroot, shows_root hfull h₀ h₁ h₂ hrange⟩

end Levels

end CltjTrie

namespace Cltj

open CltjTrie

/-! ## Vocabularies -/

variable {v : Nat}

section Vocab

variable (extract : Row → Nat) (triples : List Row)

theorem buildVocab_eq : buildVocab extract triples = ((triples.map extract).insertionSort (· ≤ ·)).dedup :=
  (pairwise_insertionSort _ _).destutter_eq_dedup

theorem mem_buildVocab : v ∈ buildVocab extract triples ↔ ∃ t ∈ triples, extract t = v := by
  rw [buildVocab_eq, mem_dedup, (perm_insertionSort _ _).mem_iff, mem_map]

theorem nodup_buildVocab : (buildVocab extract triples).Nodup := by
  rw [buildVocab_eq]
  exact nodup_dedup _

theorem sorted_buildVocab : (buildVocab extract triples).Pairwise (· < ·) := by
  have hsorted : (buildVocab extract triples).Pairwise (· ≤ ·) := by
    rw [buildVocab_eq]
    exact (pairwise_insertionSort _ _).sublist (dedup_sublist _)
  refine (hsorted.and (nodup_buildVocab extract triples)).imp ?_
  intro a b hab
  omega

theorem length_buildVocab : (buildVocab extract triples).length = (triples.map extract).toFinset.card := by
  have hfinset : (triples.map extract).toFinset = (buildVocab extract triples).toFinset := by
    ext v
    rw [mem_toFinset, mem_toFinset, mem_buildVocab, mem_map]
  rw [hfinset, toFinset_card_of_nodup (nodup_buildVocab extract triples)]

end Vocab

section Numbers

variable {vocab : List Nat} (h : GoodVocab vocab)

include h

theorem localId_eq (hv : v ∈ vocab) : localId vocab v = vocab.idxOf v := by
  have hlt := idxOf_lt_length_of_mem hv
  have hfits := h.fits
  exact Nat.mod_eq_of_lt (by omega)

theorem idOf_localId (hv : v ∈ vocab) : idOf vocab (localId vocab v) = v := by
  have hlt := idxOf_lt_length_of_mem hv
  rw [localId_eq h hv, idOf, getD_eq_getElem _ _ hlt, getElem_idxOf hlt]

theorem localId_lt (hv : v ∈ vocab) : localId vocab v < vocab.length := by
  rw [localId_eq h hv]
  exact idxOf_lt_length_of_mem hv

theorem idOf_lt {j k : Nat} (hjk : j < k) (hk : k < vocab.length) : idOf vocab j < idOf vocab k := by
  have hj : j < vocab.length := by omega
  rw [idOf, idOf, getD_eq_getElem _ _ hj, getD_eq_getElem _ _ hk]
  exact pairwise_iff_getElem.mp h.sorted j k hj hk hjk

theorem localId_lt_localId {w : Nat} (hv : v ∈ vocab) (hw : w ∈ vocab) (hvw : v < w) :
    localId vocab v < localId vocab w := by
  rcases Nat.lt_trichotomy (localId vocab v) (localId vocab w) with hlt | heq | hgt
  · exact hlt
  · have hid := congrArg (idOf vocab) heq
    rw [idOf_localId h hv, idOf_localId h hw] at hid
    omega
  · have hid := idOf_lt h hgt (localId_lt h hv)
    rw [idOf_localId h hv, idOf_localId h hw] at hid
    omega

theorem idOf_inj {j k : Nat} (hj : j < vocab.length) (hk : k < vocab.length) (heq : idOf vocab j = idOf vocab k) :
    j = k := by
  rcases Nat.lt_trichotomy j k with hlt | rfl | hgt
  · have hid := idOf_lt h hlt hk
    omega
  · rfl
  · have hid := idOf_lt h hgt hj
    omega

end Numbers

theorem le_rename {f₀ f₁ f₂ : Nat → Nat} {a b : Row} (h₀ : a.1 < b.1 → f₀ a.1 < f₀ b.1)
    (h₁ : a.2.1 < b.2.1 → f₁ a.2.1 < f₁ b.2.1) (h₂ : a.2.2 < b.2.2 → f₂ a.2.2 < f₂ b.2.2)
    (hle : Row.le a b = true) :
    Row.le (f₀ a.1, f₁ a.2.1, f₂ a.2.2) (f₀ b.1, f₁ b.2.1, f₂ b.2.2) = true := by
  rw [Row.le_iff] at hle ⊢
  rcases hle with hlt | ⟨heq, hlt | ⟨heq', hle⟩⟩
  · exact .inl (h₀ hlt)
  · exact .inr ⟨by rw [heq], .inl (h₁ hlt)⟩
  · refine .inr ⟨by rw [heq], .inr ⟨by rw [heq'], ?_⟩⟩
    rcases Nat.eq_or_lt_of_le hle with heq'' | hlt
    · rw [heq'']
    · exact Nat.le_of_lt (h₂ hlt)

/-! ## Pairs of tries -/

variable {primary : List Row}

theorem secondarySorted_eq (hsorted : primary.Pairwise fun a b => Row.le a b = true)
    (hnodup : primary.Nodup) : secondarySorted primary = sortRows (primary.map fun r => (r.1, r.2.2, r.2.1)) := by
  have hinj : Function.Injective fun r : Row => (r.1, r.2.2, r.2.1) := by
    intro a b hab
    simp only [Prod.mk.injEq] at hab
    exact Prod.ext hab.1 (Prod.ext hab.2.2 hab.2.1)
  have hfirst : primary.Pairwise fun a b => a.1 ≤ b.1 := by
    refine hsorted.imp ?_
    intro a b hle
    rw [Row.le_iff] at hle
    omega
  have hperm : ((LoudsTrie.groupsC0 primary).flatMap fun group =>
      sortRows (group.map fun r => (r.1, r.2.2, r.2.1))).Perm (primary.map fun r => (r.1, r.2.2, r.2.1)) := by
    have hgroups : (LoudsTrie.groupsC0 primary).flatMap (fun group => group.map fun r => (r.1, r.2.2, r.2.1)) =
        primary.map fun r => (r.1, r.2.2, r.2.1) := by
      conv_rhs => rw [← Level.ungroup_group primary]
      rw [groupsC0_eq hsorted, Level.ungroup, flatMap_map, map_flatMap]
    rw [← hgroups]
    exact List.Perm.flatMap_left _ fun group _ => sortRows_perm _
  have hpairs : ((LoudsTrie.groupsC0 primary).flatMap fun group =>
      sortRows (group.map fun r => (r.1, r.2.2, r.2.1))).Pairwise fun a b => Row.le a b = true := by
    rw [groupsC0_eq hsorted, flatMap_map, pairwise_flatMap]
    refine ⟨fun _ _ => sortRows_sorted _, ?_⟩
    refine (Level.group_increasing hfirst).imp ?_
    intro e e' hlt a ha b hb
    rw [(sortRows_perm _).mem_iff, map_map, mem_map] at ha hb
    rcases ha with ⟨_, -, rfl⟩
    rcases hb with ⟨_, -, rfl⟩
    rw [Row.le_iff]
    exact .inl hlt
  rw [secondarySorted, dedupRuns_of_nodup (hperm.nodup_iff.mpr (hnodup.map hinj))]
  exact eq_of_sorted (hperm.trans (sortRows_perm _).symm) hpairs (sortRows_sorted _)

theorem buildLouds_eq {sorted : List Row} (hsorted : sorted.Pairwise fun a b => Row.le a b = true)
    (hne : sorted ≠ []) : buildLouds sorted = .ok (LoudsTrie.ofTrie (Trie3.ofRows sorted)) := by
  rw [buildLouds, buildLoudsFromSorted_eq hsorted hne]
  rfl

theorem sortRows_ne_nil (hne : rows ≠ []) : sortRows rows ≠ [] := by
  intro hnil
  have hlen := (sortRows_perm rows).length_eq
  rw [hnil, length_nil] at hlen
  exact hne (length_eq_zero_iff.mp hlen.symm)

theorem buildPairSharedC0_eq (hsorted : primary.Pairwise fun a b => Row.le a b = true)
    (hnodup : primary.Nodup) (hne : primary ≠ []) (vp vs : List Nat × List Nat × List Nat) :
    buildPairSharedC0 primary vp vs =
      .ok (⟨LoudsTrie.ofTrie (Trie3.ofRows primary), vp⟩,
        ⟨LoudsTrie.ofTrie (Trie3.ofRows (sortRows (primary.map fun r => (r.1, r.2.2, r.2.1)))), vs⟩) := by
  rw [buildPairSharedC0, buildLouds_eq hsorted hne, secondarySorted_eq hsorted hnodup,
    buildLouds_eq (sortRows_sorted _) (sortRows_ne_nil (by simpa using hne))]
  rfl

theorem sortRows_congr {as bs : List Row} (hperm : as.Perm bs) : sortRows as = sortRows bs :=
  eq_of_sorted ((sortRows_perm as).trans (hperm.trans (sortRows_perm bs).symm)) (sortRows_sorted as)
    (sortRows_sorted bs)

theorem sortRows_of_sorted (hsorted : rows.Pairwise fun a b => Row.le a b = true) :
    sortRows rows = rows := eq_of_sorted (sortRows_perm rows) (sortRows_sorted rows) hsorted

/-! ## Six orders -/

/-- The numbers of a triple. -/
def localRow (vs vp vo : List Nat) (t : Row) : Row := (localId vs t.1, localId vp t.2.1, localId vo t.2.2)

/-- Each order encodes the trie of its rows, whether it is built first or second of its
pair. -/
theorem buildCltjData_eq {ts : List Row} {vs vp vo : List Nat}
    (hsorted : (ts.map (localRow vs vp vo)).Pairwise fun a b => Row.le a b = true)
    (hnodup : (ts.map (localRow vs vp vo)).Nodup) (hne : ts ≠ []) :
    buildCltjData ts vs vp vo = .ok {
      tries := fun ord =>
        ⟨LoudsTrie.ofTrie (Trie3.ofRows (sortRows ((ts.map (localRow vs vp vo)).map ord.ofSpo))),
          vocabsOf vs vp vo ord⟩ } := by
  have hmap : ts.map (fun t => (localId vs t.1, localId vp t.2.1, localId vo t.2.2)) =
      ts.map (localRow vs vp vo) := rfl
  have hne' : ts.map (localRow vs vp vo) ≠ [] := by simpa using hne
  unfold buildCltjData
  rw [hmap]
  generalize ts.map (localRow vs vp vo) = rows at hsorted hnodup hne'
  have hinj : ∀ ord : SortOrder, (rows.map ord.ofSpo).Nodup :=
    fun ord => hnodup.map (Function.LeftInverse.injective ord.toSpo_ofSpo)
  have hsort : ∀ ord : SortOrder, (sortRows (rows.map ord.ofSpo)).Nodup :=
    fun ord => (sortRows_perm _).nodup_iff.mpr (hinj ord)
  -- the other order of a pair is sorted from the rows of the first
  have hswap : ∀ ord : SortOrder, sortRows ((sortRows (rows.map ord.ofSpo)).map fun r => (r.1, r.2.2, r.2.1)) =
      sortRows (rows.map fun t => ((ord.ofSpo t).1, (ord.ofSpo t).2.2, (ord.ofSpo t).2.1)) := by
    intro ord
    have hperm := (sortRows_perm (rows.map ord.ofSpo)).map fun r : Row => (r.1, r.2.2, r.2.1)
    rw [map_map] at hperm
    exact sortRows_congr hperm
  have hpso : dedupRuns (sortRows (rows.map fun t => (t.2.1, t.1, t.2.2))) =
      sortRows (rows.map SortOrder.pso.ofSpo) := dedupRuns_of_nodup (hsort .pso)
  have hops : dedupRuns (sortRows (rows.map fun t => (t.2.2, t.2.1, t.1))) =
      sortRows (rows.map SortOrder.ops.ofSpo) := dedupRuns_of_nodup (hsort .ops)
  simp only
  rw [hpso, hops, buildPairSharedC0_eq hsorted hnodup hne',
    buildPairSharedC0_eq (sortRows_sorted _) (hsort .pso) (sortRows_ne_nil (by simpa using hne')),
    buildPairSharedC0_eq (sortRows_sorted _) (hsort .ops) (sortRows_ne_nil (by simpa using hne')), hswap, hswap]
  show Except.ok _ = _
  congr 2
  funext ord
  have hspo : sortRows (rows.map SortOrder.spo.ofSpo) = rows := by
    rw [show SortOrder.spo.ofSpo = id from rfl, map_id, sortRows_of_sorted hsorted]
  cases ord with
  | spo => rw [hspo]; rfl
  | _ => rfl

/-! ## The ring of the triples -/

/-- The ids of a row of numbers. -/
def rename (v : List Nat × List Nat × List Nat) (r : Row) : Row :=
  (idOf v.1 r.1, idOf v.2.1 r.2.1, idOf v.2.2 r.2.2)

section Orders

variable {ts : List Row} {vs vp vo : List Nat} (hs : GoodVocab vs) (hp : GoodVocab vp) (ho : GoodVocab vo)
  (hin : ∀ t ∈ ts, t.1 ∈ vs ∧ t.2.1 ∈ vp ∧ t.2.2 ∈ vo)

include hs hp ho

omit hin in
theorem goodVocab_vocabsOf (ord : SortOrder) : GoodVocab (vocabsOf vs vp vo ord).1 ∧
    GoodVocab (vocabsOf vs vp vo ord).2.1 ∧ GoodVocab (vocabsOf vs vp vo ord).2.2 := by
  cases ord <;> exact ⟨‹_›, ‹_›, ‹_›⟩

include hin

theorem rename_localRow (ord : SortOrder) {t : Row} (ht : t ∈ ts) :
    rename (vocabsOf vs vp vo ord) (ord.ofSpo (localRow vs vp vo t)) = ord.ofSpo t := by
  rcases hin t ht with ⟨hts, htp, hto⟩
  have h₀ := idOf_localId hs hts
  have h₁ := idOf_localId hp htp
  have h₂ := idOf_localId ho hto
  cases ord <;> simp [rename, vocabsOf, SortOrder.ofSpo, localRow, h₀, h₁, h₂]

theorem localRow_lt (ord : SortOrder) {t : Row} (ht : t ∈ ts) :
    (ord.ofSpo (localRow vs vp vo t)).1 < (vocabsOf vs vp vo ord).1.length ∧
      (ord.ofSpo (localRow vs vp vo t)).2.1 < (vocabsOf vs vp vo ord).2.1.length ∧
      (ord.ofSpo (localRow vs vp vo t)).2.2 < (vocabsOf vs vp vo ord).2.2.length := by
  rcases hin t ht with ⟨hts, htp, hto⟩
  have h₀ := localId_lt hs hts
  have h₁ := localId_lt hp htp
  have h₂ := localId_lt ho hto
  cases ord <;> exact ⟨‹_›, ‹_›, ‹_›⟩

theorem localRows_sorted (hsorted : ts.Pairwise fun a b => Row.le a b = true) :
    (ts.map (localRow vs vp vo)).Pairwise fun a b => Row.le a b = true := by
  rw [pairwise_map]
  refine hsorted.imp_of_mem ?_
  intro a b ha hb hle
  rcases hin a ha with ⟨has, hap, hao⟩
  rcases hin b hb with ⟨hbs, hbp, hbo⟩
  exact le_rename (localId_lt_localId hs has hbs) (localId_lt_localId hp hap hbp)
    (localId_lt_localId ho hao hbo) hle

theorem localRows_nodup (hnodup : ts.Nodup) : (ts.map (localRow vs vp vo)).Nodup := by
  refine List.Nodup.map_on ?_ hnodup
  intro a ha b hb heq
  have hid := congrArg (fun r => rename (vocabsOf vs vp vo .spo) (SortOrder.spo.ofSpo r)) heq
  rw [rename_localRow hs hp ho hin .spo ha, rename_localRow hs hp ho hin .spo hb] at hid
  exact Function.LeftInverse.injective SortOrder.spo.toSpo_ofSpo hid

theorem rename_rows (ord : SortOrder) :
    (sortRows ((ts.map (localRow vs vp vo)).map ord.ofSpo)).map (rename (vocabsOf vs vp vo ord)) =
      sortRows (ts.map ord.ofSpo) := by
  have hmem : ∀ r ∈ sortRows ((ts.map (localRow vs vp vo)).map ord.ofSpo),
      ∃ t ∈ ts, ord.ofSpo (localRow vs vp vo t) = r := by
    intro r hr
    rw [(sortRows_perm _).mem_iff, map_map, mem_map] at hr
    exact hr
  have hgood := goodVocab_vocabsOf hs hp ho ord
  refine eq_of_sorted ?_ ?_ (sortRows_sorted _)
  · have hperm := (sortRows_perm ((ts.map (localRow vs vp vo)).map ord.ofSpo)).map
      (rename (vocabsOf vs vp vo ord))
    have hback : ((ts.map (localRow vs vp vo)).map ord.ofSpo).map (rename (vocabsOf vs vp vo ord)) =
        ts.map ord.ofSpo := by
      rw [map_map, map_map]
      exact map_congr_left fun t ht => rename_localRow hs hp ho hin ord ht
    rw [hback] at hperm
    exact hperm.trans (sortRows_perm _).symm
  · rw [pairwise_map]
    refine (sortRows_sorted _).imp_of_mem ?_
    intro a b ha hb hle
    rcases hmem a ha with ⟨t, ht, rfl⟩
    rcases hmem b hb with ⟨t', ht', rfl⟩
    have hlt := localRow_lt hs hp ho hin ord ht'
    exact le_rename (fun hab => idOf_lt hgood.1 hab hlt.1) (fun hab => idOf_lt hgood.2.1 hab hlt.2.1)
      (fun hab => idOf_lt hgood.2.2 hab hlt.2.2) hle

theorem showsTrie_order (ord : SortOrder) (hne : ts ≠ []) (hnodup : ts.Nodup) :
    ShowsTrie ⟨LoudsTrie.ofTrie (Trie3.ofRows (sortRows ((ts.map (localRow vs vp vo)).map ord.ofSpo))),
      vocabsOf vs vp vo ord⟩ (Trie3.ofRows (sortRows (ts.map ord.ofSpo))) := by
  have hrange : ∀ r ∈ sortRows ((ts.map (localRow vs vp vo)).map ord.ofSpo),
      r.1 < (vocabsOf vs vp vo ord).1.length ∧ r.2.1 < (vocabsOf vs vp vo ord).2.1.length ∧
        r.2.2 < (vocabsOf vs vp vo ord).2.2.length := by
    intro r hr
    rw [(sortRows_perm _).mem_iff, map_map, mem_map] at hr
    rcases hr with ⟨t, ht, rfl⟩
    exact localRow_lt hs hp ho hin ord ht
  rcases goodVocab_vocabsOf hs hp ho ord with ⟨hg₀, hg₁, hg₂⟩
  have hne' : sortRows ((ts.map (localRow vs vp vo)).map ord.ofSpo) ≠ [] :=
    sortRows_ne_nil (by simpa using hne)
  have htrie : Trie3.mapKeys (idOf (vocabsOf vs vp vo ord).1) (idOf (vocabsOf vs vp vo ord).2.1)
      (idOf (vocabsOf vs vp vo ord).2.2)
      (Trie3.ofRows (sortRows ((ts.map (localRow vs vp vo)).map ord.ofSpo))) =
        Trie3.ofRows (sortRows (ts.map ord.ofSpo)) := by
    rw [← rename_rows hs hp ho hin ord]
    exact (Trie3.mapKeys_ofRows (fun a ha b hb => idOf_inj hg₀ (hrange a ha).1 (hrange b hb).1)
      (fun a ha b hb => idOf_inj hg₁ (hrange a ha).2.1 (hrange b hb).2.1)).symm
  have hsorted : (Trie3.ofRows (sortRows (ts.map ord.ofSpo))).Sorted :=
    Trie3.sorted_ofRows (sortRows_sorted _)
      ((sortRows_perm _).nodup_iff.mpr (hnodup.map (Function.LeftInverse.injective ord.toSpo_ofSpo)))
  rw [← htrie] at hsorted ⊢
  exact showsTrie_ofTrie (Trie3.full_ofRows hne') hg₀ hg₁ hg₂ (inRange_ofRows hne' hrange) hsorted

end Orders

/-- Each column has at most `2 ^ 32` distinct ids. -/
structure FitsU32 (triples : List Row) : Prop where
  subjects : (triples.map fun t => t.1).toFinset.card ≤ 2 ^ 32
  predicates : (triples.map fun t => t.2.1).toFinset.card ≤ 2 ^ 32
  objects : (triples.map fun t => t.2.2).toFinset.card ≤ 2 ^ 32

/-- The distinct triples, sorted. -/
def distinctSorted (triples : List Row) : List Row := dedupRuns (sortRows triples)

section Distinct

variable (triples : List Row)

theorem mem_distinctSorted {t : Row} : t ∈ distinctSorted triples ↔ t ∈ triples := by
  rw [distinctSorted, mem_dedupRuns, (sortRows_perm triples).mem_iff]

theorem distinctSorted_sorted : (distinctSorted triples).Pairwise fun a b => Row.le a b = true :=
  (sortRows_sorted triples).sublist (dedupRuns_sublist _)

theorem distinctSorted_nodup : (distinctSorted triples).Nodup := dedupRuns_nodup (sortRows_sorted triples)

theorem length_vocab (extract : Row → Nat) :
    (buildVocab extract (distinctSorted triples)).length = (triples.map extract).toFinset.card := by
  have hfinset : ((distinctSorted triples).map extract).toFinset = (triples.map extract).toFinset := by
    ext v
    simp only [mem_toFinset, mem_map, mem_distinctSorted]
  rw [length_buildVocab, hfinset]

/-- The vocabulary of a column of the triples. -/
def vocabOf (extract : Row → Nat) : List Nat := buildVocab extract (distinctSorted triples)

variable {triples}

theorem ringBuild_of_nil (hnil : distinctSorted triples = []) : ringBuild triples = .ok ⟨0, none⟩ := by
  unfold ringBuild
  rw [← distinctSorted, hnil]
  rfl

theorem ringBuild_of_ne_nil (hne : distinctSorted triples ≠ []) : ringBuild triples =
    (buildCltjData (distinctSorted triples) (vocabOf triples fun t => t.1) (vocabOf triples fun t => t.2.1)
      (vocabOf triples fun t => t.2.2)).map fun cltj => ⟨(distinctSorted triples).length, some cltj⟩ := by
  unfold ringBuild
  rw [← distinctSorted, if_neg (by simpa using hne)]
  rfl

end Distinct

variable {triples : List Row}

theorem data_ringBuild_of_nil (hnil : distinctSorted triples = []) :
    (Nova.ringBuild triples).n = 0 ∧ (Nova.ringBuild triples).data = none := by
  have habstract : Nova.ringBuild triples = .empty := by
    show (if (distinctSorted triples).length = 0 then _ else _) = _
    rw [if_pos (by rw [hnil]; rfl)]
  rw [habstract]
  exact ⟨rfl, rfl⟩

theorem data_ringBuild_of_ne_nil (hne : distinctSorted triples ≠ []) :
    (Nova.ringBuild triples).n = (distinctSorted triples).length ∧ ∃ d, (Nova.ringBuild triples).data = some d ∧
      ∀ ord, d.tries ord = Trie3.ofRows (sortRows ((distinctSorted triples).map ord.ofSpo)) := by
  have hspo : sortRows ((distinctSorted triples).map SortOrder.spo.ofSpo) = distinctSorted triples := by
    rw [show SortOrder.spo.ofSpo = id from rfl, map_id, sortRows_of_sorted (distinctSorted_sorted triples)]
  have habstract : Nova.ringBuild triples = ⟨(distinctSorted triples).length,
      some (Nova.buildCltjData (distinctSorted triples) (distinctSorted_sorted triples)
        (distinctSorted_nodup triples)), by
      simp only [Option.elim_some, Nova.buildCltjData]
      rw [Trie3.rows_ofRows]⟩ := by
    show (if (distinctSorted triples).length = 0 then _ else _) = _
    rw [if_neg (by simpa using hne)]
    rfl
  rw [habstract]
  refine ⟨rfl, _, rfl, ?_⟩
  intro ord
  cases ord with
  | spo =>
    rw [hspo]
    rfl
  | _ => rfl

/-- The numbers of the distinct triples. -/
def localRows (triples : List Row) : List Row :=
  (distinctSorted triples).map (localRow (vocabOf triples fun t => t.1) (vocabOf triples fun t => t.2.1)
    (vocabOf triples fun t => t.2.2))

/-- What the builder makes of the numbers, order by order. -/
def builtData (triples : List Row) : CltjData where
  tries := fun ord =>
    ⟨LoudsTrie.ofTrie (Trie3.ofRows (sortRows ((localRows triples).map ord.ofSpo))),
      vocabsOf (vocabOf triples fun t => t.1) (vocabOf triples fun t => t.2.1)
        (vocabOf triples fun t => t.2.2) ord⟩

section Fits

variable {triples : List Row} (hfits : FitsU32 triples)

include hfits

theorem goodVocab_vocabOf : GoodVocab (vocabOf triples fun t => t.1) ∧
    GoodVocab (vocabOf triples fun t => t.2.1) ∧ GoodVocab (vocabOf triples fun t => t.2.2) := by
  have hgood : ∀ extract : Row → Nat, (triples.map extract).toFinset.card ≤ 2 ^ 32 →
      GoodVocab (vocabOf triples extract) :=
    fun extract hcard => ⟨sorted_buildVocab _ _, by rw [vocabOf, length_vocab]; exact hcard⟩
  exact ⟨hgood _ hfits.subjects, hgood _ hfits.predicates, hgood _ hfits.objects⟩

omit hfits in
theorem mem_vocabOf {t : Row} (ht : t ∈ distinctSorted triples) : t.1 ∈ (vocabOf triples fun t => t.1) ∧
    t.2.1 ∈ (vocabOf triples fun t => t.2.1) ∧ t.2.2 ∈ vocabOf triples fun t => t.2.2 :=
  ⟨(mem_buildVocab _ _).mpr ⟨t, ht, rfl⟩, (mem_buildVocab _ _).mpr ⟨t, ht, rfl⟩,
    (mem_buildVocab _ _).mpr ⟨t, ht, rfl⟩⟩

theorem ringBuild_eq (hne : distinctSorted triples ≠ []) :
    ringBuild triples = .ok ⟨(distinctSorted triples).length, some (builtData triples)⟩ := by
  rcases goodVocab_vocabOf hfits with ⟨hs, hp, ho⟩
  have hin := fun t (ht : t ∈ distinctSorted triples) => mem_vocabOf ht
  rw [ringBuild_of_ne_nil hne, buildCltjData_eq
    (localRows_sorted hs hp ho hin (distinctSorted_sorted triples))
    (localRows_nodup hs hp ho hin (distinctSorted_nodup triples)) hne]
  rfl

/-- With few enough ids, the ring built bit by bit refines the abstract one. -/
theorem ringBuild_refines : ∃ r, ringBuild triples = .ok r ∧ Refines r (Nova.ringBuild triples) := by
  rcases goodVocab_vocabOf hfits with ⟨hs, hp, ho⟩
  have hin := fun t (ht : t ∈ distinctSorted triples) => mem_vocabOf ht
  by_cases hnil : distinctSorted triples = []
  · rcases data_ringBuild_of_nil hnil with ⟨hn, hdata⟩
    refine ⟨_, ringBuild_of_nil hnil, hn.symm, ?_⟩
    rw [hdata]
    exact .empty
  · rcases data_ringBuild_of_ne_nil hnil with ⟨hn, d, hdata, htries⟩
    refine ⟨_, ringBuild_eq hfits hnil, hn.symm, ?_⟩
    rw [hdata]
    refine .tries ?_
    intro ord
    rw [htries ord]
    exact showsTrie_order hs hp ho hin ord hnil (distinctSorted_nodup triples)

end Fits

/-! ## Any number of ids -/

/-- A succinct trie that the builder made of some rows. -/
def FromRows (x : LoudsTrie) : Prop :=
  ∃ rows, rows ≠ [] ∧ LoudsTrie.buildLoudsFromSorted rows = .ok (some x)

theorem buildLouds_ok (hne : rows ≠ []) : ∃ x, buildLouds rows = .ok x ∧ FromRows x := by
  rcases buildLoudsFromSorted_ok hne with ⟨x, hbuild, -⟩
  refine ⟨x, ?_, rows, hne, hbuild⟩
  rw [buildLouds, hbuild]
  rfl

theorem dedupRuns_ne_nil (hne : rows ≠ []) : dedupRuns rows ≠ [] := by
  rcases exists_mem_of_ne_nil _ hne with ⟨r, hr⟩
  exact ne_nil_of_mem (mem_dedupRuns.mpr hr)

theorem secondarySorted_ne_nil (hne : primary ≠ []) : secondarySorted primary ≠ [] := by
  rcases exists_mem_of_ne_nil _ (groupsBy_ne_nil (fun r => r.1) hne) with ⟨group, hgroup⟩
  have hrows := ne_nil_of_mem_groupsBy hgroup
  have hsorted : sortRows (group.map fun r => (r.1, r.2.2, r.2.1)) ≠ [] := sortRows_ne_nil (by simpa using hrows)
  rcases exists_mem_of_ne_nil _ hsorted with ⟨row, hrow⟩
  exact dedupRuns_ne_nil (ne_nil_of_mem (mem_flatMap.mpr ⟨group, hgroup, hrow⟩))

theorem buildPairSharedC0_ok (hne : primary ≠ []) (vp vs : List Nat × List Nat × List Nat) :
    ∃ x y, buildPairSharedC0 primary vp vs = .ok (⟨x, vp⟩, ⟨y, vs⟩) ∧ FromRows x ∧ FromRows y := by
  rcases buildLouds_ok hne with ⟨x, hx, hxrows⟩
  rcases buildLouds_ok (secondarySorted_ne_nil hne) with ⟨y, hy, hyrows⟩
  refine ⟨x, y, ?_, hxrows, hyrows⟩
  rw [buildPairSharedC0, hx, hy]
  rfl

theorem buildCltjData_ok {ts : List Row} (hne : ts ≠ []) (vs vp vo : List Nat) :
    ∃ d, buildCltjData ts vs vp vo = .ok d ∧
      ∀ ord, (d.tries ord).vocab = vocabsOf vs vp vo ord ∧ FromRows (d.tries ord).louds := by
  have hmap : ∀ f : Row → Row, dedupRuns (sortRows ((ts.map fun t =>
      (localId vs t.1, localId vp t.2.1, localId vo t.2.2)).map f)) ≠ [] :=
    fun f => dedupRuns_ne_nil (sortRows_ne_nil (by simpa using hne))
  have hlocal : (ts.map fun t => (localId vs t.1, localId vp t.2.1, localId vo t.2.2)) ≠ [] := by
    simpa using hne
  rcases buildPairSharedC0_ok hlocal (vs, vp, vo) (vs, vo, vp) with ⟨spo, sop, hs, hspo, hsop⟩
  rcases buildPairSharedC0_ok (hmap fun t => (t.2.1, t.1, t.2.2)) (vp, vs, vo) (vp, vo, vs) with
    ⟨pso, pos, hp, hpso, hpos⟩
  rcases buildPairSharedC0_ok (hmap fun t => (t.2.2, t.2.1, t.1)) (vo, vp, vs) (vo, vs, vp) with
    ⟨ops, osp, ho, hops, hosp⟩
  refine ⟨_, by rw [buildCltjData]; simp only [hs, hp, ho]; rfl, ?_⟩
  intro ord
  cases ord <;> exact ⟨rfl, ‹_›⟩

/-- What a built ring holds. -/
theorem ringBuild_ok (triples : List Row) :
    (distinctSorted triples = [] ∧ ringBuild triples = .ok ⟨0, none⟩) ∨
      ∃ d, distinctSorted triples ≠ [] ∧
        ringBuild triples = .ok ⟨(distinctSorted triples).length, some d⟩ ∧
        ∀ ord, (d.tries ord).vocab = vocabsOf (vocabOf triples fun t => t.1) (vocabOf triples fun t => t.2.1)
          (vocabOf triples fun t => t.2.2) ord ∧ FromRows (d.tries ord).louds := by
  by_cases hnil : distinctSorted triples = []
  · exact .inl ⟨hnil, ringBuild_of_nil hnil⟩
  · right
    rcases buildCltjData_ok hnil (vocabOf triples fun t => t.1) (vocabOf triples fun t => t.2.1)
      (vocabOf triples fun t => t.2.2) with ⟨d, hbuild, htries⟩
    refine ⟨d, hnil, ?_, htries⟩
    rw [ringBuild_of_ne_nil hnil, hbuild]
    rfl

/-! ## What a ring represents -/

/-- The rows are listed once each, in increasing order. -/
def StrictlyIncreasing (rows : List Row) : Prop := rows.Pairwise fun a b => Row.le a b = true ∧ a ≠ b

/-- The two tries of a pair have the same first level. -/
def SharedTop (d : CltjData) (ord ord' : SortOrder) : Prop :=
  (d.tries ord).louds.l0 = (d.tries ord').louds.l0 ∧
    (d.tries ord).louds.rootDegree = (d.tries ord').louds.rootDegree

/-- The ring holds exactly the triples, in each of its orders. -/
structure Represents (r : GraphRing) (triples : List Row) : Prop where
  orders : ∀ ord, ∃ rows, r.collectAll ord = .ok rows ∧ StrictlyIncreasing rows ∧
    ∀ row, row ∈ rows ↔ ord.toSpo row ∈ triples
  shared : ∀ d, r.data = some d → SharedTop d .spo .sop ∧ SharedTop d .pso .pos ∧ SharedTop d .ops .osp
  spoTriples : ∃ rows, r.spoTriples = .ok rows ∧ StrictlyIncreasing rows ∧ ∀ t, t ∈ rows ↔ t ∈ triples
  contains : ∀ s p o, r.contains s p o = .ok (decide ((s, p, o) ∈ triples))
  count : r.n = triples.toFinset.card

theorem keys_ofRows_eq {rows' : List Row} (hsorted : rows.Pairwise fun a b => Row.le a b = true)
    (hsorted' : rows'.Pairwise fun a b => Row.le a b = true)
    (hfirst : ∀ k, (∃ b, (k, b) ∈ rows) ↔ ∃ b, (k, b) ∈ rows') :
    (Trie3.ofRows rows).keys = (Trie3.ofRows rows').keys := by
  have hkeys : ∀ rows : List Row, (Trie3.ofRows rows).keys = (Level.group rows).keys := by
    intro rows
    rw [Level.keys, Trie3.ofRows, map_map]
    rfl
  have hinc : ∀ {rows : List Row}, (rows.Pairwise fun a b => Row.le a b = true) →
      (Level.group rows).keys.Pairwise (· < ·) := by
    intro rows hsorted
    rw [Level.keys, pairwise_map]
    refine Level.group_increasing (hsorted.imp ?_)
    intro a b hle
    rw [Row.le_iff] at hle
    omega
  rw [hkeys, hkeys]
  refine List.Perm.eq_of_pairwise (fun a b _ _ hab hba => absurd hab (Nat.lt_asymm hba)) (hinc hsorted)
    (hinc hsorted') ?_
  rw [perm_ext_iff_of_nodup ((hinc hsorted).imp Nat.ne_of_lt) ((hinc hsorted').imp Nat.ne_of_lt)]
  intro k
  rw [Level.mem_keys_group, Level.mem_keys_group, hfirst]

theorem sharedTop_built (hne : distinctSorted triples ≠ []) {ord ord' : SortOrder}
    (hfirst : ∀ t, (ord.ofSpo t).1 = (ord'.ofSpo t).1) : SharedTop (builtData triples) ord ord' := by
  have hrows : ∀ ord : SortOrder, sortRows ((localRows triples).map ord.ofSpo) ≠ [] :=
    fun ord => sortRows_ne_nil (by simpa [localRows] using hne)
  have hmem : ∀ (ord : SortOrder) (k : Nat), (∃ b, (k, b) ∈ sortRows ((localRows triples).map ord.ofSpo)) ↔
      ∃ t ∈ localRows triples, (ord.ofSpo t).1 = k := by
    intro ord k
    simp only [(sortRows_perm _).mem_iff, mem_map]
    constructor
    · intro h
      rcases h with ⟨b, t, ht, heq⟩
      exact ⟨t, ht, by rw [heq]⟩
    · intro h
      rcases h with ⟨t, ht, rfl⟩
      exact ⟨(ord.ofSpo t).2, t, ht, rfl⟩
  have hkeys : (Trie3.ofRows (sortRows ((localRows triples).map ord.ofSpo))).keys =
      (Trie3.ofRows (sortRows ((localRows triples).map ord'.ofSpo))).keys := by
    refine keys_ofRows_eq (sortRows_sorted _) (sortRows_sorted _) ?_
    intro k
    rw [hmem, hmem]
    simp only [hfirst]
  have hlen := congrArg List.length hkeys
  rw [Trie3.length_keys, Trie3.length_keys] at hlen
  refine ⟨congrArg (0 :: ·) hkeys, ?_⟩
  show (LoudsTrie.ofTrie _).rootDegree = (LoudsTrie.ofTrie _).rootDegree
  rw [rootDegree_ofTrie (Trie3.full_ofRows (hrows ord)),
    rootDegree_ofTrie (Trie3.full_ofRows (hrows ord')), hlen]

theorem rows_ringBuild (triples : List Row) (ord : SortOrder) :
    (Nova.ringBuild triples).data.elim [] (fun d => (d.tries ord).rows) =
      sortRows ((distinctSorted triples).map ord.ofSpo) := by
  by_cases hnil : distinctSorted triples = []
  · rw [(data_ringBuild_of_nil hnil).2, hnil]
    rfl
  · rcases data_ringBuild_of_ne_nil hnil with ⟨-, d, hdata, htries⟩
    rw [hdata, Option.elim_some, htries ord, Trie3.rows_ofRows]

/-- Each of the orders holds every triple once, sorted. -/
theorem represents_of_fits (hfits : FitsU32 triples) :
    ∃ r, ringBuild triples = .ok r ∧ Represents r triples := by
  rcases ringBuild_refines hfits with ⟨r, hbuild, href⟩
  refine ⟨r, hbuild, ?_⟩
  have horder : ∀ ord, ∃ rows, r.collectAll ord = .ok rows ∧ StrictlyIncreasing rows ∧
      ∀ row, row ∈ rows ↔ ord.toSpo row ∈ triples := by
    intro ord
    have hnodup : (sortRows ((distinctSorted triples).map ord.ofSpo)).Nodup :=
      (sortRows_perm _).nodup_iff.mpr
        ((distinctSorted_nodup triples).map (Function.LeftInverse.injective ord.toSpo_ofSpo))
    have hrows := href.collectAll_eq ord
    rw [rows_ringBuild] at hrows
    refine ⟨_, hrows, (sortRows_sorted _).and hnodup, ?_⟩
    intro row
    rw [(sortRows_perm _).mem_iff, mem_map, ← mem_distinctSorted triples]
    constructor
    · intro h
      rcases h with ⟨t, ht, rfl⟩
      rw [ord.toSpo_ofSpo]
      exact ht
    · intro h
      exact ⟨_, h, ord.ofSpo_toSpo row⟩
  constructor
  · exact horder
  · intro d hd
    have hne : distinctSorted triples ≠ [] := by
      intro hnil
      rw [ringBuild_of_nil hnil] at hbuild
      cases hbuild
      cases hd
    rw [ringBuild_eq hfits hne] at hbuild
    cases hbuild
    cases hd
    exact ⟨sharedTop_built hne fun _ => rfl, sharedTop_built hne fun _ => rfl, sharedTop_built hne fun _ => rfl⟩
  · exact horder .spo
  · intro s p o
    have hiff : (Nova.ringBuild triples).contains s p o = true ↔ (s, p, o) ∈ triples := by
      rw [GraphRing.contains_iff, GraphRing.mem_triples_ringBuild]
    rw [href.contains_eq, Bool.eq_iff_iff.mpr (hiff.trans decide_eq_true_iff.symm)]
  · have hset : (Nova.ringBuild triples).triples = triples.toFinset := by
      ext t
      rw [GraphRing.mem_triples_ringBuild, mem_toFinset]
    rw [href.n_eq, GraphRing.n_eq_card, hset]

/-! ## Numbers that wrap around -/

theorem mem_whileNotEnd {α : Type} {body : TrieIter → Except Panic (List α)} {it : TrieIter} {out : List α} {a : α}
    (h : whileNotEnd body it = .ok out) (ha : a ∈ out) :
    ∃ i here, it.map (fun i => i.depth) = some i.depth ∧ body (some i) = .ok here ∧ a ∈ here := by
  fun_induction whileNotEnd body it generalizing out with
  | case1 it hend =>
    cases h
    cases ha
  | case2 it hend ih =>
    rcases bind_ok h with ⟨here, hhere, h⟩
    rcases bind_ok h with ⟨rest, hrest, h⟩
    cases h
    cases it with
    | none => exact absurd rfl hend
    | some i =>
      rcases mem_append.mp ha with ha | ha
      · exact ⟨i, here, rfl, hhere, ha⟩
      · rcases ih hrest ha with ⟨i', here', hdepth, hbody, hmem⟩
        refine ⟨i', here', ?_, hbody, hmem⟩
        rw [← hdepth]
        have hle : i.pos ≤ i.hi := by simpa [atEnd] using hend
        simp only [CltjTrie.advance, CltjTrieIter.advanceC_of_le hle, Option.map_some]

theorem labelAt_lt_pow (x : LoudsTrie) (pos : Nat) : x.labelAt pos < 2 ^ 32 := by
  have hmod : ∀ n, asU32 n < 2 ^ 32 := fun n => Nat.mod_lt _ (by decide)
  unfold LoudsTrie.labelAt
  split
  · decide
  · split
    · exact hmod _
    · split <;> exact hmod _

section Keys

variable {x : CltjTrie}

theorem key_bounded {i : CltjTrieIter} (h : x.key (some i) = .ok v) :
    ∃ k, k < 2 ^ 32 ∧ (x.vocabSlice i.depth)[k]? = some v := by
  refine ⟨x.louds.labelAt i.pos, labelAt_lt_pow _ _, ?_⟩
  have hkey : x.keyC i = .ok v := h
  rw [keyC] at hkey
  split at hkey
  · next v' hv =>
    cases hkey
    exact hv
  · cases hkey

theorem openIter_depth {i : CltjTrieIter} {child : TrieIter} {d : Nat} (h : x.openIter (some i) = .ok child)
    (hd : child.map (fun i => i.depth) = some d) : d = i.depth + 1 := by
  have hopen : x.openConcrete i = .ok child := h
  rw [openConcrete] at hopen
  split at hopen
  · cases hopen
    cases hd
  · rcases bind_ok hopen with ⟨childV, -, hopen⟩
    simp only at hopen
    split at hopen <;> cases hopen <;> cases hd
    rfl

theorem collectAll_bounded (h : x.collectAll = .ok rows) {row : Row} (hrow : row ∈ rows) :
    (∃ k, k < 2 ^ 32 ∧ x.vocab.1[k]? = some row.1) ∧ (∃ k, k < 2 ^ 32 ∧ x.vocab.2.1[k]? = some row.2.1) ∧
      ∃ k, k < 2 ^ 32 ∧ x.vocab.2.2[k]? = some row.2.2 := by
  rcases mem_whileNotEnd h hrow with ⟨i₀, out₀, hdepth₀, hbody₀, hmem₀⟩
  rcases bind_ok hbody₀ with ⟨a, ha, hbody₀⟩
  rcases bind_ok hbody₀ with ⟨it₁, hopen₁, hloop₁⟩
  rcases mem_whileNotEnd hloop₁ hmem₀ with ⟨i₁, out₁, hdepth₁, hbody₁, hmem₁⟩
  rcases bind_ok hbody₁ with ⟨b, hb, hbody₁⟩
  rcases bind_ok hbody₁ with ⟨it₂, hopen₂, hloop₂⟩
  rcases mem_whileNotEnd hloop₂ hmem₁ with ⟨i₂, out₂, hdepth₂, hbody₂, hmem₂⟩
  rcases bind_ok hbody₂ with ⟨c, hc, hbody₂⟩
  cases hbody₂
  rw [mem_singleton] at hmem₂
  have h₀ : i₀.depth = 0 := by
    unfold iterD0 iterD0Concrete at hdepth₀
    simp only at hdepth₀
    split at hdepth₀
    · cases hdepth₀
    · exact (Option.some.inj hdepth₀).symm
  have h₁ : i₁.depth = 1 := by rw [openIter_depth hopen₁ hdepth₁, h₀]
  have h₂ : i₂.depth = 2 := by rw [openIter_depth hopen₂ hdepth₂, h₁]
  have hka := key_bounded ha
  have hkb := key_bounded hb
  have hkc := key_bounded hc
  rw [h₀] at hka
  rw [h₁] at hkb
  rw [h₂] at hkc
  rw [hmem₂]
  exact ⟨hka, hkb, hkc⟩

end Keys

theorem card_le_of_bounded (extract : Row → Nat)
    (h : ∀ t ∈ triples, ∃ k, k < 2 ^ 32 ∧ (vocabOf triples extract)[k]? = some (extract t)) :
    (triples.map extract).toFinset.card ≤ 2 ^ 32 := by
  rw [← length_vocab]
  by_contra hlong
  have hlt : 2 ^ 32 < (vocabOf triples extract).length := Nat.lt_of_not_le hlong
  rcases (mem_buildVocab _ _).mp (getElem_mem hlt) with ⟨t, ht, hext⟩
  rcases h t ((mem_distinctSorted triples).mp ht) with ⟨k, hk, hget⟩
  rw [hext] at hget
  rcases List.getElem?_eq_some_iff.mp hget with ⟨hlt', heq⟩
  have hidx := (List.Nodup.getElem_inj_iff (nodup_buildVocab _ _)).mp heq
  omega

theorem fits_of_enumerated {r : GraphRing} (hbuild : ringBuild triples = .ok r)
    (hrows : r.spoTriples = .ok rows) (hmem : ∀ t ∈ triples, t ∈ rows) : FitsU32 triples := by
  rcases ringBuild_ok triples with ⟨hnil, -⟩ | ⟨d, hne, hbuild', htries⟩
  · have hempty : triples = [] := by
      rw [eq_nil_iff_forall_not_mem]
      intro t ht
      rw [← mem_distinctSorted, hnil] at ht
      cases ht
    rw [hempty]
    constructor <;> decide
  · rw [hbuild'] at hbuild
    cases hbuild
    have hbound : ∀ t ∈ triples,
        (∃ k, k < 2 ^ 32 ∧ (vocabOf triples fun t => t.1)[k]? = some t.1) ∧
        (∃ k, k < 2 ^ 32 ∧ (vocabOf triples fun t => t.2.1)[k]? = some t.2.1) ∧
        ∃ k, k < 2 ^ 32 ∧ (vocabOf triples fun t => t.2.2)[k]? = some t.2.2 := by
      intro t ht
      have hb := collectAll_bounded hrows (hmem t ht)
      rw [(htries .spo).1] at hb
      exact hb
    exact ⟨card_le_of_bounded _ fun t ht => (hbound t ht).1, card_le_of_bounded _ fun t ht => (hbound t ht).2.1,
      card_le_of_bounded _ fun t ht => (hbound t ht).2.2⟩

theorem fits_of_represents {r : GraphRing} (hbuild : ringBuild triples = .ok r)
    (hrep : Represents r triples) : FitsU32 triples := by
  rcases hrep.spoTriples with ⟨rows, hrows, -, hmem⟩
  exact fits_of_enumerated hbuild hrows fun t ht => (hmem t).mpr ht

theorem not_fitsU32_subjects : ¬FitsU32 ((List.range (2 ^ 32 + 1)).map fun s => (s, 0, 0)) := by
  intro hfits
  have hcard := hfits.subjects
  rw [map_map, show ((fun t : Row => t.1) ∘ fun s => (s, 0, 0)) = id from rfl, map_id,
    toFinset_card_of_nodup nodup_range, length_range] at hcard
  exact absurd hcard (by decide)

/-- The ring represents its triples exactly when the numbers of their ids fit in 32 bits. -/
theorem ringBuild_represents_iff (triples : List Row) :
    (∃ r, ringBuild triples = .ok r ∧ Represents r triples) ↔ FitsU32 triples := by
  constructor
  · intro h
    rcases h with ⟨r, hbuild, hrep⟩
    exact fits_of_represents hbuild hrep
  · exact represents_of_fits

/-- One id too many: `2 ^ 32 + 1` subjects with one predicate and object. -/
theorem ringBuild_misses_subject :
    ¬ ∃ r, ringBuild ((List.range (2 ^ 32 + 1)).map fun s => (s, 0, 0)) = .ok r ∧
      Represents r ((List.range (2 ^ 32 + 1)).map fun s => (s, 0, 0)) := by
  intro h
  rcases h with ⟨r, hbuild, hrep⟩
  exact not_fitsU32_subjects (fits_of_represents hbuild hrep)

/-! ## Patterns -/

/-- Every pattern is answered by the triples that agree with it, once each, and
`contains` tells whether there is one. -/
structure AnswersPatterns (r : GraphRing) (triples : List Row) : Prop where
  matched : ∀ s p o, ∃ rows, r.matchTriples s p o = .ok rows ∧ rows.Nodup ∧
    ∀ t, t ∈ rows ↔ t ∈ triples ∧ Nova.GraphRing.Matches s p o t
  contains : ∀ s p o, ∃ rows, r.matchTriples (some s) (some p) (some o) = .ok rows ∧
    r.contains s p o = .ok (decide (rows ≠ []))

theorem answersPatterns_of_refines {r : GraphRing} (h : Refines r (Nova.ringBuild triples)) :
    AnswersPatterns r triples where
  matched := by
    intro s p o
    refine ⟨_, h.matchTriples_eq s p o, GraphRing.matchTriples_nodup s p o, fun t => ?_⟩
    rw [GraphRing.mem_matchTriples, GraphRing.mem_triples_ringBuild]
  contains := by
    intro s p o
    refine ⟨_, h.matchTriples_eq _ _ _, ?_⟩
    have hiff : (Nova.ringBuild triples).contains s p o = true ↔
        (Nova.ringBuild triples).matchTriples (some s) (some p) (some o) ≠ [] := by
      rw [GraphRing.contains_iff, ne_nil_iff_exists_cons]
      constructor
      · intro hmem
        have hrow : (s, p, o) ∈ (Nova.ringBuild triples).matchTriples (some s) (some p) (some o) := by
          rw [GraphRing.mem_matchTriples]
          refine ⟨hmem, ?_⟩
          simp [GraphRing.Matches]
        cases hrows : (Nova.ringBuild triples).matchTriples (some s) (some p) (some o) with
        | nil =>
          rw [hrows] at hrow
          cases hrow
        | cons t rows => exact ⟨t, rows, rfl⟩
      · intro hcons
        rcases hcons with ⟨t, rows, hrows⟩
        have ht : t ∈ (Nova.ringBuild triples).matchTriples (some s) (some p) (some o) := by
          rw [hrows]
          exact mem_cons_self
        -- all three columns are bound
        rcases GraphRing.mem_matchTriples.mp ht with ⟨hmem, hs, hp, ho⟩
        have heq : t = (s, p, o) := Prod.ext (hs s rfl) (Prod.ext (hp p rfl) (ho o rfl))
        rw [← heq]
        exact hmem
    rw [h.contains_eq]
    congr 1
    rw [Bool.eq_iff_iff, hiff, decide_eq_true_iff]

/-- A ring answers every pattern exactly when the numbers of its ids fit in 32 bits. -/
theorem ringBuild_answersPatterns_iff (triples : List Row) :
    (∃ r, ringBuild triples = .ok r ∧ AnswersPatterns r triples) ↔ FitsU32 triples := by
  constructor
  · intro h
    rcases h with ⟨r, hbuild, hans⟩
    rcases hans.matched none none none with ⟨rows, hrows, -, hmem⟩
    refine fits_of_enumerated hbuild hrows fun t ht => (hmem t).mpr ⟨ht, ?_⟩
    simp [GraphRing.Matches]
  · intro hfits
    rcases ringBuild_refines hfits with ⟨r, hbuild, href⟩
    exact ⟨r, hbuild, answersPatterns_of_refines href⟩

/-- With one subject too many a scan misses a triple. -/
theorem scan_misses_subject :
    ¬ ∃ r, ringBuild ((List.range (2 ^ 32 + 1)).map fun s => (s, 0, 0)) = .ok r ∧
      AnswersPatterns r ((List.range (2 ^ 32 + 1)).map fun s => (s, 0, 0)) := by
  intro h
  rcases h with ⟨r, hbuild, hans⟩
  rcases hans.matched none none none with ⟨rows, hrows, -, hmem⟩
  refine not_fitsU32_subjects (fits_of_enumerated hbuild hrows fun t ht => (hmem t).mpr ⟨ht, ?_⟩)
  simp [GraphRing.Matches]

/-! ## Reloading -/

/-- Two tries answer every navigation query alike. -/
structure TrieAlike (x y : CltjTrie) : Prop where
  labelAt : ∀ pos, x.louds.labelAt pos = y.louds.labelAt pos
  degree : ∀ v, x.louds.degree v = y.louds.degree v
  rootDegree : x.louds.rootDegree = y.louds.rootDegree
  child : ∀ pos, x.louds.childFromLabelPos pos = y.louds.childFromLabelPos pos
  leap : ∀ lo hi c, x.louds.leap lo hi c = y.louds.leap lo hi c
  ids : ∀ d, x.vocabSlice d = y.vocabSlice d

/-- Two rings answer every query alike. -/
structure RingAlike (r r' : GraphRing) : Prop where
  n : r.n = r'.n
  tries : (r.data = none ∧ r'.data = none) ∨
    ∃ d d', r.data = some d ∧ r'.data = some d' ∧ ∀ ord, TrieAlike (d.tries ord) (d'.tries ord)
  collectAll : ∀ ord, r.collectAll ord = r'.collectAll ord
  spoTriples : r.spoTriples = r'.spoTriples
  contains : ∀ s p o, r.contains s p o = r'.contains s p o
  matchTriples : ∀ s p o, r.matchTriples s p o = r'.matchTriples s p o

theorem RingAlike.refl (r : GraphRing) : RingAlike r r where
  n := rfl
  tries := by
    cases hdata : r.data with
    | none => exact .inl ⟨rfl, rfl⟩
    | some d =>
      right
      exact ⟨d, d, rfl, rfl,
        fun ord => ⟨fun _ => rfl, fun _ => rfl, rfl, fun _ => rfl, fun _ _ _ => rfl, fun _ => rfl⟩⟩
  collectAll := fun _ => rfl
  spoTriples := rfl
  contains := fun _ _ _ => rfl
  matchTriples := fun _ _ _ => rfl

/-- The boundaries read off the bits are those that are kept, and they are the sizes of
the levels that the builder wrote. -/
def BoundariesAgree (x : LoudsTrie) : Prop :=
  LoudsTrie.depthBoundariesFromTBits x.t.tail x.lLen = .ok (x.d1Start, x.d2Start) ∧
    ∃ rows, LoudsTrie.buildLoudsFromSorted rows = .ok (some x) ∧
      x.d1Start = 1 + (LoudsTrie.groupsC0 rows).length ∧
      x.d2Start = x.d1Start + (LoudsTrie.groupsC1 rows).length

theorem boundariesAgree_of_fromRows {x : LoudsTrie} (h : FromRows x) : BoundariesAgree x := by
  rcases h with ⟨rows, hne, hbuild⟩
  rcases buildLoudsFromSorted_ok hne with ⟨x', hbuild', ht, hlen, hd1, hd2⟩
  rw [hbuild'] at hbuild
  cases hbuild
  have hdepths := depthBoundaries_built hne
  refine ⟨?_, rows, hbuild', hd1, ?_⟩
  · rw [ht, hlen, hd1, hd2]
    exact hdepths
  · rw [hd1, hd2]

theorem fromSnapshot_intoSnapshot {d : CltjData} {vs vp vo : List Nat}
    (h : ∀ ord, (d.tries ord).vocab = vocabsOf vs vp vo ord) :
    CltjData.fromSnapshot d.intoSnapshot = d := by
  have hspo := h .spo
  rcases d with ⟨tries⟩
  unfold CltjData.intoSnapshot CltjData.fromSnapshot
  congr 1
  funext ord
  simp only at hspo h ⊢
  rw [hspo]
  show CltjTrie.mk _ (vocabsOf vs vp vo ord) = _
  rw [← h ord]

/-- A ring that was taken apart and put together again answers as before, and its depth
boundaries are those of its bits. -/
theorem restored_ring_answers_alike (triples : List Row) :
    ∃ r snap, ringBuild triples = .ok r ∧ r.intoSnapshot = .ok snap ∧
      RingAlike r (GraphRing.fromSnapshot snap) ∧
      ∀ d, (GraphRing.fromSnapshot snap).data = some d → ∀ ord, BoundariesAgree (d.tries ord).louds := by
  rcases ringBuild_ok triples with ⟨-, hbuild⟩ | ⟨d, hne, hbuild, htries⟩
  · refine ⟨⟨0, none⟩, _, hbuild, rfl, RingAlike.refl _, ?_⟩
    intro d hd
    cases hd
  · have hpos := length_pos_of_ne_nil hne
    have hreload : GraphRing.fromSnapshot ⟨(distinctSorted triples).length, d.intoSnapshot⟩ =
        ⟨(distinctSorted triples).length, some d⟩ := by
      unfold GraphRing.fromSnapshot
      rw [if_pos hpos, fromSnapshot_intoSnapshot fun ord => (htries ord).1]
    refine ⟨_, _, hbuild, rfl, ?_, ?_⟩
    · simp only
      rw [hreload]
      exact RingAlike.refl _
    · simp only
      rw [hreload]
      intro d' hd' ord
      cases hd'
      exact boundariesAgree_of_fromRows (htries ord).2

end Cltj

end Nova
