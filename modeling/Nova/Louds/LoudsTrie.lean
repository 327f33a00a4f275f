import Nova.Core.DictCompact
import Nova.Lib.LevelOrder
import Mathlib.Data.List.GetD

/-!
# Succinct tries

The bit-level encoding of one trie of a ring: a bit vector with the degrees of the nodes
in level order, and the labels of the edges, kept apart by depth. A dummy entry stands at
position 0 of both, so that the root is node 0.

`buildLoudsFromSorted_eq`: what is built from sorted rows is the encoding of the trie of
these rows (`ofTrie`). Navigation finds the nodes of that trie again:
`childFromLabelPos_ofTrie` and `degree_ofTrie` lead from an edge to the edges below it,
`labelAt_ofTrie` reads their labels, and `leap_spec` is the search among them.

The packing of the labels is not modelled: a vector of labels is the list of them, and
the width of a region is that of its largest label.
-/

namespace Nova

open Nova.Lib Nova.DictCompact List

structure LoudsTrie where
  t : List Bool
  l0 : List Nat
  l1 : List Nat
  l2 : List Nat
  d1Start : Nat
  d2Start : Nat
  lLen : Nat
deriving DecidableEq

namespace LoudsTrie

/-! ## Building -/

/-- The loop of `depth_boundaries_from_t_bits`: the degrees of the next `count` nodes. -/
def sumDegrees (tBits : List Bool) : Nat → Nat → Nat
  | 0, _ => 0
  | count + 1, i =>
    if tBits.length ≤ i then 0
    else
      let blockEnd := match (tBits.drop i).idxOf? true with
        | some p => i + p
        | none => tBits.length - 1
      blockEnd - i + 1 + sumDegrees tBits count (blockEnd + 1)

def depthBoundariesFromTBits (tBits : List Bool) (lLen : Nat) : Except Panic (Nat × Nat) :=
  if tBits.isEmpty then .ok (1, 1)
  else
    match tBits.idxOf? true with
    | none => .error (.expect "LOUDS root unary must end with 1")
    | some rootEnd =>
      let n0 := rootEnd + 1
      let d1Start := 1 + n0
      let d2Start := d1Start + sumDegrees tBits n0 (rootEnd + 1)
      .ok (min d1Start lLen, min d2Start lLen)

def fromRaw (tBits : List Bool) (lLabels : List Nat) : Except Panic LoudsTrie :=
  if tBits.length ≠ lLabels.length then .error (.expect "LoudsTrie: T and L must have the same length")
  else do
    let lLen := lLabels.length + 1
    let (d1Start, d2Start) ← depthBoundariesFromTBits tBits lLen
    let n0 := d1Start - 1
    let n1 := d2Start - d1Start
    return {
      t := false :: tBits
      l0 := 0 :: lLabels.take (min n0 lLabels.length)
      l1 := if n0 < lLabels.length then (lLabels.drop n0).take (min (n0 + n1) lLabels.length - n0) else []
      l2 := if n0 + n1 < lLabels.length then lLabels.drop (n0 + n1) else []
      d1Start
      d2Start
      lLen }

def emitNode (d : Nat) : List Bool := unary d

/-- The groups of rows with one key, in the order they stand; a group is the slice that
the source keeps as its two ends. -/
def runs (key : Row → Nat) : Nat → List Row → List (List Row)
  | 0, _ => []
  | _ + 1, [] => []
  | fuel + 1, row :: rows =>
    let stop := partitionPoint (fun k => ((row :: rows)[k]?).any fun r => key r = key row) 0
      (rows.length + 1)
    (row :: rows).take stop :: runs key fuel ((row :: rows).drop stop)

/-- The groups of a slice. -/
def groupsBy (key : Row → Nat) (rows : List Row) : List (List Row) := runs key rows.length rows

/-- The label of a group: the key of its first row. -/
def groupLabel (key : Row → Nat) (group : List Row) : Nat := (group.head?.map key).getD 0

/-- The rows below each edge of the root. -/
def groupsC0 (sorted : List Row) : List (List Row) := groupsBy (fun r => r.1) sorted

/-- The rows below each edge of the next level. -/
def groupsC1 (sorted : List Row) : List (List Row) :=
  (groupsC0 sorted).flatMap (groupsBy fun r => r.2.1)

def tBits (sorted : List Row) : List Bool :=
  emitNode (groupsC0 sorted).length ++
    (groupsC0 sorted).flatMap (fun sub => emitNode (groupsBy (fun r => r.2.1) sub).length) ++
    (groupsC1 sorted).flatMap fun sub => emitNode sub.length

def lLabels (sorted : List Row) : List Nat :=
  (groupsC0 sorted).map (groupLabel fun r => r.1) ++
    (groupsC1 sorted).map (groupLabel fun r => r.2.1) ++
    (groupsC1 sorted).flatMap fun sub => sub.map fun r => r.2.2

def buildLoudsFromSorted (sorted : List Row) : Except Panic (Option LoudsTrie) :=
  if sorted.isEmpty then .ok none
  else (fromRaw (tBits sorted) (lLabels sorted)).map some

/-! ## Navigation -/

variable (x : LoudsTrie)

def nEdges : Nat := x.lLen - 1

def isEmpty : Bool := x.nEdges == 0

/-- The first set bit at or after `k`. -/
def selectnext1 (k : Nat) : Nat := (select1 x.t (rank1 x.t k)).getD x.lLen

def childFromLabelPos (labelPos : Nat) : Except Panic Nat :=
  match select1 x.t (labelPos - 1) with
  | some v => .ok v
  | none => .error (.expect "LoudsTrie::child_from_label_pos: index out of bounds")

def degree (v : Nat) : Nat := x.selectnext1 (v + 1) - v

def rootDegree : Nat := if x.isEmpty then 0 else x.degree 0

def labelAt (pos : Nat) : Nat :=
  if x.lLen ≤ pos then 0
  else if pos < x.d1Start then asU32 (x.l0.getD pos 0)
  else if pos < x.d2Start then asU32 (x.l1.getD (pos - x.d1Start) 0)
  else asU32 (x.l2.getD (pos - x.d2Start) 0)

/-- The loop of `leap`: all labels up to `left` are below `c`, and the next stride is
`2 ^ i`. -/
def leapLoop (hi c : Nat) (left i : Nat) : Nat :=
  let right := min (left + 2 ^ i) hi
  if c ≤ x.labelAt right then partitionPoint (fun k => x.labelAt k < c) (left + 1) right
  else if right = hi then hi + 1
  else leapLoop hi c right (i + 1)
termination_by hi - left
decreasing_by
  have hstride := Nat.one_le_two_pow (n := i)
  omega

def leap (lo hi c : Nat) : Nat :=
  if hi < lo then hi + 1
  else if c ≤ x.labelAt lo then lo
  else if x.labelAt hi < c then hi + 1
  else x.leapLoop hi c lo 0

/-! ## Groups of sorted rows -/

/-- Grouping sorted rows by their first field is cutting them into runs. -/
theorem groupsBy_map {β : Type} {key : Row → Nat} {g : Nat × β → Row} (hkey : ∀ r, key (g r) = r.1)
    (rows : List (Nat × β)) (hsorted : rows.Pairwise fun a b => a.1 ≤ b.1) :
    groupsBy key (rows.map g) = (Level.group rows).map fun e => e.2.map fun b => g (e.1, b) := by
  have hloop : ∀ (fuel : Nat) (rows : List (Nat × β)), rows.length ≤ fuel →
      (rows.Pairwise fun a b => a.1 ≤ b.1) →
      runs key fuel (rows.map g) = (Level.group rows).map fun e => e.2.map fun b => g (e.1, b) := by
    intro fuel
    induction fuel with
    | zero =>
      intro rows hlen _
      rw [length_eq_zero_iff.mp (Nat.le_zero.mp hlen)]
      rfl
    | succ fuel ih =>
      intro rows hlen hsorted
      cases rows with
      | nil => rfl
      | cons row rows =>
        rcases row with ⟨k, b⟩
        rcases pairwise_cons.mp hsorted with ⟨hhead, hrest⟩
        -- keys do not come back, so the search stops where the group does
        have hmono : ((k, b) :: rows).Pairwise fun a b' => (b'.1 = k → a.1 = k) := by
          refine pairwise_cons.mpr ⟨fun _ _ _ => rfl, ?_⟩
          refine hrest.imp_of_mem ?_
          intro a b' ha _ hle heq
          have hge := hhead a ha
          omega
        have hstop : partitionPoint (fun i => ((((k, b) :: rows).map g)[i]?).any fun r =>
            key r = key (g (k, b))) 0 ((rows.map g).length + 1) =
              1 + (rows.takeWhile fun r => r.1 = k).length := by
          have hfind := partitionPoint_takeWhile (((k, b) :: rows).map g)
            (fun r => decide (key r = key (g (k, b)))) (by
              rw [pairwise_map]
              simpa [hkey] using hmono)
          rw [takeWhile_map] at hfind
          simpa [Function.comp_def, hkey, Nat.add_comm] using hfind
        have hsplit := takeWhile_append_dropWhile (p := fun r => decide (r.1 = k)) (l := rows)
        have hgroup : ∀ r ∈ rows.takeWhile fun r => decide (r.1 = k), g r = g (k, r.2) := by
          intro r hr
          have hr := all_eq_true.mp all_takeWhile r hr
          rw [← of_decide_eq_true hr]
        have hle := (dropWhile_sublist (fun r => decide (r.1 = k)) (l := rows)).length_le
        have hrec := ih _ (hle.trans (Nat.le_of_succ_le_succ hlen)) (hrest.sublist (dropWhile_sublist _))
        rw [map_cons, runs, ← map_cons, hstop, ← map_take, ← map_drop, Nat.add_comm,
          take_succ_cons, drop_succ_cons, Level.group_cons, map_cons, map_cons, ← hrec]
        generalize rows.takeWhile (fun r => decide (r.1 = k)) = front at hsplit hgroup ⊢
        generalize rows.dropWhile (fun r => decide (r.1 = k)) = back at hsplit ⊢
        rw [← hsplit, take_left, drop_left]
        simp only [map_cons, map_map, Function.comp_def, map_congr_left hgroup]
  exact hloop _ rows (by rw [length_map]) hsorted

section Sorted

variable {sorted : List Row} (hsorted : sorted.Pairwise fun a b => Row.le a b = true)

include hsorted

theorem groupsC0_eq : groupsC0 sorted = (Level.group sorted).map fun e => e.2.map fun b => (e.1, b) := by
  have hfirst : sorted.Pairwise fun a b => a.1 ≤ b.1 := by
    refine hsorted.imp ?_
    intro a b hle
    rw [Row.le_iff] at hle
    omega
  have hmap : groupsBy (fun r => r.1) (sorted.map id) = _ :=
    groupsBy_map (fun r => rfl) sorted hfirst
  rw [map_id] at hmap
  exact hmap

theorem groupsBy_second {e : Nat × List (Nat × Nat)} (he : e ∈ Level.group sorted) :
    groupsBy (fun r => r.2.1) (e.2.map fun b => (e.1, b)) =
      (Level.group e.2).map fun e' => e'.2.map fun k => (e.1, e'.1, k) := by
  refine @groupsBy_map Nat (fun r => r.2.1) (fun b => (e.1, b)) (fun _ => rfl) e.2 ?_
  refine (pairwise_map.mp (hsorted.sublist (Level.sublist_of_mem_group he))).imp ?_
  intro a b hle
  rw [Row.le_iff] at hle
  simp only at hle
  omega

theorem groupsC1_eq : groupsC1 sorted = (Level.group sorted).flatMap fun e =>
    (Level.group e.2).map fun e' => e'.2.map fun k => (e.1, e'.1, k) := by
  rw [groupsC1, groupsC0_eq hsorted, flatMap_map]
  exact flatMap_congr fun e he => groupsBy_second hsorted he

theorem tBits_eq : tBits sorted = (Trie3.ofRows sorted).degrees.flatMap unary := by
  have hmid : ((groupsC0 sorted).flatMap fun sub => emitNode (groupsBy (fun r => r.2.1) sub).length) =
      ((Trie3.ofRows sorted).map fun e => e.2.length).flatMap unary := by
    rw [groupsC0_eq hsorted, flatMap_map, flatMap_map, Trie3.ofRows, flatMap_map]
    refine flatMap_congr ?_
    intro e he
    rw [groupsBy_second hsorted he, length_map, emitNode, length_map]
  have hbottom : ((groupsC1 sorted).flatMap fun sub => emitNode sub.length) =
      (((Trie3.ofRows sorted).flatMap fun e => e.2).map fun e => e.2.length).flatMap unary := by
    rw [groupsC1_eq hsorted]
    simp [Trie3.ofRows, emitNode, flatMap_map, map_flatMap, flatMap_assoc]
  rw [tBits, hmid, hbottom, groupsC0_eq hsorted, Trie3.degrees_eq, flatMap_cons, flatMap_append,
    append_assoc, emitNode, length_map, Trie3.ofRows, length_map]

theorem lLabels_eq : lLabels sorted = (Trie3.ofRows sorted).nodes.flatten := by
  have hlabel : ∀ (key : Row → Nat) (rows : List Row) (k : Nat), rows ≠ [] → (∀ r ∈ rows, key r = k) →
      groupLabel key rows = k := by
    intro key rows k hne hkey
    cases rows with
    | nil => exact absurd rfl hne
    | cons row rows => exact hkey row mem_cons_self
  have htop : (groupsC0 sorted).map (groupLabel fun r => r.1) = (Trie3.ofRows sorted).keys := by
    rw [groupsC0_eq hsorted, map_map, Level.keys, Trie3.ofRows, map_map]
    refine map_congr_left ?_
    intro e he
    exact hlabel _ _ _ (by simpa using Level.ne_nil_of_mem_group he) fun r hr => by
      rcases mem_map.mp hr with ⟨b, -, rfl⟩
      rfl
  have hmid : (groupsC1 sorted).map (groupLabel fun r => r.2.1) =
      (Trie3.ofRows sorted).flatMap fun e => e.2.keys := by
    rw [groupsC1_eq hsorted, map_flatMap, Trie3.ofRows, flatMap_map]
    refine flatMap_congr ?_
    intro e _
    rw [map_map, Level.keys, map_map]
    refine map_congr_left ?_
    intro e' he'
    exact hlabel _ _ _ (by simpa using Level.ne_nil_of_mem_group he') (by simp)
  have hbottom : ((groupsC1 sorted).flatMap fun sub => sub.map fun r => r.2.2) =
      ((Trie3.ofRows sorted).flatMap fun e => e.2).flatMap fun e => e.2.keys := by
    rw [groupsC1_eq hsorted]
    simp [Trie3.ofRows, Level.keys, flatMap_map, flatMap_assoc, Function.comp_def]
  rw [lLabels, htop, hmid, hbottom, Trie3.flatten_nodes, append_assoc]

end Sorted

/-! ## Depth boundaries -/

theorem idxOf?_unary (d : Nat) (rest : List Bool) : (unary d ++ rest).idxOf? true = some (d - 1) := by
  rw [unary, append_assoc, List.idxOf?, findIdx?_append]
  simp [findIdx?_replicate, findIdx?_cons]

theorem sumDegrees_unaries {ds : List Nat} (hpos : ∀ d ∈ ds, 0 < d) (front rest : List Bool) :
    sumDegrees (front ++ (ds.flatMap unary ++ rest)) ds.length front.length = ds.sum := by
  induction ds generalizing front with
  | nil => rfl
  | cons d ds ih =>
    have hd := hpos d mem_cons_self
    have hrec := ih (fun d' hd' => hpos d' (mem_cons_of_mem d hd')) (front ++ unary d)
    have hassoc : front ++ (((d :: ds).flatMap unary) ++ rest) =
        front ++ unary d ++ (ds.flatMap unary ++ rest) := by simp
    have hscan : ((front ++ unary d ++ (ds.flatMap unary ++ rest)).drop front.length).idxOf? true =
        some (d - 1) := by
      rw [append_assoc, drop_left, idxOf?_unary]
    rw [length_append, length_unary hd] at hrec
    rw [hassoc, length_cons, sumDegrees, if_neg (by simp [length_unary hd]; omega), hscan]
    simp only
    rw [show front.length + (d - 1) + 1 = front.length + d from by omega, hrec, sum_cons]
    omega

theorem depthBoundariesFromTBits_unaries {mid : List Nat} (hne : mid ≠ []) (hmid : ∀ d ∈ mid, 0 < d)
    (bottom : List Nat) (lLen : Nat) :
    depthBoundariesFromTBits ((mid.length :: (mid ++ bottom)).flatMap unary) lLen =
      .ok (min (1 + mid.length) lLen, min (1 + mid.length + mid.sum) lLen) := by
  have hpos := length_pos_of_ne_nil hne
  have hsum := sumDegrees_unaries hmid (unary mid.length) (bottom.flatMap unary)
  rw [length_unary hpos, ← flatMap_append, ← flatMap_cons] at hsum
  have hroot : ((mid.length :: (mid ++ bottom)).flatMap unary).idxOf? true = some (mid.length - 1) := by
    rw [flatMap_cons, idxOf?_unary]
  have hbits : ((mid.length :: (mid ++ bottom)).flatMap unary).isEmpty = false := by
    simp [unary]
  rw [depthBoundariesFromTBits, hbits, hroot]
  simp only [Bool.false_eq_true, if_false]
  rw [Nat.sub_add_cancel hpos, hsum]

theorem depthBoundariesFromTBits_trie {t : Trie3} (h : t.Full) (lLen : Nat) :
    depthBoundariesFromTBits (t.degrees.flatMap unary) lLen =
      .ok (min (1 + t.length) lLen, min (1 + t.length + (t.flatMap fun e => e.2).length) lLen) := by
  have hmid : ∀ d ∈ t.map fun e => e.2.length, 0 < d := by
    intro d hd
    rcases mem_map.mp hd with ⟨e, he, rfl⟩
    exact length_pos_of_ne_nil (h.mid e he)
  have hdepths := depthBoundariesFromTBits_unaries (by simpa using h.top) hmid
    ((t.flatMap fun e => e.2).map fun e => e.2.length) lLen
  rw [length_map, ← Trie3.degrees_eq, ← length_flatMap] at hdepths
  exact hdepths

/-! ## Rows in any order -/

variable {rows : List Row}

theorem ne_nil_of_mem_groupsBy {key : Row → Nat} {sub : List Row} (hsub : sub ∈ groupsBy key rows) :
    sub ≠ [] := by
  have hloop : ∀ fuel rows, sub ∈ runs key fuel rows → sub ≠ [] := by
    intro fuel
    induction fuel with
    | zero =>
      intro rows hsub
      cases hsub
    | succ fuel ih =>
      intro rows hsub
      cases rows with
      | nil => cases hsub
      | cons row rows =>
        -- the first row is in its own group, wherever the search stops
        have hstop := lt_partitionPoint (fun k => ((row :: rows)[k]?).any fun r => key r = key row)
          (Nat.succ_pos rows.length) (by simp)
        rw [runs, mem_cons] at hsub
        rcases hsub with rfl | hsub
        · intro hnil
          have hlen := congrArg List.length hnil
          rw [List.length_take, length_cons, length_nil] at hlen
          simp only [Nat.succ_eq_add_one] at hstop
          omega
        · exact ih _ hsub
  exact hloop _ _ hsub

theorem groupsBy_ne_nil (key : Row → Nat) (hne : rows ≠ []) : groupsBy key rows ≠ [] := by
  rcases exists_cons_of_ne_nil hne with ⟨row, rows, rfl⟩
  exact cons_ne_nil _ _

/-- The degrees of the nodes the builder writes. -/
def builtDegrees (rows : List Row) : List Nat :=
  (groupsC0 rows).length ::
    ((groupsC0 rows).map (fun sub => (groupsBy (fun r => r.2.1) sub).length) ++
      (groupsC1 rows).map List.length)

theorem tBits_unaries (rows : List Row) : tBits rows = (builtDegrees rows).flatMap unary := by
  rw [tBits, builtDegrees, flatMap_cons, flatMap_append, flatMap_map, flatMap_map,
    append_assoc]
  rfl

theorem builtDegrees_pos (hne : rows ≠ []) : ∀ d ∈ builtDegrees rows, 0 < d := by
  intro d hd
  rw [builtDegrees, mem_cons, mem_append, mem_map, mem_map] at hd
  rcases hd with rfl | ⟨sub, hsub, rfl⟩ | ⟨sub, hsub, rfl⟩
  · exact length_pos_of_ne_nil (groupsBy_ne_nil _ hne)
  · exact length_pos_of_ne_nil (groupsBy_ne_nil _ (ne_nil_of_mem_groupsBy hsub))
  · rcases mem_flatMap.mp hsub with ⟨_, -, hsub⟩
    exact length_pos_of_ne_nil (ne_nil_of_mem_groupsBy hsub)

theorem length_lLabels (rows : List Row) : (lLabels rows).length = (builtDegrees rows).sum := by
  rw [lLabels, builtDegrees, sum_cons, sum_append, length_append, length_append,
    length_map, length_map, length_flatMap, groupsC1, length_flatMap]
  simp only [length_map]
  exact Nat.add_assoc _ _ _

theorem depthBoundaries_built (hne : rows ≠ []) :
    depthBoundariesFromTBits (tBits rows) ((lLabels rows).length + 1) =
      .ok (1 + (groupsC0 rows).length, 1 + (groupsC0 rows).length + (groupsC1 rows).length) := by
  have hpos := builtDegrees_pos hne
  have hmid : ∀ d ∈ (groupsC0 rows).map fun sub => (groupsBy (fun r => r.2.1) sub).length, 0 < d := by
    intro d hd
    exact hpos d (mem_cons_of_mem _ (mem_append_left _ hd))
  have hsum : ((groupsC0 rows).map fun sub => (groupsBy (fun r => r.2.1) sub).length).sum =
      (groupsC1 rows).length := by
    rw [groupsC1, length_flatMap]
  have hdepths := depthBoundariesFromTBits_unaries
    (by simpa [groupsC0] using groupsBy_ne_nil (fun r => r.1) hne) hmid ((groupsC1 rows).map List.length)
    ((lLabels rows).length + 1)
  rw [length_map, hsum] at hdepths
  have hbound : (groupsC0 rows).length + (groupsC1 rows).length ≤ (lLabels rows).length := by
    rw [length_lLabels, builtDegrees, sum_cons, sum_append, hsum]
    omega
  rw [tBits_unaries, builtDegrees, hdepths, Nat.min_eq_left (by omega), Nat.min_eq_left (by omega)]

theorem buildLoudsFromSorted_ok (hne : rows ≠ []) :
    ∃ x, buildLoudsFromSorted rows = .ok (some x) ∧ x.t = false :: tBits rows ∧
      x.lLen = (lLabels rows).length + 1 ∧ x.d1Start = 1 + (groupsC0 rows).length ∧
      x.d2Start = 1 + (groupsC0 rows).length + (groupsC1 rows).length := by
  have hlen : (tBits rows).length = (lLabels rows).length := by
    rw [tBits_unaries, length_flatMap_unary (builtDegrees_pos hne), length_lLabels]
  rw [buildLoudsFromSorted, if_neg (by simpa using hne), fromRaw, if_neg (by rw [hlen]; simp)]
  simp only [depthBoundaries_built hne]
  exact ⟨_, rfl, rfl, rfl, rfl, rfl⟩

/-! ## The encoding of a trie -/

/-- The encoding of a trie, level by level. -/
def ofTrie (t : Trie3) : LoudsTrie where
  t := false :: t.degrees.flatMap unary
  l0 := 0 :: t.keys
  l1 := t.flatMap fun e => e.2.keys
  l2 := (t.flatMap fun e => e.2).flatMap fun e => e.2.keys
  d1Start := 1 + t.length
  d2Start := 1 + t.length + (t.flatMap fun e => e.2).length
  lLen := t.nodes.flatten.length + 1

theorem length_flatten_nodes (t : Trie3) : t.nodes.flatten.length = t.degrees.sum := by
  rw [length_flatten, Trie3.degrees]

theorem length_mid_keys (t : Trie3) :
    (t.flatMap fun e => e.2.keys).length = (t.flatMap fun e => e.2).length := by
  rw [length_flatMap, length_flatMap]
  simp only [Trie3.length_keys]

/-- The three slices of the labels. -/
theorem slices {α : Type} (as bs cs : List α) :
    (as ++ (bs ++ cs)).take (min as.length (as ++ (bs ++ cs)).length) = as ∧
      (if as.length < (as ++ (bs ++ cs)).length then
        ((as ++ (bs ++ cs)).drop as.length).take
          (min (as.length + bs.length) (as ++ (bs ++ cs)).length - as.length) else []) = bs ∧
      (if as.length + bs.length < (as ++ (bs ++ cs)).length then
        (as ++ (bs ++ cs)).drop (as.length + bs.length) else []) = cs := by
  have hlen : (as ++ (bs ++ cs)).length = as.length + (bs.length + cs.length) := by
    rw [length_append, length_append]
  refine ⟨?_, ?_, ?_⟩
  · rw [Nat.min_eq_left (by omega), take_left]
  · rw [Nat.min_eq_left (by omega), drop_left, Nat.add_sub_cancel_left, take_left]
    by_cases hlt : as.length < (as ++ (bs ++ cs)).length
    · rw [if_pos hlt]
    · rw [if_neg hlt, length_eq_zero_iff.mp (show bs.length = 0 by omega)]
  · rw [← append_assoc, ← length_append, drop_left]
    by_cases hlt : (as ++ bs).length < (as ++ bs ++ cs).length
    · rw [if_pos hlt]
    · have hsum : (as ++ bs ++ cs).length = (as ++ bs).length + cs.length := length_append
      rw [if_neg hlt, length_eq_zero_iff.mp (show cs.length = 0 by omega)]

theorem fromRaw_trie {t : Trie3} (h : t.Full) :
    fromRaw (t.degrees.flatMap unary) t.nodes.flatten = .ok (ofTrie t) := by
  have hlen : (t.degrees.flatMap unary).length = t.nodes.flatten.length := by
    rw [length_flatMap_unary h.degrees_pos, length_flatten_nodes]
  have hbound : t.nodes.flatten.length = t.length + ((t.flatMap fun e => e.2).length +
      ((t.flatMap fun e => e.2).flatMap fun e => e.2.keys).length) := by
    rw [Trie3.flatten_nodes, length_append, length_append, Trie3.length_keys, length_mid_keys]
  have hdepths := depthBoundariesFromTBits_trie h (t.nodes.flatten.length + 1)
  rw [Nat.min_eq_left (by omega), Nat.min_eq_left (by omega)] at hdepths
  have hslices := slices t.keys (t.flatMap fun e => e.2.keys) ((t.flatMap fun e => e.2).flatMap fun e => e.2.keys)
  rw [← Trie3.flatten_nodes, Trie3.length_keys, length_mid_keys] at hslices
  rcases hslices with ⟨h₀, h₁, h₂⟩
  rw [fromRaw, if_neg (by rw [hlen]; simp)]
  simp only [hdepths]
  show Except.ok _ = _
  rw [Nat.add_sub_cancel_left, Nat.add_sub_cancel_left, h₀, h₁, h₂]
  rfl

/-- The trie built from sorted rows encodes the trie of these rows. -/
theorem buildLoudsFromSorted_eq {sorted : List Row}
    (hsorted : sorted.Pairwise fun a b => Row.le a b = true) (hne : sorted ≠ []) :
    buildLoudsFromSorted sorted = .ok (some (ofTrie (Trie3.ofRows sorted))) := by
  rw [buildLoudsFromSorted, if_neg (by simpa using hne), tBits_eq hsorted, lLabels_eq hsorted,
    fromRaw_trie (Trie3.full_ofRows hne)]
  rfl

/-! ## Navigation in the encoding -/

theorem labelAt_ofTrie (t : Trie3) (pos : Nat) :
    (ofTrie t).labelAt pos = asU32 ((0 :: t.nodes.flatten).getD pos 0) := by
  have hlen : t.nodes.flatten.length = t.length + ((t.flatMap fun e => e.2).length +
      ((t.flatMap fun e => e.2).flatMap fun e => e.2.keys).length) := by
    rw [Trie3.flatten_nodes, length_append, length_append, Trie3.length_keys, length_mid_keys]
  have hkeys := Trie3.length_keys t
  have hmid := length_mid_keys t
  unfold labelAt ofTrie
  by_cases hout : t.nodes.flatten.length + 1 ≤ pos
  · rw [if_pos hout, getD_eq_default _ _ (by simpa using hout)]
    rfl
  rw [if_neg hout, Trie3.flatten_nodes]
  -- the three regions are the three parts of the labels
  by_cases h₁ : pos < 1 + t.length
  · rw [if_pos h₁, ← cons_append, getD_append _ _ _ _ (by rw [length_cons]; omega)]
  rw [if_neg h₁, ← cons_append, getD_append_right _ _ _ _ (by rw [length_cons]; omega),
    length_cons, hkeys, Nat.add_comm t.length 1]
  by_cases h₂ : pos < 1 + t.length + (t.flatMap fun e => e.2).length
  · rw [if_pos h₂, getD_append _ _ _ _ (by omega)]
  · rw [if_neg h₂, getD_append_right _ _ _ _ (by omega), hmid, Nat.sub_sub]

variable {labels : List Nat}

section Node

variable {t : Trie3} (h : t.Full)

include h

theorem nEdges_pos : 0 < (ofTrie t).nEdges := by
  have hpos := length_pos_of_ne_nil h.top
  have hkeys := Trie3.length_keys t
  show 0 < t.nodes.flatten.length + 1 - 1
  rw [Trie3.flatten_nodes, length_append]
  omega

/-- The node below the edge at position `q` is the `q`-th one. -/
theorem childFromLabelPos_ofTrie {q : Nat} (hq : 0 < q) (hnode : t.nodes[q]? = some labels) :
    (ofTrie t).childFromLabelPos q = .ok (firstEdge t.degrees q) := by
  have hlt : q < t.degrees.length := by
    rw [Trie3.degrees, length_map]
    exact (List.getElem?_eq_some_iff.mp hnode).1
  unfold childFromLabelPos ofTrie
  rw [select1_unaries h.degrees_pos, if_pos (by omega), Nat.sub_add_cancel hq]

theorem degree_ofTrie {q : Nat} (hnode : t.nodes[q]? = some labels) :
    (ofTrie t).degree (firstEdge t.degrees q) = labels.length := by
  have hdeg : t.degrees[q]? = some labels.length := by
    rw [Trie3.degrees, getElem?_map, hnode]
    rfl
  have hlt := (List.getElem?_eq_some_iff.mp hdeg).1
  unfold degree selectnext1 ofTrie
  rw [rank1_unaries h.degrees_pos (Nat.le_of_lt hlt), select1_unaries h.degrees_pos, if_pos hlt,
    Option.getD_some, firstEdge_succ hdeg, Nat.add_sub_cancel_left]

theorem rootDegree_ofTrie : (ofTrie t).rootDegree = t.length := by
  have hne : (ofTrie t).isEmpty = false := by
    rw [isEmpty, beq_eq_false_iff_ne]
    exact Nat.ne_of_gt (nEdges_pos h)
  have hroot := degree_ofTrie h (Trie3.nodes_top t)
  rw [rootDegree, hne]
  rw [Trie3.length_keys] at hroot
  exact hroot

end Node

theorem labelAt_node (t : Trie3) {q : Nat} (hnode : t.nodes[q]? = some labels)
    {j : Nat} (hj : j < labels.length) :
    (ofTrie t).labelAt (firstEdge t.degrees q + 1 + j) = asU32 labels[j] := by
  have hget := getElem?_flatten_firstEdge t.nodes hnode hj
  rw [labelAt_ofTrie, show firstEdge t.degrees q + 1 + j = firstEdge t.degrees q + j + 1 from by omega,
    getD_cons_succ, getD_eq_getElem?_getD, Trie3.degrees, hget, Option.getD_some]

/-! ## Searching -/

variable {x}

/-- The doubling search ends at the first label that is not below `c`. -/
theorem leapLoop_spec {hi c left i : Nat} (hlt : left < hi)
    (hmono : ∀ j k, left ≤ j → j ≤ k → k ≤ hi → x.labelAt j ≤ x.labelAt k)
    (hleft : x.labelAt left < c) (hhi : c ≤ x.labelAt hi) :
    left < x.leapLoop hi c left i ∧ x.leapLoop hi c left i ≤ hi ∧
      (∀ j, left ≤ j → j < x.leapLoop hi c left i → x.labelAt j < c) ∧
      c ≤ x.labelAt (x.leapLoop hi c left i) := by
  fun_induction leapLoop x hi c left i with
  | case1 left i right hge =>
    have hstride := Nat.one_le_two_pow (n := i)
    have hright : left < right ∧ right ≤ hi := by
      omega
    -- the target lies in the bracket, and the labels are sorted
    have hle := partitionPoint_le (fun k => decide (x.labelAt k < c)) (show left + 1 ≤ right by omega)
    have hlo := le_partitionPoint (fun k => decide (x.labelAt k < c)) (show left + 1 ≤ right by omega)
    have hspec := partitionPoint_spec (fun k => decide (x.labelAt k < c)) (left + 1) right (by
      intro j k hj hjk hk hkc
      have hle := hmono j k (by omega) hjk (by omega)
      simp only [decide_eq_true_eq] at hkc ⊢
      omega)
    refine ⟨by omega, by omega, ?_, ?_⟩
    · intro j hj hjk
      rcases Nat.eq_or_lt_of_le hj with rfl | hlt'
      · exact hleft
      · simpa using hspec.1 j hlt' hjk
    · rcases Nat.eq_or_lt_of_le hle with heq | hlt'
      · rw [heq]
        exact hge
      · have hstop := hspec.2 _ (Nat.le_refl _) hlt'
        simpa using hstop
  | case2 left i right hlt' heq =>
    rw [heq] at hlt'
    exact absurd hhi hlt'
  | case3 left i right hlt' hne ih =>
    have hstride := Nat.one_le_two_pow (n := i)
    have hright : left < right ∧ right ≤ hi := by
      omega
    have hrec := ih (by omega) (fun j k hj => hmono j k (by omega)) (by omega)
    refine ⟨by omega, hrec.2.1, ?_, hrec.2.2.2⟩
    intro j hj hjk
    by_cases hjr : right ≤ j
    · exact hrec.2.2.1 j hjr hjk
    · have hle := hmono j right hj (by omega) hright.2
      omega

theorem leap_spec {lo hi c : Nat} (hle : lo ≤ hi + 1)
    (hmono : ∀ j k, lo ≤ j → j ≤ k → k ≤ hi → x.labelAt j ≤ x.labelAt k) :
    lo ≤ x.leap lo hi c ∧ x.leap lo hi c ≤ hi + 1 ∧
      (∀ j, lo ≤ j → j < x.leap lo hi c → x.labelAt j < c) ∧
      (x.leap lo hi c ≤ hi → c ≤ x.labelAt (x.leap lo hi c)) := by
  unfold leap
  by_cases hempty : hi < lo
  · rw [if_pos hempty]
    exact ⟨hle, Nat.le_refl _, fun j hj hjk => by omega, fun hlast => by omega⟩
  rw [if_neg hempty]
  by_cases hfirst : c ≤ x.labelAt lo
  · rw [if_pos hfirst]
    exact ⟨Nat.le_refl _, hle, fun j hj hjk => by omega, fun _ => hfirst⟩
  rw [if_neg hfirst]
  by_cases hlast : x.labelAt hi < c
  · rw [if_pos hlast]
    refine ⟨hle, Nat.le_refl _, ?_, fun hlast => by omega⟩
    intro j hj hjk
    have hbound := hmono j hi hj (by omega) (Nat.le_refl _)
    omega
  · rw [if_neg hlast]
    have hne : lo ≠ hi := by
      intro heq
      rw [heq] at hfirst
      omega
    have hloop := leapLoop_spec (i := 0) (show lo < hi by omega) hmono (by omega) (Nat.le_of_not_lt hlast)
    exact ⟨by omega, by omega, hloop.2.2.1, fun _ => hloop.2.2.2⟩

end LoudsTrie

end Nova
