import Nova.Lib.Trie

/-!
# Trees in level order

A tree is stored as two sequences: its nodes in level order, each as its degree in
unary, and the labels of its edges in the same order. Edge `p` leads to node `p`, so
that navigation is counting: the edges of node `q` come right after those of the nodes
before it (`firstEdge`), and these are counted by the position of the `q`-th set bit
(`select1_unaries`).

`Trie3.nodes` are the nodes of a trie of height three in level order, and
`nodes_top`, `nodes_mid`, `nodes_bottom` say where the children of a node stand.
-/

namespace Nova.Lib

open List

/-! ## Rank and select -/

/-- The number of set bits before position `k`. -/
def rank1 (bits : List Bool) (k : Nat) : Nat := (bits.take k).count true

/-- The position of the `k`-th set bit, from 0. -/
def select1 : List Bool → Nat → Option Nat
  | [], _ => none
  | b :: bits, k =>
    match b, k with
    | true, 0 => some 0
    | true, k + 1 => (select1 bits k).map (· + 1)
    | false, k => (select1 bits k).map (· + 1)

theorem select1_append (as bs : List Bool) (k : Nat) :
    select1 (as ++ bs) k =
      if k < as.count true then select1 as k
      else (select1 bs (k - as.count true)).map (· + as.length) := by
  induction as generalizing k with
  | nil => simp
  | cons a as ih =>
    have hmap : ∀ (x : Option Nat) (n : Nat), (x.map (· + n)).map (· + 1) = x.map (· + (n + 1)) := by
      intro x n
      cases x <;> rfl
    cases a with
    | false =>
      rw [count_cons_of_ne (by simp), length_cons]
      show (select1 (as ++ bs) k).map (· + 1) = _
      rw [ih]
      split
      · rfl
      · exact hmap _ _
    | true =>
      rw [count_cons_self, length_cons]
      cases k with
      | zero => simp [select1]
      | succ k =>
        show (select1 (as ++ bs) k).map (· + 1) = _
        rw [ih]
        by_cases hlt : k < as.count true
        · rw [if_pos hlt, if_pos (by omega)]
          rfl
        · rw [if_neg hlt, if_neg (by omega), hmap, Nat.add_sub_add_right]

/-! ## Degrees in unary -/

/-- A degree in unary. -/
def unary (d : Nat) : List Bool := List.replicate (d - 1) false ++ [true]

theorem length_unary {d : Nat} (hd : 0 < d) : (unary d).length = d := by
  rw [unary, length_append, length_replicate, length_singleton]
  omega

@[simp] theorem count_unary (d : Nat) : (unary d).count true = 1 := by
  simp [unary, count_replicate]

theorem select1_unary (d : Nat) : select1 (unary d) 0 = some (d - 1) := by
  have hzero : (List.replicate (d - 1) false).count true = 0 := by simp [count_replicate]
  rw [unary, select1_append, hzero, if_neg (by omega), length_replicate]
  simp [select1]

/-- The edges of the first `q` nodes. -/
def firstEdge (degrees : List Nat) (q : Nat) : Nat := (degrees.take q).sum

theorem firstEdge_cons (d : Nat) (ds : List Nat) (q : Nat) :
    firstEdge (d :: ds) (q + 1) = d + firstEdge ds q := by
  simp [firstEdge]

variable {ds : List Nat}

theorem firstEdge_succ {q d : Nat} (h : ds[q]? = some d) : firstEdge ds (q + 1) = firstEdge ds q + d := by
  have hlt := (List.getElem?_eq_some_iff.mp h).1
  have hget := (List.getElem?_eq_some_iff.mp h).2
  rw [firstEdge, take_succ_eq_append_getElem hlt, sum_append, hget, sum_singleton]
  rfl

section

variable (hpos : ∀ d ∈ ds, 0 < d)
include hpos

theorem select1_flatMap_unary (q : Nat) : select1 (ds.flatMap unary) q =
      if q < ds.length then some (firstEdge ds (q + 1) - 1) else none := by
  induction ds generalizing q with
  | nil => simp [select1]
  | cons d ds ih =>
    have hd := hpos d mem_cons_self
    have hrest := ih fun d' hd' => hpos d' (mem_cons_of_mem d hd')
    rw [flatMap_cons, select1_append, count_unary]
    cases q with
    | zero =>
      rw [if_pos (by omega), select1_unary, if_pos (by simp), firstEdge_cons]
      simp [firstEdge]
    | succ q =>
      rw [if_neg (by omega), Nat.add_sub_cancel, hrest, length_unary hd, length_cons]
      by_cases hlt : q < ds.length
      · have hlt' : q + 1 < ds.length + 1 := by omega
        have hd' := hpos ds[q] (mem_cons_of_mem d (getElem_mem hlt))
        have hsucc := firstEdge_succ (getElem?_eq_getElem hlt)
        rw [if_pos hlt, if_pos hlt', firstEdge_cons, Option.map_some]
        congr 1
        omega
      · rw [if_neg hlt, if_neg (by omega)]
        rfl

/-- With a dummy bit in front, the `q`-th set bit stands where the edges of the nodes up to
`q` end. -/
theorem select1_unaries (q : Nat) : select1 (false :: ds.flatMap unary) q =
      if q < ds.length then some (firstEdge ds (q + 1)) else none := by
  show (select1 (ds.flatMap unary) q).map (· + 1) = _
  rw [select1_flatMap_unary hpos]
  by_cases hlt : q < ds.length
  · have hd := hpos ds[q] (getElem_mem hlt)
    have hsucc := firstEdge_succ (getElem?_eq_getElem hlt)
    rw [if_pos hlt, if_pos hlt, Option.map_some]
    congr 1
    omega
  · rw [if_neg hlt, if_neg hlt]
    rfl

theorem length_flatMap_unary : (ds.flatMap unary).length = ds.sum := by
  induction ds with
  | nil => rfl
  | cons d ds ih =>
    rw [flatMap_cons, length_append, length_unary (hpos d mem_cons_self),
      ih fun d' hd' => hpos d' (mem_cons_of_mem d hd'), sum_cons]

/-- Up to the end of the edges of the first `q` nodes there are `q` set bits. -/
theorem rank1_unaries {q : Nat} (hq : q ≤ ds.length) :
    rank1 (false :: ds.flatMap unary) (firstEdge ds q + 1) = q := by
  have hsplit : ds.flatMap unary = (ds.take q).flatMap unary ++ (ds.drop q).flatMap unary := by
    rw [← flatMap_append, take_append_drop]
  have hlen : ((ds.take q).flatMap unary).length = firstEdge ds q :=
    length_flatMap_unary fun d hd => hpos d (mem_of_mem_take hd)
  rw [rank1, take_succ_cons, count_cons_of_ne (by simp), hsplit, take_left' hlen,
    count_flatMap]
  simp [Function.comp_def, hq]

end

/-! ## Labels of nodes -/

theorem getElem?_flatten_firstEdge {α : Type} (nodes : List (List α)) {q : Nat} {labels : List α}
    (hq : nodes[q]? = some labels) {j : Nat} (hj : j < labels.length) :
    nodes.flatten[firstEdge (nodes.map List.length) q + j]? = some labels[j] := by
  induction nodes generalizing q with
  | nil => cases hq
  | cons node nodes ih =>
    cases q with
    | zero =>
      cases hq
      rw [flatten_cons, getElem?_append_left (by simpa [firstEdge] using hj)]
      simp [firstEdge]
    | succ q =>
      have hrest := ih (by simpa using hq)
      rw [map_cons, firstEdge_cons, flatten_cons,
        getElem?_append_right (by omega), ← hrest]
      congr 1
      omega

/-! ## Tries in level order -/

namespace Trie3

/-- The labels of the nodes of a trie in level order: the root, the nodes below it, and
those below these. -/
def nodes (t : Trie3) : List (List Nat) :=
  t.keys :: (t.map (fun e => e.2.keys) ++ (t.flatMap fun e => e.2).map fun e => e.2.keys)

theorem flatten_nodes (t : Trie3) : t.nodes.flatten =
    t.keys ++ ((t.flatMap fun e => e.2.keys) ++ (t.flatMap fun e => e.2).flatMap fun e => e.2.keys) := by
  rw [nodes, flatten_cons, flatten_append, ← flatMap_def, ← flatMap_def]

/-- No node is without children, and there is a root. -/
structure Full (t : Trie3) : Prop where
  top : t ≠ []
  mid : ∀ e ∈ t, e.2 ≠ []
  bottom : ∀ e ∈ t, ∀ e' ∈ e.2, e'.2 ≠ []

variable {t : Trie3}

theorem full_ofRows {rows : List Row} (hne : rows ≠ []) : (ofRows rows).Full where
  top := by simpa [ofRows] using Level.group_ne_nil hne
  mid := (noStub_ofRows rows).mid
  bottom := (noStub_ofRows rows).bottom

def degrees (t : Trie3) : List Nat := t.nodes.map List.length

theorem length_keys {α : Type} (it : Level α) : it.keys.length = it.length := length_map _

theorem degrees_eq (t : Trie3) : t.degrees =
    t.length :: (t.map (fun e => e.2.length) ++ (t.flatMap fun e => e.2).map fun e => e.2.length) := by
  simp [degrees, nodes, length_keys, Function.comp_def]

theorem Full.degrees_pos (h : t.Full) : ∀ d ∈ t.degrees, 0 < d := by
  intro d hd
  rw [degrees_eq, mem_cons, mem_append, mem_map, mem_map] at hd
  rcases hd with rfl | ⟨e, he, rfl⟩ | ⟨e', he', rfl⟩
  · exact length_pos_of_ne_nil h.top
  · exact length_pos_of_ne_nil (h.mid e he)
  · rcases mem_flatMap.mp he' with ⟨e, he, he'⟩
    exact length_pos_of_ne_nil (h.bottom e he e' he')

theorem nodes_top (t : Trie3) : t.nodes[0]? = some t.keys := rfl

/-- The children of the root. -/
theorem nodes_mid {i : Nat} {e : Nat × Level (Level Unit)} (he : t[i]? = some e) :
    t.nodes[1 + i]? = some e.2.keys := by
  have hlt := (List.getElem?_eq_some_iff.mp he).1
  rw [nodes, Nat.add_comm, getElem?_cons_succ, getElem?_append_left (by simpa using hlt),
    getElem?_map, he]
  rfl

theorem firstEdge_mid {i : Nat} (hi : i ≤ t.length) :
    firstEdge t.degrees (1 + i) = t.length + ((t.take i).flatMap fun e => e.2).length := by
  rw [degrees_eq, Nat.add_comm 1, firstEdge_cons, firstEdge, take_append_of_le_length (by simpa using hi),
    ← map_take, length_flatMap]

/-- Their children. -/
theorem nodes_bottom {i j : Nat} {e : Nat × Level (Level Unit)} {e' : Nat × Level Unit}
    (he : t[i]? = some e) (he' : e.2[j]? = some e') :
    t.nodes[firstEdge t.degrees (1 + i) + 1 + j]? = some e'.2.keys := by
  have hlt := (List.getElem?_eq_some_iff.mp he).1
  have hj := (List.getElem?_eq_some_iff.mp he').1
  have hnode : (t.map fun e => e.2)[i]? = some e.2 := by
    rw [getElem?_map, he]
    rfl
  have hflat := getElem?_flatten_firstEdge (t.map fun e => e.2) hnode hj
  have hbefore : firstEdge ((t.map fun e => e.2).map List.length) i =
      ((t.take i).flatMap fun e => e.2).length := by
    rw [firstEdge, length_flatMap, map_map, ← map_take]
    rfl
  rw [hbefore, ← flatMap_def, (List.getElem?_eq_some_iff.mp he').2] at hflat
  have hidx : t.length + ((t.take i).flatMap fun e => e.2).length + 1 + j =
      t.length + (((t.take i).flatMap fun e => e.2).length + j) + 1 := by omega
  rw [firstEdge_mid (Nat.le_of_lt hlt), hidx, nodes, getElem?_cons_succ,
    getElem?_append_right (by simp), length_map, Nat.add_sub_cancel_left, getElem?_map,
    hflat]
  rfl

end Trie3

end Nova.Lib
