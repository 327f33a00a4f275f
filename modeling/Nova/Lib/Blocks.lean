import Nova.Lib.Bytes
import Mathlib.Data.List.Basic

/-!
# Blocked sequences

A sequence cut into blocks of one size, the flat buffer its blocks are
concatenated into, and binary search over the blocks.

* `Blocked bs es blocks`: `blocks` cuts `es` into blocks of `bs` elements, only
  the last of which may be shorter. It is kept by appending one element
  (`Blocked.snoc_new`, `Blocked.snoc_extend`), which is how a writer that
  counts elements builds it, and it locates every element
  (`Blocked.getElem?_div_mod`).
* `chunks` cuts a list (`Blocked.chunks_blocked`), and `Blocked.flatMap_part` puts a
  range together again from the blocks it touches.
* `offsets`: where each piece of a concatenation starts; `slice_flatten` reads
  a piece back from there.
* `partitionPoint`: the binary search of the standard library, with the
  specification that it separates a downward-closed predicate from the rest.
-/

namespace Nova.Lib

open List Nat

variable {α : Type}

/-! ## Cutting a list into blocks -/

/-- `blocks` cuts `es` into blocks of `bs` elements; the last one may be
shorter but not empty. -/
structure Blocked (bs : Nat) (es : List α) (blocks : List (List α)) : Prop where
  flatten : blocks.flatten = es
  ne_nil : ∀ blk ∈ blocks, blk ≠ []
  le : ∀ blk ∈ blocks, blk.length ≤ bs
  full : ∀ init last, blocks = init ++ [last] → ∀ blk ∈ init, blk.length = bs

/-- Pieces of `bs` elements from the front; `fuel` bounds their number. -/
def chunksUpTo (bs : Nat) : Nat → List α → List (List α)
  | 0, _ => []
  | fuel + 1, es => if es.isEmpty then [] else es.take bs :: chunksUpTo bs fuel (es.drop bs)

/-- The list cut into pieces of `bs` elements; the last one may be shorter. -/
def chunks (bs : Nat) (es : List α) : List (List α) := chunksUpTo bs es.length es

variable {b : Nat}

namespace Blocked

variable {bs : Nat} {es : List α} {blocks : List (List α)}

theorem nil (bs : Nat) : Blocked bs ([] : List α) [] where
  flatten := rfl
  ne_nil := by simp
  le := by simp
  full := by
    intro init last h
    simp at h

theorem length_flatten_of_full (h : ∀ blk ∈ blocks, blk.length = bs) :
    blocks.flatten.length = blocks.length * bs := by
  induction blocks with
  | nil => simp
  | cons blk blocks ih =>
    have hblk := h blk mem_cons_self
    have hrest := ih fun b hb => h b (mem_cons_of_mem blk hb)
    rw [flatten_cons, length_append, hblk, hrest, length_cons, succ_mul]
    omega

theorem length_flatten_le (h : ∀ blk ∈ blocks, blk.length ≤ bs) :
    blocks.flatten.length ≤ blocks.length * bs := by
  induction blocks with
  | nil => simp
  | cons blk blocks ih =>
    have hblk := h blk mem_cons_self
    have hrest := ih fun b hb => h b (mem_cons_of_mem blk hb)
    rw [flatten_cons, length_append, length_cons, succ_mul]
    omega

section

variable (h : Blocked bs es blocks)
include h

/-- Every block but the last holds exactly `bs` elements. -/
theorem length_take (hb : b < blocks.length) : (blocks.take b).flatten.length = b * bs := by
  have hne : blocks ≠ [] := by
    intro hnil
    rw [hnil] at hb
    simp at hb
  have hfull : ∀ blk ∈ blocks.take b, blk.length = bs := by
    intro blk hblk
    refine h.full blocks.dropLast (blocks.getLast hne) (dropLast_append_getLast hne).symm blk ?_
    rw [dropLast_eq_take]
    exact take_subset_take_left blocks (by omega) hblk
  rw [length_flatten_of_full hfull, List.length_take, min_eq_left (by omega)]

/-- What stands from block `b` on. -/
theorem flatten_drop (hb : b < blocks.length) : (blocks.drop b).flatten = es.drop (b * bs) := by
  have hsplit : (blocks.take b).flatten ++ (blocks.drop b).flatten = es := by
    rw [← flatten_append, take_append_drop, h.flatten]
  rw [← hsplit, ← h.length_take hb, drop_left]

/-- The head of block `b` is the element at `b * bs`. -/
theorem head_eq {blk : List α} (hb : blocks[b]? = some blk) : es[b * bs]? = blk.head? := by
  have hlt : b < blocks.length := (List.getElem?_eq_some_iff.mp hb).1
  have hget : blocks[b] = blk := (List.getElem?_eq_some_iff.mp hb).2
  have hne : blk ≠ [] := h.ne_nil blk (mem_of_getElem? hb)
  have hdrop := h.flatten_drop hlt
  rw [drop_eq_getElem_cons hlt, hget, flatten_cons] at hdrop
  have hzero : es[b * bs]? = (es.drop (b * bs))[0]? := by simp
  rw [hzero, ← hdrop]
  rcases blk with _ | ⟨x, blk⟩
  · exact absurd rfl hne
  · simp

/-- The element at rank `r` is in block `r / bs`, at offset `r % bs`. -/
theorem getElem?_div_mod (hbs : 0 < bs) {r : Nat} (hr : r < es.length) :
    ∃ blk, blocks[r / bs]? = some blk ∧ blk[r % bs]? = es[r]? := by
  have hdm : r / bs * bs + r % bs = r := div_add_mod' r bs
  have hmod : r % bs < bs := mod_lt r hbs
  -- the blocks before `r / bs` hold at most `r` elements, so there is one more
  have hlt : r / bs < blocks.length := by
    by_contra hge
    have hlen : es.length ≤ blocks.length * bs := by
      rw [← h.flatten]
      exact length_flatten_le h.le
    have hmul : blocks.length * bs ≤ r / bs * bs := mul_le_mul_right bs (by omega)
    omega
  refine ⟨blocks[r / bs], getElem?_eq_getElem hlt, ?_⟩
  have hdrop := h.flatten_drop hlt
  rw [drop_eq_getElem_cons hlt, flatten_cons] at hdrop
  have hr' : es[r]? = (es.drop (r / bs * bs))[r % bs]? := by
    rw [getElem?_drop, hdm]
  rw [hr', ← hdrop]
  -- the offset lies inside the block: it is full, or it is the last one
  have hin : r % bs < (blocks[r / bs]).length := by
    by_contra hge
    have hlast : blocks.drop (r / bs + 1) = [] := by
      by_contra hmore
      have hlt' : r / bs + 1 < blocks.length := by
        by_contra hle
        exact hmore (drop_eq_nil_of_le (by omega))
      have h1 := h.length_take hlt'
      have h0 := h.length_take hlt
      rw [take_succ_eq_append_getElem hlt, flatten_append, length_append, h0] at h1
      simp only [flatten_cons, flatten_nil, append_nil, succ_mul] at h1
      omega
    rw [hlast, flatten_nil, append_nil] at hdrop
    have hlen := congrArg List.length hdrop
    rw [length_drop] at hlen
    omega
  rw [getElem?_append_left hin]

/-- A new element opens a block when the last one is full. -/
theorem snoc_new (hbs : 0 < bs) (hlen : es.length % bs = 0) (e : α) :
    Blocked bs (es ++ [e]) (blocks ++ [[e]]) where
  flatten := by simp [h.flatten]
  ne_nil := by
    intro blk hblk
    rcases mem_append.mp hblk with hblk | hblk
    · exact h.ne_nil blk hblk
    · simp_all
  le := by
    intro blk hblk
    rcases mem_append.mp hblk with hblk | hblk
    · exact h.le blk hblk
    · simp_all
      omega
  full := by
    intro init last heq blk hblk
    have hinit : init = blocks := (append_inj_left' heq rfl).symm
    rw [hinit] at hblk
    rcases eq_nil_or_concat blocks with hnil | ⟨pre, lst, hcat⟩
    · rw [hnil] at hblk
      simp at hblk
    · rw [concat_eq_append] at hcat
      have hpre := h.full pre lst hcat
      rw [hcat] at hblk
      rcases mem_append.mp hblk with hblk | hblk
      · exact hpre blk hblk
      · -- the old last block: the total is a multiple of `bs`, so it is full too
        have hblk' : blk = lst := by simpa using hblk
        subst hblk'
        have hmem : blk ∈ blocks := by simp [hcat]
        have hle := h.le blk hmem
        have hpos : 0 < blk.length := length_pos_of_ne_nil (h.ne_nil blk hmem)
        have htotal : es.length = pre.length * bs + blk.length := by
          rw [← h.flatten, hcat, flatten_append, length_append,
            length_flatten_of_full hpre]
          simp
        have hmod : blk.length % bs = 0 := by
          rw [htotal, mul_add_mod'] at hlen
          exact hlen
        rcases lt_or_ge blk.length bs with hlt | hge
        · rw [mod_eq_of_lt hlt] at hmod
          omega
        · omega

end

theorem snoc_extend {init : List (List α)} {last : List α} (h : Blocked bs es (init ++ [last]))
    (hlen : es.length % bs ≠ 0) (e : α) :
    Blocked bs (es ++ [e]) (init ++ [last ++ [e]]) where
  flatten := by simp [← h.flatten]
  ne_nil := by
    intro blk hblk
    rcases mem_append.mp hblk with hblk | hblk
    · exact h.ne_nil blk (mem_append_left _ hblk)
    · simp_all
  le := by
    have hinit := h.full init last rfl
    have htotal : es.length = init.length * bs + last.length := by
      rw [← h.flatten, flatten_append, length_append, length_flatten_of_full hinit]
      simp
    have hmod : last.length % bs ≠ 0 := by
      rw [htotal, mul_add_mod'] at hlen
      exact hlen
    have hle := h.le last (by simp)
    have hne : last.length ≠ bs := by
      intro heq
      rw [heq, mod_self] at hmod
      exact hmod rfl
    intro blk hblk
    rcases mem_append.mp hblk with hblk | hblk
    · exact h.le blk (mem_append_left _ hblk)
    · have hblk' : blk = last ++ [e] := by simpa using hblk
      rw [hblk', length_append, length_singleton]
      omega
  full := by
    intro init' last' heq blk hblk
    have hinit : init' = init := (append_inj_left' heq rfl).symm
    rw [hinit] at hblk
    exact h.full init last rfl blk hblk

/-- If the number of elements is not a multiple of `bs` there is a last block. -/
theorem exists_last (h : Blocked bs es blocks) (hlen : es.length % bs ≠ 0) :
    ∃ init last, blocks = init ++ [last] := by
  rcases eq_nil_or_concat blocks with hnil | ⟨init, last, hcat⟩
  · have hes : es = [] := by rw [← h.flatten, hnil, flatten_nil]
    rw [hes] at hlen
    simp at hlen
  · exact ⟨init, last, by rw [hcat, concat_eq_append]⟩

/-- By induction on the fuel: a full block is cut off, or what is left is the last one. -/
theorem chunksUpTo_eq (hbs : 0 < bs) (fuel : Nat) : ∀ {es : List α}, es.length ≤ fuel →
    Blocked bs es (chunksUpTo bs fuel es) := by
  induction fuel with
  | zero =>
    intro es hlen
    rw [length_eq_zero_iff.mp (le_zero.mp hlen)]
    exact .nil bs
  | succ fuel ih =>
    intro es hlen
    rw [chunksUpTo]
    by_cases hemp : es.isEmpty = true
    · rw [if_pos hemp, List.isEmpty_iff.mp hemp]
      exact .nil bs
    · rw [if_neg hemp]
      have hne : es ≠ [] := fun h => hemp (List.isEmpty_iff.mpr h)
      have hpos : 0 < es.length := length_pos_of_ne_nil hne
      have hrest := @ih (es.drop bs) (by rw [length_drop]; omega)
      refine ⟨?_, ?_, ?_, ?_⟩
      · rw [flatten_cons, hrest.flatten, take_append_drop]
      · intro blk hblk
        rcases mem_cons.mp hblk with rfl | hblk
        · intro hnil
          have hlen' := congrArg List.length hnil
          rw [List.length_take, length_nil] at hlen'
          omega
        · exact hrest.ne_nil blk hblk
      · intro blk hblk
        rcases mem_cons.mp hblk with rfl | hblk
        · rw [List.length_take]
          omega
        · exact hrest.le blk hblk
      · intro init last hcat blk hblk
        cases init with
        | nil => cases hblk
        | cons first init =>
          rw [cons_append] at hcat
          rcases cons_eq_cons.mp hcat with ⟨hfirst, htail⟩
          rcases mem_cons.mp hblk with rfl | hblk
          · -- something is left for a later piece
            have hleft : es.drop bs ≠ [] := by
              intro hnil
              have hflat := hrest.flatten
              rw [htail, hnil, flatten_append] at hflat
              have hlast := hrest.ne_nil last (by rw [htail]; simp)
              simp at hflat
              exact hlast hflat.2
            have hlong : 0 < (es.drop bs).length := length_pos_of_ne_nil hleft
            rw [length_drop] at hlong
            rw [← hfirst, List.length_take]
            omega
          · exact hrest.full init last htail blk hblk

theorem chunks_blocked (hbs : 0 < bs) (es : List α) : Blocked bs es (chunks bs es) :=
  chunksUpTo_eq hbs es.length (Nat.le_refl _)

theorem getElem?_eq (h : Blocked bs es blocks) {blk : List α} (hb : blocks[b]? = some blk) :
    blk = (es.drop (b * bs)).take bs := by
  have hlt : b < blocks.length := (List.getElem?_eq_some_iff.mp hb).1
  have hget : blocks[b] = blk := (List.getElem?_eq_some_iff.mp hb).2
  have hdrop := h.flatten_drop hlt
  rw [drop_eq_getElem_cons hlt, hget, flatten_cons] at hdrop
  rw [← hdrop]
  have hle := h.le blk (mem_of_getElem? hb)
  rcases lt_or_eq_of_le hle with hshort | hfull
  · -- only the last piece is short
    have hlast : blocks.drop (b + 1) = [] := by
      by_contra hne
      rcases eq_nil_or_concat' blocks with hnil | ⟨init, last, hcat⟩
      · rw [hnil] at hlt
        cases hlt
      · have hlen := congrArg List.length hcat
        rw [length_append, length_singleton] at hlen
        have hmore : b + 1 < blocks.length := by
          by_contra hge
          exact hne (drop_eq_nil_of_le (by omega))
        have hin : blk ∈ init := by
          have hb' := hb
          rw [hcat, getElem?_append_left (by omega)] at hb'
          exact mem_of_getElem? hb'
        have heq := h.full init last hcat blk hin
        omega
    rw [hlast, flatten_nil, append_nil, take_of_length_le hle]
  · rw [← hfull, take_left]

theorem lt_length_iff (h : Blocked bs es blocks) : b < blocks.length ↔ b * bs < es.length := by
  constructor
  · intro hlt
    have hb : blocks[b]? = some blocks[b] := getElem?_eq_getElem hlt
    have hne := h.ne_nil _ (mem_of_getElem? hb)
    rw [h.getElem?_eq hb] at hne
    by_contra hge
    refine hne ?_
    rw [drop_eq_nil_of_le (by omega), take_nil]
  · intro hlt
    by_contra hge
    have htotal := length_flatten_le h.le
    rw [h.flatten] at htotal
    have hmul : blocks.length * bs ≤ b * bs := mul_le_mul_right bs (by omega)
    omega

theorem eq_chunks (h : Blocked bs es blocks) (hbs : 0 < bs) : blocks = chunks bs es := by
  have h' := chunks_blocked hbs es
  have hlen : blocks.length = (chunks bs es).length := by
    apply Nat.le_antisymm
    · by_contra hlt
      have hin := h.lt_length_iff.mp (Nat.lt_of_not_le hlt)
      exact Nat.lt_irrefl _ (h'.lt_length_iff.mpr hin)
    · by_contra hlt
      have hin := h'.lt_length_iff.mp (Nat.lt_of_not_le hlt)
      exact Nat.lt_irrefl _ (h.lt_length_iff.mpr hin)
  apply ext_getElem hlen
  intro b hb hb'
  rw [h.getElem?_eq (getElem?_eq_getElem hb), h'.getElem?_eq (getElem?_eq_getElem hb')]

end Blocked

/-! ## Offsets into a concatenation -/

/-- Where each piece starts when the pieces are laid out one after another,
the first one at `start`. -/
def offsets (start : Nat) : List Bytes → List Nat
  | [] => []
  | p :: ps => start :: offsets (start + p.length) ps

@[simp] theorem length_offsets (start : Nat) (ps : List Bytes) :
    (offsets start ps).length = ps.length := by
  induction ps generalizing start with
  | nil => rfl
  | cons p ps ih => simp [offsets, ih]

theorem getElem?_offsets (start : Nat) (ps : List Bytes) (b : Nat) :
    (offsets start ps)[b]? =
      if b < ps.length then some (start + (ps.take b).flatten.length) else none := by
  induction ps generalizing start b with
  | nil => simp [offsets]
  | cons p ps ih =>
    cases b with
    | zero => simp [offsets]
    | succ b => simp [offsets, ih, add_assoc]

theorem le_of_mem_offsets {start n : Nat} {ps : List Bytes} (h : n ∈ offsets start ps) :
    n ≤ start + ps.flatten.length := by
  induction ps generalizing start with
  | nil => cases h
  | cons p ps ih =>
    rw [flatten_cons, length_append]
    rcases mem_cons.mp h with rfl | h
    · omega
    · have hrest := ih h
      omega

theorem offsets_append (start : Nat) (ps qs : List Bytes) :
    offsets start (ps ++ qs) = offsets start ps ++ offsets (start + ps.flatten.length) qs := by
  induction ps generalizing start with
  | nil => simp [offsets]
  | cons p ps ih => simp [offsets, ih, add_assoc]

/-- The end of piece `b`: the offset of the next piece, or the end of the
buffer. -/
theorem getD_offsets_succ (start : Nat) (ps : List Bytes) {p : Bytes} (hb : ps[b]? = some p) :
    ((offsets start ps)[b + 1]?).getD (start + ps.flatten.length) =
      start + (ps.take b).flatten.length + p.length := by
  have hlt : b < ps.length := (List.getElem?_eq_some_iff.mp hb).1
  have hget : ps[b] = p := (List.getElem?_eq_some_iff.mp hb).2
  have htake : (ps.take (b + 1)).flatten.length = (ps.take b).flatten.length + p.length := by
    rw [take_succ_eq_append_getElem hlt, hget]
    simp
  rw [getElem?_offsets]
  split
  · simp [htake]
    omega
  · have hall : ps.take (b + 1) = ps := take_of_length_le (by omega)
    rw [hall] at htake
    simp [htake]
    omega

theorem flatten_split (ps : List Bytes) {p : Bytes} (hb : ps[b]? = some p) :
    ps.flatten = (ps.take b).flatten ++ p ++ (ps.drop (b + 1)).flatten := by
  have hlt : b < ps.length := (List.getElem?_eq_some_iff.mp hb).1
  have hget : ps[b] = p := (List.getElem?_eq_some_iff.mp hb).2
  conv_lhs => rw [← take_append_drop b ps, drop_eq_getElem_cons hlt, hget]
  simp

/-- A piece is read back from the concatenation between its own offset and its
end. -/
theorem slice_flatten (ps : List Bytes) {p : Bytes} (hb : ps[b]? = some p) :
    slice ps.flatten (ps.take b).flatten.length p.length = p := by
  conv_lhs => rw [flatten_split ps hb]
  exact slice_middle _ _ _

/-! ## Reading a range through blocks -/

namespace Blocked

open List Nat

variable {bs : Nat}

/-- What a reader of `es[start..stop]` takes from the block `b`. -/
def part (bs start stop b : Nat) (blk : Bytes) : Bytes :=
  slice blk (start - b * bs) (min (stop - b * bs) blk.length - (start - b * bs))

theorem part_eq {es : Bytes} {start stop : Nat} (hstart : start < (b + 1) * bs) (hstop : b * bs < stop)
    (hle : stop ≤ es.length) : part bs start stop b ((es.drop (b * bs)).take bs) =
      slice es (max start (b * bs)) (min stop ((b + 1) * bs) - max start (b * bs)) := by
  have hmul : (b + 1) * bs = b * bs + bs := succ_mul b bs
  unfold part slice
  rw [List.length_take, length_drop, drop_take, drop_drop, take_take]
  congr 1
  · omega
  · congr 1
    omega

theorem slice_append_slice (es : Bytes) {a m c : Nat} (ham : a ≤ m) (hmc : m ≤ c) :
    slice es a (m - a) ++ slice es m (c - m) = slice es a (c - a) := by
  unfold slice
  have hsplit : c - a = (m - a) + (c - m) := by omega
  have hdrop : es.drop m = (es.drop a).drop (m - a) := by
    rw [drop_drop]
    congr 1
    omega
  rw [hsplit, take_add, hdrop]

/-- A range is put together from the blocks it touches. -/
theorem flatMap_part {es : Bytes} (hbs : 0 < bs) {start stop : Nat} (hlt : start < stop)
    (hle : stop ≤ es.length) (count : Nat) : ∀ {b : Nat}, start / bs ≤ b →
      b + count = (stop - 1) / bs + 1 →
      ((List.range' b count).flatMap fun b => part bs start stop b ((es.drop (b * bs)).take bs)) =
        slice es (max start (b * bs)) (stop - max start (b * bs)) := by
  induction count with
  | zero =>
    intro b _ hb
    have hend : stop ≤ b * bs := by
      have hdiv := div_add_mod (stop - 1) bs
      have hmod := mod_lt (stop - 1) hbs
      have hmul : bs * ((stop - 1) / bs + 1) = bs * ((stop - 1) / bs) + bs := mul_succ _ _
      rw [show b = (stop - 1) / bs + 1 by omega, mul_comm]
      omega
    rw [show stop - max start (b * bs) = 0 by omega]
    simp [slice]
  | succ count ih =>
    intro b hfirst hb
    have hlast : b * bs < stop := by
      have hdiv : (stop - 1) / bs * bs ≤ stop - 1 := div_mul_le_self _ _
      have hmul : b * bs ≤ (stop - 1) / bs * bs := mul_le_mul_right bs (by omega)
      omega
    have hnext : start < (b + 1) * bs := by
      have hdiv : start < (start / bs + 1) * bs := by
        have h := lt_div_mul_add hbs (a := start)
        rw [succ_mul]
        exact h
      have hmul : (start / bs + 1) * bs ≤ (b + 1) * bs := mul_le_mul_right bs (by omega)
      omega
    rw [range'_succ, flatMap_cons, part_eq hnext hlast hle, ih (by omega) (by omega)]
    have hmax : max start ((b + 1) * bs) = (b + 1) * bs := by omega
    by_cases hshort : stop ≤ (b + 1) * bs
    · rw [hmax, show stop - (b + 1) * bs = 0 by omega, min_eq_left hshort]
      simp [slice]
    · have hmul : (b + 1) * bs = b * bs + bs := succ_mul b bs
      rw [hmax, min_eq_right (by omega)]
      exact slice_append_slice es (by omega) (by omega)

end Blocked

/-! ## Binary search -/

/-- `slice.partition_point`, over the indices `lo .. hi`. -/
def partitionPoint (p : Nat → Bool) (lo hi : Nat) : Nat :=
  if lo < hi then
    let mid := lo + (hi - lo) / 2
    if p mid then partitionPoint p (mid + 1) hi else partitionPoint p lo mid
  else lo
termination_by hi - lo

variable {lo hi : Nat}

theorem partitionPoint_le (p : Nat → Bool) (hle : lo ≤ hi) : partitionPoint p lo hi ≤ hi := by
  fun_induction partitionPoint p lo hi with
  | case1 lo hi hlt mid hp ih => exact ih (by omega)
  | case2 lo hi hlt mid hp ih => exact (ih (by omega)).trans (by omega)
  | case3 lo hi hge => exact hle

theorem le_partitionPoint (p : Nat → Bool) (hle : lo ≤ hi) : lo ≤ partitionPoint p lo hi := by
  fun_induction partitionPoint p lo hi with
  | case1 lo hi hlt mid hp ih =>
    omega
  | case2 lo hi hlt mid hp ih => exact ih (by omega)
  | case3 lo hi hge => exact Nat.le_refl _

theorem lt_partitionPoint (p : Nat → Bool) (hlt : lo < hi) (hp : p lo = true) :
    lo < partitionPoint p lo hi := by
  fun_induction partitionPoint p lo hi with
  | case1 lo hi _ mid _ _ =>
    have hle := le_partitionPoint p (show mid + 1 ≤ hi by omega)
    omega
  | case2 lo hi _ mid hmid ih =>
    have hne : lo ≠ mid := by
      intro heq
      rw [← heq] at hmid
      exact hmid hp
    exact ih (by omega) hp
  | case3 lo hi hge => exact absurd hlt hge

/-- The same search with a probe that may fail. -/
def partitionPointM {ε : Type} (p : Nat → Except ε Bool) (lo hi : Nat) : Except ε Nat :=
  if lo < hi then
    let mid := lo + (hi - lo) / 2
    match p mid with
    | .error e => .error e
    | .ok true => partitionPointM p (mid + 1) hi
    | .ok false => partitionPointM p lo mid
  else .ok lo
termination_by hi - lo

theorem partitionPointM_eq {ε : Type} {p : Nat → Except ε Bool} {q : Nat → Bool}
    (h : ∀ i, i < hi → p i = .ok (q i)) : partitionPointM p lo hi = .ok (partitionPoint q lo hi) := by
  induction lo, hi using partitionPoint.induct (p := q) with
  | case1 lo hi hlt mid hq ih =>
    rw [partitionPointM, partitionPoint, if_pos hlt, if_pos hlt]
    simp only [mid] at hq ih
    simp only [h (lo + (hi - lo) / 2) (by omega), hq, if_true]
    exact ih h
  | case2 lo hi hlt mid hq ih =>
    rw [partitionPointM, partitionPoint, if_pos hlt, if_pos hlt]
    simp only [mid, Bool.not_eq_true] at hq ih
    simp only [h (lo + (hi - lo) / 2) (by omega), hq, Bool.false_eq_true, if_false]
    exact ih fun i hi' => h i (by omega)
  | case3 lo hi hge =>
    rw [partitionPointM, partitionPoint, if_neg hge, if_neg hge]

/-- If `p` holds below some point and fails from it on, the search finds that
point. -/
theorem partitionPoint_spec (p : Nat → Bool) (lo hi : Nat)
    (hmono : ∀ i j, lo ≤ i → i ≤ j → j < hi → p j = true → p i = true) :
    (∀ i, lo ≤ i → i < partitionPoint p lo hi → p i = true) ∧
      (∀ i, partitionPoint p lo hi ≤ i → i < hi → p i = false) := by
  fun_induction partitionPoint p lo hi with
  | case1 lo hi hlt mid hp ih =>
    have hrec := ih fun i j h1 h2 h3 => hmono i j (by omega) h2 h3
    refine ⟨?_, hrec.2⟩
    intro i hi1 hi2
    rcases lt_or_ge mid i with hgt | hge
    · exact hrec.1 i hgt hi2
    · exact hmono i mid hi1 hge (by omega) hp
  | case2 lo hi hlt mid hp ih =>
    have hrec := ih fun i j h1 h2 h3 => hmono i j h1 h2 (by omega)
    refine ⟨hrec.1, ?_⟩
    intro i hi1 hi2
    rcases lt_or_ge i mid with hlt' | hge
    · exact hrec.2 i hi1 hlt'
    · by_contra hcon
      have hpi : p i = true := by simpa using hcon
      exact hp (hmono mid i (by omega) hge hi2 hpi)
  | case3 lo hi hge =>
    constructor
    · intro i h1 h2
      omega
    · intro i h1 h2
      omega

/-- In a list whose elements with `p` come first, the search counts them. -/
theorem partitionPoint_takeWhile (l : List α) (p : α → Bool)
    (hmono : l.Pairwise fun a b => p b = true → p a = true) :
    partitionPoint (fun k => (l[k]?).any p) 0 l.length = (l.takeWhile p).length := by
  have hle := partitionPoint_le (fun k => (l[k]?).any p) (zero_le l.length)
  have hspec := partitionPoint_spec (fun k => (l[k]?).any p) 0 l.length (by
    intro i j _ hij hj hp
    have hi : i < l.length := by omega
    rw [getElem?_eq_getElem hj] at hp
    rw [getElem?_eq_getElem hi]
    rcases lt_or_eq_of_le hij with hlt | rfl
    · exact pairwise_iff_getElem.mp hmono i j hi hj hlt hp
    · exact hp)
  generalize partitionPoint (fun k => (l[k]?).any p) 0 l.length = r at hle hspec ⊢
  have hfront : ∀ a ∈ l.take r, p a = true := by
    intro a ha
    rcases mem_iff_getElem.mp ha with ⟨i, hi, rfl⟩
    rw [List.length_take] at hi
    have hp := hspec.1 i (zero_le i) (by omega)
    rw [getElem?_eq_getElem (by omega)] at hp
    rw [getElem_take]
    exact hp
  have hback : (l.drop r).takeWhile p = [] := by
    cases hd : l.drop r with
    | nil => rfl
    | cons a rest =>
      have hget : l[r]? = some a := by
        have h0 : (l.drop r)[0]? = some a := by rw [hd]; rfl
        simpa using h0
      have hlt := (List.getElem?_eq_some_iff.mp hget).1
      have hp := hspec.2 r (Nat.le_refl r) hlt
      rw [hget] at hp
      exact takeWhile_cons_of_neg (by simpa using hp)
  conv_rhs => rw [← take_append_drop r l]
  rw [takeWhile_append_of_pos hfront, hback, append_nil, List.length_take]
  omega

end Nova.Lib
