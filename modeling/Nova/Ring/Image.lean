import Nova.Core.Term
import Nova.Ring.Cyclic
import Nova.Lib.Sorted

/-!
# Graph images

The ids of a graph are numbered densely in their own order (`IdRemap`), and a graph
image is the cyclic ring of the renumbered triples. The numbering is kept as two
arrays, so that both directions are one read.

An image lives on the heap or in a mapped file. Both answer alike here: the file
format and the two kinds of predicate column are not modelled, only which of them is
open, since the scans choose by it.

* `toDense_fromTriples` — the two arrays are inverse to each other
* `mem_denseTriples`, `unmap_denseTriples` — the renumbered triples
* `enumerateSpoExternal_eq` — reading an image back gives its triples, sorted
-/

namespace Nova.Ring

open Nova.Lib Nova.Lib.LastFirst List

/-! ## Numbering -/

def denseMissing : Nat := 2 ^ 32 - 1

structure IdRemap where
  /-- The number of each id, or `denseMissing`. -/
  toDenseVec : List Nat
  /-- The ids, ascending. -/
  externals : List Nat
  deriving Repr, DecidableEq

/-- The ids of the triples, ascending. -/
def symbolsOf (triples : List Row) : List Nat :=
  Sorted.ofList (triples.flatMap fun t => [t.1, t.2.1, t.2.2])

namespace IdRemap

def fromTriples (triples : List Row) : IdRemap :=
  match (symbolsOf triples).getLast? with
  | none => ⟨[], []⟩
  | some maxExt =>
    { toDenseVec := (symbolsOf triples).zipIdx.foldl (fun v e => v.set e.1 (u32 e.2))
        (List.replicate (maxExt + 1) denseMissing)
      externals := symbolsOf triples }

/-- `vec![DENSE_MISSING; (max_ext as usize).saturating_add(1)]`; a vector has at most
`isize::MAX` bytes. -/
def allocate (maxExt : Nat) : Except Panic (List Nat) :=
  if 4 * min (maxExt + 1) (2 ^ 64 - 1) < 2 ^ 63 then
    .ok (List.replicate (min (maxExt + 1) (2 ^ 64 - 1)) denseMissing)
  else .error (.expect "capacity overflow")

/-- `from_triples` with its allocation. It returns `fromTriples`, unless an id is so large
that the vector cannot be had; the ids of a dictionary are far below. -/
def tryFromTriples (triples : List Row) : Except Panic IdRemap :=
  match (symbolsOf triples).getLast? with
  | none => .ok ⟨[], []⟩
  | some maxExt => do
    let slots ← allocate maxExt
    return ⟨(symbolsOf triples).zipIdx.foldl (fun v e => v.set e.1 (u32 e.2)) slots, symbolsOf triples⟩

variable (m : IdRemap)

def universeSize : Nat := u32 m.externals.length

def toDense (external : Nat) : Option Nat :=
  match m.toDenseVec[external]? with
  | none => none
  | some slot => if slot = denseMissing then none else some slot

def toExternal (dense : Nat) : Option Nat := m.externals[dense]?

/-- The least number whose id is at least the target. -/
def denseCeil (target : Nat) : Option Nat :=
  let i := CyclicRing.partitionPoint m.externals fun e => e < target
  if m.externals.length ≤ i then none else some (u32 i)

def mapTriple (t : Row) : Option Row := do
  let s ← m.toDense t.1
  let p ← m.toDense t.2.1
  let o ← m.toDense t.2.2
  some (s, p, o)

def unmapTriple (t : Row) : Option Row := do
  let s ← m.toExternal t.1
  let p ← m.toExternal t.2.1
  let o ← m.toExternal t.2.2
  some (s, p, o)

end IdRemap

/-! ## Images -/

structure BraidedGraphImage where
  remap : IdRemap
  ring : CyclicRing
  /-- A mapped file of the image is open. -/
  mapped : Bool
  /-- Its predicate column is the compressed one. -/
  cpIsHuff : Bool
  deriving Repr, DecidableEq

namespace BraidedGraphImage

/-- The renumbered triples, sorted and each once. -/
def denseOf (triples : List Row) : List Row :=
  dedupRuns (sortRows (triples.filterMap (IdRemap.fromTriples triples).mapTriple))

def fromExternalTriples (triples : List Row) : BraidedGraphImage :=
  match triples with
  | [] => ⟨⟨[], []⟩, buildShared [] 0, false, false⟩
  | _ :: _ =>
    { remap := IdRemap.fromTriples triples
      ring := buildShared (denseOf triples) (max (IdRemap.fromTriples triples).universeSize 1)
      mapped := false
      cpIsHuff := false }

/-- Writes the image to a file and keeps the file open. -/
def materializeMapped (img : BraidedGraphImage) (huff : Bool) : BraidedGraphImage :=
  { img with mapped := true, cpIsHuff := huff }

def enumerateSpoExternal (img : BraidedGraphImage) : Option (List Row) := do
  let dense ← img.ring.enumerateSpo
  some (sortRows (dense.filterMap img.remap.unmapTriple))

end BraidedGraphImage

/-! ## The two arrays -/

variable {x : Nat}

theorem mem_symbolsOf {triples : List Row} :
    x ∈ symbolsOf triples ↔ ∃ t ∈ triples, x = t.1 ∨ x = t.2.1 ∨ x = t.2.2 := by
  simp [symbolsOf, mem_flatMap]

theorem symbolsOf_sorted (triples : List Row) : (symbolsOf triples).Pairwise (· < ·) :=
  Sorted.pairwise_ofList _

theorem foldl_set_of_not_mem {l : List (Nat × Nat)} {v : List Nat} (h : ∀ e ∈ l, e.1 ≠ x) :
    (l.foldl (fun v e => v.set e.1 (u32 e.2)) v)[x]? = v[x]? := by
  induction l generalizing v with
  | nil => rfl
  | cons e l ih =>
    rw [foldl_cons, ih fun e' he' => h e' (mem_cons_of_mem _ he'),
      getElem?_set_ne (h e mem_cons_self)]

theorem foldl_set_of_mem {l : List (Nat × Nat)} (hnodup : (l.map Prod.fst).Nodup) {e : Nat × Nat} (he : e ∈ l)
    {v : List Nat} (hlt : e.1 < v.length) :
    (l.foldl (fun v e => v.set e.1 (u32 e.2)) v)[e.1]? = some (u32 e.2) := by
  induction l generalizing v with
  | nil => exact absurd he not_mem_nil
  | cons a l ih =>
    rw [map_cons, nodup_cons] at hnodup
    rw [foldl_cons]
    rcases mem_cons.mp he with rfl | he
    · -- the rest does not touch the entry again
      have hrest : ∀ e' ∈ l, e'.1 ≠ e.1 := by
        intro e' he' heq
        exact hnodup.1 (heq ▸ mem_map_of_mem he')
      rw [foldl_set_of_not_mem hrest, getElem?_set_self hlt]
    · exact ih hnodup.2 he (by rwa [length_set])

variable {triples : List Row}

theorem le_getLast_of_mem {l : List Nat} (hsorted : l.Pairwise (· < ·)) {m : Nat} (hlast : l.getLast? = some m)
    (hx : x ∈ l) : x ≤ m := by
  induction l generalizing x with
  | nil => exact absurd hx not_mem_nil
  | cons y ys ih =>
    rcases pairwise_cons.mp hsorted with ⟨hy, hys⟩
    rcases ys with _ | ⟨z, zs⟩
    · have hm : y = m := by simpa using hlast
      have hxy : x = y := by simpa using hx
      omega
    · rw [getLast?_cons_cons] at hlast
      rcases mem_cons.mp hx with rfl | hx
      · have hzm := ih hys hlast mem_cons_self
        have hyz := hy z mem_cons_self
        omega
      · exact ih hys hlast hx

@[simp] theorem externals_fromTriples (triples : List Row) :
    (IdRemap.fromTriples triples).externals = symbolsOf triples := by
  unfold IdRemap.fromTriples
  split
  · rename_i h
    exact (getLast?_eq_none_iff.mp h).symm
  · rfl

/-- The triples, sorted and each once. -/
def distinctRows (triples : List Row) : List Row := dedupRuns (sortRows triples)

/-- The numbers fit: ids and triples are fewer than `2 ^ 32`. -/
structure FitsU32 (triples : List Row) : Prop where
  symbols : (symbolsOf triples).length < 2 ^ 32
  rows : (distinctRows triples).length < 2 ^ 32

/-- The number of an id: how many ids are smaller. -/
def number (triples : List Row) (x : Nat) : Nat := (symbolsOf triples).countP fun y => decide (y < x)

theorem number_eq {d : Nat} (h : (symbolsOf triples)[d]? = some x) : number triples x = d :=
  countP_lt (fun _ _ hab hba => Nat.lt_asymm hab hba) (symbolsOf_sorted triples) h

section

variable (hx : x ∈ symbolsOf triples)
include hx

theorem getElem?_number : (symbolsOf triples)[number triples x]? = some x := by
  obtain ⟨d, hd⟩ := mem_iff_getElem?.mp hx
  rw [number_eq hd]
  exact hd

theorem number_lt_iff (target : Nat) : number triples x < number triples target ↔ x < target := by
  have hiff := lt_countP_iff (p := fun y => decide (y < target))
    (fun y z hlt hz => decide_eq_true (Nat.lt_trans hlt (of_decide_eq_true hz)))
    (symbolsOf_sorted triples) (getElem?_number hx)
  exact hiff.trans decide_eq_true_iff

theorem number_le_iff (target : Nat) : number triples target ≤ number triples x ↔ target ≤ x := by
  rw [← Nat.not_lt, number_lt_iff hx target, Nat.not_lt]

theorem number_inj {y : Nat} (hy : y ∈ symbolsOf triples)
    (h : number triples x = number triples y) : x = y := by
  have hxy := number_lt_iff hx y
  have hyx := number_lt_iff hy x
  omega

end

theorem number_le_length (triples : List Row) (x : Nat) : number triples x ≤
    (symbolsOf triples).length := countP_le_length

theorem number_lt_length (hx : x ∈ symbolsOf triples) : number triples x < (symbolsOf triples).length :=
  (List.getElem?_eq_some_iff.mp (getElem?_number hx)).1

theorem toDenseVec_number (hx : x ∈ symbolsOf triples) :
    (IdRemap.fromTriples triples).toDenseVec[x]? = some (u32 (number triples x)) := by
  unfold IdRemap.fromTriples
  split
  · rename_i h
    rw [getLast?_eq_none_iff] at h
    rw [h] at hx
    exact absurd hx not_mem_nil
  · rename_i maxExt hlast
    have hmem : (x, number triples x) ∈ (symbolsOf triples).zipIdx :=
      mem_zipIdx_iff_getElem?.mpr (getElem?_number hx)
    have hnodup : ((symbolsOf triples).zipIdx.map Prod.fst).Nodup := by
      rw [zipIdx_map_fst]
      exact (symbolsOf_sorted triples).imp Nat.ne_of_lt
    have hle := le_getLast_of_mem (symbolsOf_sorted triples) hlast hx
    exact foldl_set_of_mem hnodup hmem (by rw [length_replicate]; omega)

theorem toDenseVec_of_not_mem {slot : Nat} (hx : x ∉ symbolsOf triples)
    (h : (IdRemap.fromTriples triples).toDenseVec[x]? = some slot) : slot = denseMissing := by
  unfold IdRemap.fromTriples at h
  split at h
  · exact absurd h (by simp)
  · dsimp only at h
    rw [foldl_set_of_not_mem] at h
    · exact eq_of_mem_replicate (mem_of_getElem? h)
    · intro e he heq
      exact hx (heq ▸ mem_of_getElem? (mem_zipIdx_iff_getElem?.mp he))

theorem toDense_of_not_mem (hx : x ∉ symbolsOf triples) : (IdRemap.fromTriples triples).toDense x = none := by
  unfold IdRemap.toDense
  split
  · rfl
  · rename_i slot h
    rw [if_pos (toDenseVec_of_not_mem hx h)]

section Fits

variable (hsymbols : (symbolsOf triples).length < 2 ^ 32)
include hsymbols

theorem toDense_of_mem (hx : x ∈ symbolsOf triples) :
    (IdRemap.fromTriples triples).toDense x = some (number triples x) := by
  have hlt := number_lt_length hx
  unfold IdRemap.toDense
  rw [toDenseVec_number hx, u32_of_lt (by omega)]
  show (if _ then _ else _) = _
  rw [if_neg]
  unfold denseMissing
  omega

theorem toDense_fromTriples {d : Nat} :
    (IdRemap.fromTriples triples).toDense x = some d ↔ (symbolsOf triples)[d]? = some x := by
  constructor
  · intro h
    by_cases hx : x ∈ symbolsOf triples
    · rw [toDense_of_mem hsymbols hx, Option.some.injEq] at h
      rw [← h]
      exact getElem?_number hx
    · rw [toDense_of_not_mem hx] at h
      exact absurd h (by simp)
  · intro h
    rw [toDense_of_mem hsymbols (mem_of_getElem? h), number_eq h]

end Fits

theorem partitionPoint_eq_countP {l : List Nat} (hsorted : l.Pairwise (· < ·)) (target : Nat) :
    CyclicRing.partitionPoint l (fun e => e < target) = l.countP fun e => decide (e < target) := by
  unfold CyclicRing.partitionPoint
  induction l with
  | nil => rfl
  | cons x xs ih =>
    rcases pairwise_cons.mp hsorted with ⟨hx, hxs⟩
    by_cases hlt : x < target
    · rw [takeWhile_cons_of_pos (by simpa using hlt), length_cons, ih hxs,
        countP_cons_of_pos (by simpa using hlt)]
    · have hzero : (x :: xs).countP (fun e => decide (e < target)) = 0 := by
        apply countP_eq_zero.mpr
        intro y hy
        rcases mem_cons.mp hy with rfl | hy
        · simpa using hlt
        · have hxy := hx y hy
          simp only [decide_eq_true_eq]
          omega
      rw [takeWhile_cons_of_neg (by simpa using hlt), hzero, length_nil]

theorem denseCeil_fromTriples (hsymbols : (symbolsOf triples).length < 2 ^ 32) (target : Nat) :
    (IdRemap.fromTriples triples).denseCeil target =
      if (symbolsOf triples).length ≤ number triples target then none else some (number triples target) := by
  have hle := number_le_length triples target
  unfold IdRemap.denseCeil
  rw [externals_fromTriples, partitionPoint_eq_countP (symbolsOf_sorted triples)]
  show (if (symbolsOf triples).length ≤ number triples target then none else some (u32 (number triples target))) = _
  rw [u32_of_lt (by omega)]

/-! ## The renumbered triples -/

/-- A triple in numbers. -/
def denseRow (triples : List Row) (t : Row) : Row :=
  (number triples t.1, number triples t.2.1, number triples t.2.2)

/-- All ids of the triple have a number. -/
def Known (triples : List Row) (t : Row) : Prop :=
  t.1 ∈ symbolsOf triples ∧ t.2.1 ∈ symbolsOf triples ∧ t.2.2 ∈ symbolsOf triples

variable {t : Row}

theorem symbols_of_mem (ht : t ∈ triples) : Known triples t :=
  ⟨mem_symbolsOf.mpr ⟨t, ht, .inl rfl⟩, mem_symbolsOf.mpr ⟨t, ht, .inr (.inl rfl)⟩,
    mem_symbolsOf.mpr ⟨t, ht, .inr (.inr rfl)⟩⟩

theorem unmap_denseRow (ht : t ∈ triples) :
    (IdRemap.fromTriples triples).unmapTriple (denseRow triples t) = some t := by
  obtain ⟨hs, hp, ho⟩ := symbols_of_mem ht
  simp [IdRemap.unmapTriple, IdRemap.toExternal, denseRow, getElem?_number hs, getElem?_number hp,
    getElem?_number ho]

theorem map_denseRow (hsymbols : (symbolsOf triples).length < 2 ^ 32) (ht : t ∈ triples) :
    (IdRemap.fromTriples triples).mapTriple t = some (denseRow triples t) := by
  obtain ⟨hs, hp, ho⟩ := symbols_of_mem ht
  simp [IdRemap.mapTriple, denseRow, toDense_of_mem hsymbols hs, toDense_of_mem hsymbols hp,
    toDense_of_mem hsymbols ho]

theorem denseRow_inj {a b : Row} (ha : Known triples a) (hb : Known triples b)
    (h : denseRow triples a = denseRow triples b) : a = b := by
  simp only [denseRow, Prod.mk.injEq] at h
  exact Prod.ext (number_inj ha.1 hb.1 h.1)
    (Prod.ext (number_inj ha.2.1 hb.2.1 h.2.1) (number_inj ha.2.2 hb.2.2 h.2.2))

theorem le_denseRow {a b : Row} (ha : Known triples a) (hb : Known triples b) :
    Row.le (denseRow triples a) (denseRow triples b) = true ↔ Row.le a b = true := by
  obtain ⟨has, hap, hao⟩ := ha
  obtain ⟨hbs, hbp, hbo⟩ := hb
  have hs := number_lt_iff has b.1
  have hs' := number_lt_iff hbs a.1
  have hp := number_lt_iff hap b.2.1
  have hp' := number_lt_iff hbp a.2.1
  have ho := number_le_iff hbo a.2.2
  rw [Row.le_iff, Row.le_iff]
  simp only [denseRow]
  omega

@[simp] theorem mem_distinctRows : t ∈ distinctRows triples ↔ t ∈ triples := by
  rw [distinctRows, mem_dedupRuns, (sortRows_perm triples).mem_iff]

theorem distinctRows_sorted (triples : List Row) :
    (distinctRows triples).Pairwise fun a b => Row.le a b = true :=
  (sortRows_sorted triples).sublist (dedupRuns_sublist _)

theorem distinctRows_nodup (triples : List Row) : (distinctRows triples).Nodup :=
  dedupRuns_nodup (sortRows_sorted triples)

variable {rows : List Row}

theorem eq_distinctRows (hsorted : rows.Pairwise fun a b => Row.le a b = true)
    (hnodup : rows.Nodup) (hmem : ∀ t, t ∈ rows ↔ t ∈ triples) : rows = distinctRows triples := by
  apply eq_of_sorted _ hsorted (distinctRows_sorted triples)
  rw [perm_ext_iff_of_nodup hnodup (distinctRows_nodup triples)]
  intro t
  rw [hmem, mem_distinctRows]

theorem sorted_map_denseRow (hrows : ∀ t ∈ rows, Known triples t)
    (hsorted : rows.Pairwise fun a b => Row.le a b = true) :
    (rows.map (denseRow triples)).Pairwise fun a b => Row.le a b = true := by
  apply pairwise_map.mpr
  apply List.Pairwise.imp_of_mem _ hsorted
  intro a b ha hb hle
  exact (le_denseRow (hrows a ha) (hrows b hb)).mpr hle

theorem sortRows_map_denseRow (hrows : ∀ t ∈ rows, Known triples t) :
    sortRows (rows.map (denseRow triples)) = (sortRows rows).map (denseRow triples) := by
  apply eq_of_sorted _ (sortRows_sorted _)
  · exact sorted_map_denseRow (fun t ht => hrows t ((sortRows_perm rows).mem_iff.mp ht)) (sortRows_sorted rows)
  · exact (sortRows_perm _).trans ((sortRows_perm rows).symm.map _)

theorem denseOf_eq (hsymbols : (symbolsOf triples).length < 2 ^ 32) :
    BraidedGraphImage.denseOf triples = (distinctRows triples).map (denseRow triples) := by
  have hmap : triples.filterMap (IdRemap.fromTriples triples).mapTriple = triples.map (denseRow triples) := by
    rw [← filterMap_eq_map]
    apply filterMap_congr
    intro t ht
    exact map_denseRow hsymbols ht
  rw [BraidedGraphImage.denseOf, hmap]
  symm
  apply eq_distinctRows
  · exact sorted_map_denseRow (fun t ht => symbols_of_mem (mem_distinctRows.mp ht)) (distinctRows_sorted triples)
  · apply List.Nodup.map_on _ (distinctRows_nodup triples)
    intro a ha b hb h
    exact denseRow_inj (symbols_of_mem (mem_distinctRows.mp ha)) (symbols_of_mem (mem_distinctRows.mp hb)) h
  · intro t
    simp [mem_map]

/-! ## Reading an image back -/

/-- The image of the triples, with a mapped file of it open or not. -/
structure ImageOf (img : BraidedGraphImage) (triples : List Row) : Prop where
  remap : img.remap = IdRemap.fromTriples triples
  ring : ∃ univ, img.ring = buildShared (BraidedGraphImage.denseOf triples) univ ∧
    (symbolsOf triples).length ≤ univ ∧ univ < 2 ^ 32

theorem imageOf_fromExternalTriples (hsymbols : (symbolsOf triples).length < 2 ^ 32) :
    ImageOf (BraidedGraphImage.fromExternalTriples triples) triples := by
  rcases triples with _ | ⟨t, ts⟩
  · exact ⟨rfl, 0, rfl, Nat.le_refl 0, by decide⟩
  · refine ⟨rfl, _, rfl, ?_, ?_⟩
    · rw [IdRemap.universeSize, externals_fromTriples, u32_of_lt hsymbols]
      exact Nat.le_max_left _ _
    · rw [IdRemap.universeSize, externals_fromTriples, u32_of_lt hsymbols]
      exact Nat.max_lt.mpr ⟨hsymbols, by decide⟩

theorem ImageOf.materializeMapped {img : BraidedGraphImage} (h : ImageOf img triples) (huff : Bool) :
    ImageOf (img.materializeMapped huff) triples := ⟨h.remap, h.ring⟩

theorem denseOf_nodup (triples : List Row) : (BraidedGraphImage.denseOf triples).Nodup :=
  dedupRuns_nodup (sortRows_sorted _)

section Image

variable (hfits : FitsU32 triples)
include hfits

theorem length_denseOf : (BraidedGraphImage.denseOf triples).length = (distinctRows triples).length := by
  rw [denseOf_eq hfits.symbols, length_map]

theorem shared_denseOf {univ : Nat} (huniv : (symbolsOf triples).length ≤ univ) :
    Shared (BraidedGraphImage.denseOf triples) univ := by
  intro t ht
  rw [denseOf_eq hfits.symbols] at ht
  obtain ⟨x, hx, rfl⟩ := mem_map.mp ht
  obtain ⟨hs, hp, ho⟩ := symbols_of_mem (mem_distinctRows.mp hx)
  exact ⟨Nat.lt_of_lt_of_le (number_lt_length hs) huniv, Nat.lt_of_lt_of_le (number_lt_length hp) huniv,
    Nat.lt_of_lt_of_le (number_lt_length ho) huniv⟩

theorem mem_denseOf (hknown : Known triples t) :
    denseRow triples t ∈ BraidedGraphImage.denseOf triples ↔ t ∈ triples := by
  rw [denseOf_eq hfits.symbols, mem_map]
  constructor
  · rintro ⟨x, hx, heq⟩
    rw [mem_distinctRows] at hx
    exact denseRow_inj (symbols_of_mem hx) hknown heq ▸ hx
  · intro ht
    exact ⟨t, mem_distinctRows.mpr ht, rfl⟩

theorem enumerateSpoExternal_eq {img : BraidedGraphImage} (himg : ImageOf img triples) :
    img.enumerateSpoExternal = some (distinctRows triples) := by
  obtain ⟨univ, hring, huniv, -⟩ := himg.ring
  have hlen : (BraidedGraphImage.denseOf triples).length < 2 ^ 32 := by
    rw [length_denseOf hfits]
    exact hfits.rows
  have hsorted : sortRows (BraidedGraphImage.denseOf triples) = BraidedGraphImage.denseOf triples :=
    eq_of_sorted (sortRows_perm _) (sortRows_sorted _)
      ((sortRows_sorted _).sublist (dedupRuns_sublist _))
  rw [BraidedGraphImage.enumerateSpoExternal, hring,
    enumerateSpo_eq hlen (shared_denseOf hfits huniv) (denseOf_nodup triples), hsorted, himg.remap]
  have hback : (BraidedGraphImage.denseOf triples).filterMap (IdRemap.fromTriples triples).unmapTriple =
      distinctRows triples := by
    rw [denseOf_eq hfits.symbols, filterMap_map]
    conv_rhs => rw [← filterMap_some (l := distinctRows triples)]
    apply filterMap_congr
    intro t ht
    exact unmap_denseRow (mem_distinctRows.mp ht)
  show some (sortRows _) = _
  rw [hback]
  exact congrArg some (eq_of_sorted (sortRows_perm _) (sortRows_sorted _) (distinctRows_sorted triples))

end Image

end Nova.Ring
