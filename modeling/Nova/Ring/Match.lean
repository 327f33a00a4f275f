import Nova.Ring.Scan

/-!
# Patterns over an image

`match_triples` finds the triples of a pattern without reading the whole graph: the
bound positions give a range of rows of one of the three tables, and the rows of the
range are turned back into triples. A fully bound pattern, like `contains`, looks for
the object among the rows of subject and predicate.

* `matchTriplesDense_lists`, `containsDense_eq` — on a ring that represents its triples
* `answersPatterns_iff` — the rings that do
* `matchTriplesExternal_lists`, `containsExternal_eq` — on the image of a graph
-/

namespace Nova.Ring

open Nova.Lib Nova.Lib.LastFirst List

namespace CyclicRing

variable (r : CyclicRing)

/-- The triple of a row of the SPO table. -/
def tripleAtSpo (i : Nat) : Option Row := do
  let o ← r.access .O i
  let iOsp ← r.f .O i
  let p ← r.access .P iOsp
  let iPos ← r.f .P iOsp
  let s ← r.access .S iPos
  some (s, p, o)

/-- The triple of a row of the OSP table. -/
def tripleAtOsp (k : Nat) : Option Row := do
  let p ← r.access .P k
  let iPos ← r.f .P k
  let s ← r.access .S iPos
  let iSpo ← r.f .S iPos
  let o ← r.access .O iSpo
  some (s, p, o)

/-- The triple of a row of the POS table. -/
def tripleAtPos (j : Nat) : Option Row := do
  let s ← r.access .S j
  let iSpo ← r.f .S j
  let o ← r.access .O iSpo
  let iOsp ← r.f .O iSpo
  let p ← r.access .P iOsp
  some (s, p, o)

/-- The triples of all rows of a range. -/
def pushRange (range : Option RowRange) (recover : Nat → Option Row) : Option (List Row) := do
  let range ← range
  if range.isEmpty then some [] else (List.range' range.start range.len).mapM recover

def matchTriplesDense (s p o : Option Nat) : Option (List Row) :=
  if r.n = 0 then some []
  else if !r.inAlphabet s || !r.inAlphabet p || !r.inAlphabet o then some []
  else
    match s, p, o with
    | some sv, some pv, some ov => do
      let range ← r.rangeSp sv pv
      some (if !range.isEmpty && r.rangeNextValue .O range ov == some ov then [(sv, pv, ov)] else [])
    | some sv, none, none => pushRange (r.rangeS sv) r.tripleAtSpo
    | some sv, some pv, none => pushRange (r.rangeSp sv pv) r.tripleAtSpo
    | some sv, none, some ov => pushRange (r.rangeOs ov sv) r.tripleAtOsp
    | none, some pv, none => pushRange (r.rangeP pv) r.tripleAtPos
    | none, some pv, some ov => pushRange (r.rangePo pv ov) r.tripleAtPos
    | none, none, some ov => pushRange (r.rangeO ov) r.tripleAtOsp
    | none, none, none => pushRange (some (.full r.n)) r.tripleAtSpo

def containsDense (s p o : Nat) : Option Bool :=
  if r.univ ≤ s || r.univ ≤ p || r.univ ≤ o then some false
  else do
    let range ← r.rangeSp s p
    if range.isEmpty then some false else some (r.rangeNextValue .O range o == some o)

end CyclicRing

namespace IdRemap

/-- A bound position in numbers; `none` if its id is not in the graph. -/
def mapBound (m : IdRemap) : Option Nat → Option (Option Nat)
  | none => some none
  | some e => (m.toDense e).map some

end IdRemap

namespace BraidedGraphImage

variable (img : BraidedGraphImage)

def matchTriplesExternal (s p o : Option Nat) : Option (List Row) :=
  match img.remap.mapBound s, img.remap.mapBound p, img.remap.mapBound o with
  | some sd, some pd, some od => do
    let rows ← img.ring.matchTriplesDense sd pd od
    some (rows.filterMap img.remap.unmapTriple)
  | _, _, _ => some []

def containsExternal (s p o : Nat) : Option Bool :=
  match img.remap.toDense s, img.remap.toDense p, img.remap.toDense o with
  | some sd, some pd, some od => img.ring.containsDense sd pd od
  | _, _, _ => some false

end BraidedGraphImage

/-! ## Rows as triples -/

/-- A row of a table, turned back. -/
def spoOf : Col → Row → Row
  | .O, t => t
  | .P, t => rotate (rotate t)
  | .S, t => rotate t

theorem spoOf_injective (c : Col) : Function.Injective (spoOf c) := by
  rcases c with _ | _ | _
  · exact fun _ _ h => h
  · exact rotate_injective.comp rotate_injective
  · exact rotate_injective

variable {triples : List Row} {univ : Nat}

variable {t : Row}

theorem mem_table_iff {c : Col} : t ∈ table triples c ↔ spoOf c t ∈ triples := by
  rcases c with _ | _ | _
  · exact mem_table_O
  · -- two turns lead back to the first table
    refine Iff.trans ?_ mem_table_O
    exact (mem_table_next (c := .P)).symm.trans (mem_table_next (c := .S)).symm
  · exact (mem_table_next (c := .S)).symm.trans mem_table_O

theorem mapM_range'_eq {α : Type} {rows : List α} {g : Nat → Option Row} {h : α → Row} {a n : Nat}
    (hrow : ∀ i, a ≤ i → i < a + n → ∃ t, rows[i]? = some t ∧ g i = some (h t)) :
    (List.range' a n).mapM g = some (((rows.drop a).take n).map h) := by
  induction n generalizing a with
  | zero => simp
  | succ n ih =>
    obtain ⟨t, ht, hg⟩ := hrow a (Nat.le_refl a) (by omega)
    have hrest := ih (a := a + 1) fun i h₁ h₂ => hrow i (by omega) (by omega)
    have hdrop : rows.drop a = t :: rows.drop (a + 1) := by
      obtain ⟨hlt, rfl⟩ := List.getElem?_eq_some_iff.mp ht
      exact drop_eq_getElem_cons hlt
    rw [range'_succ, mapM_cons, hg, hrest, hdrop]
    rfl

namespace Built

variable (h : Built triples univ)
include h

theorem tripleAtSpo_row {i : Nat} (hi : (table triples .O)[i]? = some t) :
    (buildShared triples univ).tripleAtSpo i = some (spoOf .O t) := by
  have hP : (table triples .P)[lf (lasts triples .O) t.2.2 i]? = some (rotate t) := next_lf_eq h.nodup hi
  have hS : (table triples .S)[lf (lasts triples .P) (rotate t).2.2 (lf (lasts triples .O) t.2.2 i)]? =
      some (rotate (rotate t)) := next_lf_eq h.nodup hP
  simp only [CyclicRing.tripleAtSpo, access_row hi, f_eq h.fits h.shared hi, access_row hP,
    f_eq h.fits h.shared hP, access_row hS, Option.bind_eq_bind, Option.bind_some]
  rfl

theorem tripleAtOsp_row {i : Nat} (hi : (table triples .P)[i]? = some t) :
    (buildShared triples univ).tripleAtOsp i = some (spoOf .P t) := by
  have hS : (table triples .S)[lf (lasts triples .P) t.2.2 i]? = some (rotate t) := next_lf_eq h.nodup hi
  have hO : (table triples .O)[lf (lasts triples .S) (rotate t).2.2 (lf (lasts triples .P) t.2.2 i)]? =
      some (rotate (rotate t)) := next_lf_eq h.nodup hS
  simp only [CyclicRing.tripleAtOsp, access_row hi, f_eq h.fits h.shared hi, access_row hS,
    f_eq h.fits h.shared hS, access_row hO, Option.bind_eq_bind, Option.bind_some]
  rfl

theorem tripleAtPos_row {i : Nat} (hi : (table triples .S)[i]? = some t) :
    (buildShared triples univ).tripleAtPos i = some (spoOf .S t) := by
  have hO : (table triples .O)[lf (lasts triples .S) t.2.2 i]? = some (rotate t) := next_lf_eq h.nodup hi
  have hP : (table triples .P)[lf (lasts triples .O) (rotate t).2.2 (lf (lasts triples .S) t.2.2 i)]? =
      some (rotate (rotate t)) := next_lf_eq h.nodup hO
  simp only [CyclicRing.tripleAtPos, access_row hi, f_eq h.fits h.shared hi, access_row hO,
    f_eq h.fits h.shared hO, access_row hP, Option.bind_eq_bind, Option.bind_some]
  rfl

end Built

/-! ## What a pattern finds -/

/-- The triples that match, each once. -/
def ListsMatches (triples : List Row) (s p o : Option Nat) (res : Option (List Row)) : Prop :=
  ∃ rows, res = some rows ∧ rows.Nodup ∧ ∀ t, t ∈ rows ↔ t ∈ triples ∧ matchesRow s p o t = true

variable {s p o : Option Nat}

theorem listsMatches_nil (hnone : ∀ t ∈ triples, matchesRow s p o t = false) :
    ListsMatches triples s p o (some []) := by
  refine ⟨[], rfl, .nil, ?_⟩
  intro t
  constructor
  · exact nofun
  · rintro ⟨ht, hm⟩
    rw [hnone t ht] at hm
    exact absurd hm (by simp)

theorem table_nodup (hnodup : triples.Nodup) (c : Col) : (table triples c).Nodup :=
  (table_sorted hnodup c).imp fun hlt => hlt.2

theorem listsMatches_pushRange (hnodup : triples.Nodup) {c : Col} {range : RowRange} {recover : Nat → Option Row}
    (hrecover : ∀ i t, (table triples c)[i]? = some t → recover i = some (spoOf c t))
    (hrange : RowsAre range (table triples c) fun t => matchesRow s p o (spoOf c t) = true) :
    ListsMatches triples s p o (CyclicRing.pushRange (some range) recover) := by
  have hread : CyclicRing.pushRange (some range) recover =
      some (((table triples c).filter fun t => matchesRow s p o (spoOf c t)).map (spoOf c)) := by
    have hseg := segment_eq_filter hrange
    simp only [Bool.decide_eq_true] at hseg
    unfold CyclicRing.pushRange
    simp only [Option.bind_eq_bind, Option.bind_some]
    rw [← hseg]
    by_cases hempty : range.isEmpty = true
    · have hstop : range.stop ≤ range.start := of_decide_eq_true hempty
      rw [if_pos hempty, Nat.sub_eq_zero_of_le hstop, take_zero]
      rfl
    · rw [if_neg hempty]
      apply mapM_range'_eq
      intro i h₁ h₂
      have hlen : range.len = range.stop - range.start := rfl
      obtain ⟨t, ht, -⟩ := (hrange i).mp ⟨h₁, by omega⟩
      exact ⟨t, ht, hrecover i t ht⟩
  refine ⟨_, hread, ?_, ?_⟩
  · exact ((table_nodup hnodup c).filter _).map (spoOf_injective c)
  · intro t
    rw [mem_map]
    constructor
    · rintro ⟨row, hrow, rfl⟩
      rw [mem_filter] at hrow
      exact ⟨mem_table_iff.mp hrow.1, hrow.2⟩
    · rintro ⟨ht, hm⟩
      -- the row of the triple in this table
      have hback : ∃ row, spoOf c row = t := by
        rcases c with _ | _ | _
        · exact ⟨t, rfl⟩
        · exact ⟨rotate t, rotate_rotate_rotate t⟩
        · exact ⟨rotate (rotate t), rotate_rotate_rotate t⟩
      obtain ⟨row, rfl⟩ := hback
      exact ⟨row, mem_filter.mpr ⟨mem_table_iff.mpr ht, hm⟩, rfl⟩

theorem rangeNextValue_eq_self_iff {r : CyclicRing} {c : Col} {range : RowRange} {x : Nat}
    (hne : range.isEmpty = false) (hx : x < r.univ) :
    r.rangeNextValue c range x = some x ↔ x ∈ r.segment c range := by
  rw [CyclicRing.rangeNextValue, hne, decide_eq_false (Nat.not_le_of_lt hx)]
  simp only [Bool.or_self, Bool.false_eq_true, if_false]
  rw [min?_eq_some_iff]
  constructor
  · exact fun hmin => (mem_filter.mp hmin.1).1
  · intro hmem
    refine ⟨mem_filter.mpr ⟨hmem, decide_eq_true (Nat.le_refl x)⟩, ?_⟩
    intro y hy
    exact of_decide_eq_true (mem_filter.mp hy).2

theorem mem_segment_iff {s p o : Nat} {range : RowRange}
    (hrange : RowsAre range (table triples .O) fun t => rowMatches (some s) (some p) t = true) :
    o ∈ (buildShared triples univ).segment .O range ↔ (s, p, o) ∈ triples := by
  rw [segment_eq_column hrange, mem_column]
  constructor
  · rintro ⟨⟨s', p', o'⟩, ht, hm, rfl⟩
    obtain ⟨rfl, rfl⟩ : s' = s ∧ p' = p := by simpa [rowMatches] using hm
    exact mem_table_O.mp ht
  · intro ht
    exact ⟨(s, p, o), mem_table_O.mpr ht, by simp [rowMatches], rfl⟩

namespace Built

variable (h : Built triples univ)
include h

theorem matchesRow_outside
    (hout : (!(buildShared triples univ).inAlphabet s || !(buildShared triples univ).inAlphabet p ||
      !(buildShared triples univ).inAlphabet o) = true) (ht : t ∈ triples) : matchesRow s p o t = false := by
  have hfield : ∀ (b : Option Nat) (v : Nat), v < univ → (buildShared triples univ).inAlphabet b = false →
      b.all (fun x => v == x) = false := by
    intro b v hv hb
    rcases b with _ | x
    · exact absurd hb (by simp [CyclicRing.inAlphabet])
    · have hx : ¬ x < univ := of_decide_eq_false hb
      have hne : v ≠ x := by omega
      simpa using hne
  obtain ⟨hs, hp, ho⟩ := h.shared t ht
  simp only [Bool.or_eq_true, Bool.not_eq_true'] at hout
  rw [matchesRow]
  rcases hout with (hout | hout) | hout
  · rw [hfield s t.1 hs hout]
    rfl
  · rw [hfield p t.2.1 hp hout]
    simp
  · rw [hfield o t.2.2 ho hout]
    simp

theorem rangeSp_spec {s p : Nat} (hs : s < univ) (hp : p < univ) :
    ∃ range, (buildShared triples univ).rangeSp s p = some range ∧
      RowsAre range (table triples .O) (fun t => rowMatches (some s) (some p) t = true) := by
  obtain ⟨range, hr, hrows, -⟩ := h.under_spec .S hs hp
  exact ⟨range, hr, hrows⟩

theorem containsDense_eq (s p o : Nat) :
    (buildShared triples univ).containsDense s p o = some (decide ((s, p, o) ∈ triples)) := by
  unfold CyclicRing.containsDense
  by_cases hout : (buildShared triples univ).univ ≤ s ∨ (buildShared triples univ).univ ≤ p ∨
      (buildShared triples univ).univ ≤ o
  · rw [if_pos (by simpa [or_assoc] using hout)]
    have hnot : (s, p, o) ∉ triples := by
      intro ht
      obtain ⟨hs, hp, ho⟩ : s < univ ∧ p < univ ∧ o < univ := h.shared _ ht
      have hout' : univ ≤ s ∨ univ ≤ p ∨ univ ≤ o := hout
      omega
    simp [hnot]
  · rw [if_neg (by simpa [or_assoc] using hout)]
    simp only [not_or, Nat.not_le] at hout
    obtain ⟨hs, hp, ho⟩ := hout
    obtain ⟨range, hr, hrows⟩ := h.rangeSp_spec hs hp
    have hmem := @mem_segment_iff triples univ s p o range hrows
    rw [hr]
    simp only [Option.bind_eq_bind, Option.bind_some]
    by_cases hempty : range.isEmpty = true
    · rw [segment_eq_column hrows, (column_eq_nil_iff hrows).mpr hempty] at hmem
      rw [if_pos hempty, decide_eq_false fun ht => absurd (hmem.mpr ht) not_mem_nil]
    · have hnext := rangeNextValue_eq_self_iff (r := buildShared triples univ) (c := .O) (by simpa using hempty) ho
      rw [if_neg hempty]
      exact congrArg some (Bool.eq_iff_iff.mpr (beq_iff_eq.trans ((hnext.trans hmem).trans decide_eq_true_iff.symm)))

/-- Every pattern is answered with its matches, each once. -/
theorem matchTriplesDense_lists (s p o : Option Nat) :
    ListsMatches triples s p o ((buildShared triples univ).matchTriplesDense s p o) := by
  unfold CyclicRing.matchTriplesDense
  by_cases hn : (buildShared triples univ).n = 0
  · rw [if_pos hn]
    have hnil : triples = [] := length_eq_zero_iff.mp (h.n_eq.symm.trans hn)
    subst hnil
    exact listsMatches_nil (by simp)
  rw [if_neg hn]
  by_cases hout : (!(buildShared triples univ).inAlphabet s || !(buildShared triples univ).inAlphabet p ||
      !(buildShared triples univ).inAlphabet o) = true
  · rw [if_pos hout]
    exact listsMatches_nil fun t ht => h.matchesRow_outside hout ht
  rw [if_neg hout]
  simp only [Bool.or_eq_true, Bool.not_eq_true', not_or, Bool.not_eq_false] at hout
  obtain ⟨⟨hs, hp⟩, ho⟩ := hout
  have hbound : ∀ x, (buildShared triples univ).inAlphabet (some x) = true → x < univ :=
    fun x hx => of_decide_eq_true hx
  -- one range for each choice of bound positions
  rcases s with _ | sv <;> rcases p with _ | pv <;> rcases o with _ | ov
  · apply listsMatches_pushRange h.nodup fun i t => h.tripleAtSpo_row
    rw [h.n_eq]
    exact (rowsAre_full triples .O).congr fun t => by simp [matchesRow]
  · obtain ⟨range, hr, hrows, -⟩ := h.leadRange_spec (c := .O) (hbound ov ho)
    show ListsMatches _ _ _ _ (CyclicRing.pushRange ((buildShared triples univ).leadRange .O ov) _)
    rw [hr]
    apply listsMatches_pushRange h.nodup fun i t => h.tripleAtOsp_row
    exact hrows.congr fun t => by simp [matchesRow, spoOf, rotate]
  · obtain ⟨range, hr, hrows, -⟩ := h.leadRange_spec (c := .P) (hbound pv hp)
    show ListsMatches _ _ _ _ (CyclicRing.pushRange ((buildShared triples univ).leadRange .P pv) _)
    rw [hr]
    apply listsMatches_pushRange h.nodup fun i t => h.tripleAtPos_row
    exact hrows.congr fun t => by simp [matchesRow, spoOf, rotate]
  · obtain ⟨range, hr, hrows, -⟩ := h.under_spec .P (hbound pv hp) (hbound ov ho)
    have hpo : (buildShared triples univ).rangePo pv ov = some range := hr
    simp only [hpo]
    apply listsMatches_pushRange h.nodup fun i t => h.tripleAtPos_row
    exact hrows.congr fun t => by simp [matchesRow, spoOf, rotate, rowMatches]
  · obtain ⟨range, hr, hrows, -⟩ := h.leadRange_spec (c := .S) (hbound sv hs)
    show ListsMatches _ _ _ _ (CyclicRing.pushRange ((buildShared triples univ).leadRange .S sv) _)
    rw [hr]
    apply listsMatches_pushRange h.nodup fun i t => h.tripleAtSpo_row
    exact hrows.congr fun t => by simp [matchesRow, spoOf]
  · obtain ⟨range, hr, hrows, -⟩ := h.under_spec .O (hbound ov ho) (hbound sv hs)
    have hos : (buildShared triples univ).rangeOs ov sv = some range := hr
    simp only [hos]
    apply listsMatches_pushRange h.nodup fun i t => h.tripleAtOsp_row
    exact hrows.congr fun t => by simp [matchesRow, spoOf, rotate, rowMatches, and_comm]
  · obtain ⟨range, hr, hrows⟩ := h.rangeSp_spec (hbound sv hs) (hbound pv hp)
    simp only [hr]
    apply listsMatches_pushRange h.nodup fun i t => h.tripleAtSpo_row
    exact hrows.congr fun t => by simp [matchesRow, spoOf, rowMatches]
  · obtain ⟨range, hr, hrows⟩ := h.rangeSp_spec (hbound sv hs) (hbound pv hp)
    have hmem := @mem_segment_iff triples univ sv pv ov range hrows
    simp only [hr, Option.bind_eq_bind, Option.bind_some]
    by_cases hin : (sv, pv, ov) ∈ triples
    · have hne : range.isEmpty = false := by
        by_contra hempty
        have hnil := (column_eq_nil_iff hrows).mpr (by simpa using hempty)
        rw [← hmem, segment_eq_column hrows, hnil] at hin
        exact absurd hin not_mem_nil
      have hnext := (rangeNextValue_eq_self_iff (r := buildShared triples univ) (c := .O) hne
        (hbound ov ho)).mpr (hmem.mpr hin)
      rw [if_pos (by simp [hne, hnext])]
      refine ⟨_, rfl, nodup_singleton _, ?_⟩
      intro t
      rw [mem_singleton]
      constructor
      · rintro rfl
        exact ⟨hin, by simp [matchesRow]⟩
      · rintro ⟨-, hm⟩
        simp only [matchesRow, Option.all_some, Bool.and_eq_true, beq_iff_eq] at hm
        exact Prod.ext hm.1.1 (Prod.ext hm.1.2 hm.2)
    · have hmiss : ¬ (!range.isEmpty && (buildShared triples univ).rangeNextValue .O range ov == some ov) = true := by
        intro hboth
        simp only [Bool.and_eq_true, Bool.not_eq_true', beq_iff_eq] at hboth
        exact hin (hmem.mp ((rangeNextValue_eq_self_iff hboth.1 (hbound ov ho)).mp hboth.2))
      rw [if_neg hmiss]
      apply listsMatches_nil
      rintro ⟨s', p', o'⟩ ht
      apply Bool.eq_false_iff.mpr
      intro hm
      simp only [matchesRow, Option.all_some, Bool.and_eq_true, beq_iff_eq] at hm
      obtain ⟨⟨rfl, rfl⟩, rfl⟩ := hm
      exact hin ht

end Built

theorem fits_of_matches (hnodup : triples.Nodup)
    (h : ListsMatches triples none none none ((buildShared triples univ).matchTriplesDense none none none)) :
    triples.length < 2 ^ 32 := by
  obtain ⟨rows, hrows, hnodup', hmem⟩ := h
  -- the rows are the triples, and as many as the row count says
  have hperm : rows.Perm triples := (perm_ext_iff_of_nodup hnodup' hnodup).mpr fun t => by
    rw [hmem]
    simp [matchesRow]
  have hlen : rows.length = (buildShared triples univ).n := by
    simp only [CyclicRing.matchTriplesDense, CyclicRing.inAlphabet, CyclicRing.pushRange, RowRange.full,
      RowRange.isEmpty, RowRange.len, Option.all_none, Option.bind_eq_bind, Option.bind_some] at hrows
    by_cases hn : (buildShared triples univ).n = 0
    · rw [if_pos hn] at hrows
      rw [hn, ← Option.some.inj hrows, length_nil]
    · simp [hn] at hrows
      have := length_of_mapM hrows
      simpa using this
  rw [← hperm.length_eq, hlen]
  exact Nat.mod_lt _ (by decide)

/-- Patterns and membership on the ring of `triples`, as the set answers them. -/
def AnswersPatterns (triples : List Row) (univ : Nat) : Prop :=
  (∀ s p o, ListsMatches triples s p o ((buildShared triples univ).matchTriplesDense s p o)) ∧
    ∀ s p o, (buildShared triples univ).containsDense s p o = some (decide ((s, p, o) ∈ triples))

/-- Patterns are answered exactly when the number of triples fits in 32 bits. -/
theorem answersPatterns_iff (triples : List Row) (univ : Nat) (hnodup : triples.Nodup)
    (hshared : Shared triples univ) (huniv : univ < 2 ^ 32) :
    (AnswersPatterns triples univ ↔ triples.length < 2 ^ 32) ∧
      ∀ (mid : Nat → Option Nat) (val : Nat → Nat) (lo : Nat) (hi : Fin (2 ^ 32)) (target : Nat),
        (∀ i, lo ≤ i → i < hi → mid i = some (val i)) → (∀ i j, lo ≤ i → i ≤ j → j < hi → val i ≤ val j) →
        ∃ k, lowerBoundMiddleSaturating mid lo hi target = some k ∧
          lowerBoundMiddle mid lo hi target = some k ∧ (hi ≤ lo → k = lo) ∧
            (lo ≤ hi → Splits val lo hi target k) := by
  refine ⟨⟨fun h => fits_of_matches hnodup (h.1 none none none), ?_⟩, ?_⟩
  · intro hfits
    have h : Built triples univ := ⟨hnodup, hshared, hfits, huniv⟩
    exact ⟨h.matchTriplesDense_lists, h.containsDense_eq⟩
  · intro mid val lo hi target hmid hmono
    obtain ⟨k, hk, hspec⟩ := lowerBoundMiddleSaturating_spec hmid hmono target
    exact ⟨k, hk, (lowerBoundMiddleSaturating_eq mid lo hi target).symm.trans hk, hspec⟩

theorem answersPatterns_two : AnswersPatterns [(0, 1, 3), (0, 1, 2)] 4 ∧
    ∃ k, lowerBoundMiddleSaturating some 0 3 (2 ^ 32 - 1) = some k ∧ Splits id 0 3 (2 ^ 32 - 1) k := by
  have h := answersPatterns_iff [(0, 1, 3), (0, 1, 2)] 4 (by decide) (by decide) (by decide)
  refine ⟨h.1.mpr (by decide), ?_⟩
  obtain ⟨k, hk, -, -, hsplits⟩ := h.2 some id 0 3 (2 ^ 32 - 1) (fun _ _ _ => rfl) (fun _ _ _ hle _ => hle)
  exact ⟨k, hk, hsplits (Nat.zero_le _)⟩

/-- With `2 ^ 32` triples the unbound pattern finds nothing. -/
theorem squareTriples_unanswered : squareTriples.Nodup ∧ Shared squareTriples (2 ^ 16) ∧
    (0, 0, 0) ∈ squareTriples ∧
    (buildShared squareTriples (2 ^ 16)).matchTriplesDense none none none = some [] ∧
    ¬ AnswersPatterns squareTriples (2 ^ 16) := by
  have hlen : squareTriples.length = 2 ^ 32 := by rw [squareTriples, length_map, length_range]
  have hmem : (0, 0, 0) ∈ squareTriples := mem_map.mpr ⟨0, mem_range.mpr (by decide), rfl⟩
  have hn : (buildShared squareTriples (2 ^ 16)).n = 0 := by
    show u32 squareTriples.length = 0
    rw [hlen]
    rfl
  refine ⟨squareTriples_nodup, squareTriples_shared, hmem, ?_, ?_⟩
  · rw [CyclicRing.matchTriplesDense, if_pos hn]
  · intro h
    have hfits := fits_of_matches squareTriples_nodup (h.1 none none none)
    omega

/-! ## Images -/

theorem denseRow_of_unmap {row : Row} (hrow : (IdRemap.fromTriples triples).unmapTriple row = some t) :
    denseRow triples t = row := by
  simp only [IdRemap.unmapTriple, IdRemap.toExternal, externals_fromTriples, Option.bind_eq_bind,
    Option.bind_eq_some_iff] at hrow
  obtain ⟨s, hs, p, hp, o, ho, ht⟩ := hrow
  obtain rfl := Option.some.inj ht
  exact Prod.ext (number_eq hs) (Prod.ext (number_eq hp) (number_eq ho))

/-- Numbering keeps what a pattern matches. -/
theorem matchesRow_denseRow (hs : s.all (· ∈ symbolsOf triples) = true)
    (hp : p.all (· ∈ symbolsOf triples) = true) (ho : o.all (· ∈ symbolsOf triples) = true)
    (ht : t ∈ triples) :
    matchesRow (s.map (number triples)) (p.map (number triples)) (o.map (number triples)) (denseRow triples t) =
      matchesRow s p o t := by
  have hfield : ∀ (b : Option Nat) (v : Nat), b.all (· ∈ symbolsOf triples) = true → v ∈ symbolsOf triples →
      (b.map (number triples)).all (fun x => number triples v == x) = b.all (fun x => v == x) := by
    intro b v hb hv
    rcases b with _ | x
    · rfl
    · have hx : x ∈ symbolsOf triples := by simpa using hb
      simp only [Option.map_some, Option.all_some]
      apply Bool.eq_iff_iff.mpr
      rw [beq_iff_eq, beq_iff_eq]
      exact ⟨number_inj hv hx, congrArg (number triples)⟩
  obtain ⟨hts, htp, hto⟩ := symbols_of_mem ht
  simp only [matchesRow, denseRow]
  rw [hfield s _ hs hts, hfield p _ hp htp, hfield o _ ho hto]

section Image

variable (hfits : FitsU32 triples) {img : BraidedGraphImage} (himg : ImageOf img triples)
include hfits himg

theorem ImageOf.built : ∃ univ, img.ring = buildShared (BraidedGraphImage.denseOf triples) univ ∧
    Built (BraidedGraphImage.denseOf triples) univ := by
  obtain ⟨univ, hring, huniv, hlt⟩ := himg.ring
  refine ⟨univ, hring, denseOf_nodup triples, shared_denseOf hfits huniv, ?_, hlt⟩
  rw [length_denseOf hfits]
  exact hfits.rows

omit hfits in
theorem ImageOf.mapBound_eq (hsymbols : (symbolsOf triples).length < 2 ^ 32) (b : Option Nat) :
    img.remap.mapBound b =
      if b.all (· ∈ symbolsOf triples) then some (b.map (number triples)) else none := by
  rw [himg.remap]
  rcases b with _ | e
  · rfl
  · by_cases he : e ∈ symbolsOf triples
    · simp [IdRemap.mapBound, toDense_of_mem hsymbols he, he]
    · simp [IdRemap.mapBound, toDense_of_not_mem he, he]

theorem containsExternal_eq (s p o : Nat) :
    img.containsExternal s p o = some (decide ((s, p, o) ∈ triples)) := by
  obtain ⟨univ, hring, hbuilt⟩ := himg.built hfits
  rw [BraidedGraphImage.containsExternal, himg.remap]
  by_cases hknown : Known triples (s, p, o)
  · obtain ⟨hs, hp, ho⟩ := hknown
    rw [toDense_of_mem hfits.symbols hs, toDense_of_mem hfits.symbols hp, toDense_of_mem hfits.symbols ho]
    simp only
    rw [hring, hbuilt.containsDense_eq]
    exact congrArg some (decide_eq_decide.mpr (mem_denseOf hfits ⟨hs, hp, ho⟩))
  · have hnot : (s, p, o) ∉ triples := fun ht => hknown (symbols_of_mem ht)
    rw [decide_eq_false hnot]
    -- one of the three has no number
    split
    · rename_i hs hp ho
      have hin : ∀ {x d : Nat}, (IdRemap.fromTriples triples).toDense x = some d → x ∈ symbolsOf triples :=
        fun hx => mem_of_getElem? ((toDense_fromTriples hfits.symbols).mp hx)
      exact absurd ⟨hin hs, hin hp, hin ho⟩ hknown
    · rfl

/-- Every pattern on the image is answered with its matches, each once. -/
theorem matchTriplesExternal_lists (s p o : Option Nat) :
    ListsMatches triples s p o (img.matchTriplesExternal s p o) := by
  obtain ⟨univ, hring, hbuilt⟩ := himg.built hfits
  have hbound := himg.mapBound_eq hfits.symbols
  rw [BraidedGraphImage.matchTriplesExternal, hbound s, hbound p, hbound o]
  by_cases hknown : s.all (· ∈ symbolsOf triples) = true ∧ p.all (· ∈ symbolsOf triples) = true ∧
      o.all (· ∈ symbolsOf triples) = true
  · obtain ⟨hs, hp, ho⟩ := hknown
    obtain ⟨rows, hr, hnodup, hmem⟩ := hbuilt.matchTriplesDense_lists (s.map (number triples))
      (p.map (number triples)) (o.map (number triples))
    simp only [if_pos hs, if_pos hp, if_pos ho, hring, hr, Option.bind_eq_bind, Option.bind_some]
    -- a row that was found is the number of a triple
    have hrow : ∀ row, row ∈ rows ↔ ∃ t ∈ triples, matchesRow s p o t = true ∧ denseRow triples t = row := by
      intro row
      rw [hmem, denseOf_eq hfits.symbols, mem_map]
      constructor
      · rintro ⟨⟨t, ht, rfl⟩, hm⟩
        rw [mem_distinctRows] at ht
        rw [matchesRow_denseRow hs hp ho ht] at hm
        exact ⟨t, ht, hm, rfl⟩
      · rintro ⟨t, ht, hm, rfl⟩
        exact ⟨⟨t, mem_distinctRows.mpr ht, rfl⟩, by rwa [matchesRow_denseRow hs hp ho ht]⟩
    have hunmap : ∀ row t, row ∈ rows → (img.remap.unmapTriple row = some t ↔
        t ∈ triples ∧ matchesRow s p o t = true ∧ denseRow triples t = row) := by
      intro row t hin
      obtain ⟨u, hu, hm, rfl⟩ := (hrow row).mp hin
      rw [himg.remap, unmap_denseRow hu, Option.some.injEq]
      constructor
      · rintro rfl
        exact ⟨hu, hm, rfl⟩
      · rintro ⟨ht, -, heq⟩
        exact (denseRow_inj (symbols_of_mem ht) (symbols_of_mem hu) heq).symm
    refine ⟨_, rfl, ?_, ?_⟩
    · apply List.Nodup.filterMap _ hnodup
      intro a b t ha hb
      rw [himg.remap] at ha hb
      exact (denseRow_of_unmap ha).symm.trans (denseRow_of_unmap hb)
    · intro t
      rw [mem_filterMap]
      constructor
      · rintro ⟨row, hin, hrow'⟩
        obtain ⟨ht, hm, -⟩ := (hunmap row t hin).mp hrow'
        exact ⟨ht, hm⟩
      · rintro ⟨ht, hm⟩
        have hin := (hrow (denseRow triples t)).mpr ⟨t, ht, hm, rfl⟩
        exact ⟨_, hin, (hunmap _ t hin).mpr ⟨ht, hm, rfl⟩⟩
  · -- a bound id is not in the graph
    have hnone : ∀ t ∈ triples, matchesRow s p o t = false := by
      intro t ht
      apply Bool.eq_false_iff.mpr
      intro hm
      simp only [matchesRow, Bool.and_eq_true] at hm
      obtain ⟨hts, htp, hto⟩ := symbols_of_mem ht
      have hfield : ∀ (b : Option Nat) (v : Nat), b.all (fun x => v == x) = true → v ∈ symbolsOf triples →
          b.all (· ∈ symbolsOf triples) = true := by
        intro b v hb hv
        rcases b with _ | x
        · rfl
        · have hvx : v = x := by simpa using hb
          simpa [← hvx] using hv
      exact hknown ⟨hfield s _ hm.1.1 hts, hfield p _ hm.1.2 htp, hfield o _ hm.2 hto⟩
    have hempty : ∀ x y z : Option (Option Nat), (x = none ∨ y = none ∨ z = none) →
        (match x, y, z with
          | some sd, some pd, some od => do
            let rows ← img.ring.matchTriplesDense sd pd od
            some (rows.filterMap img.remap.unmapTriple)
          | _, _, _ => some []) = some [] := by
      intro x y z hxyz
      rcases hxyz with rfl | rfl | rfl
      · rfl
      · rcases x with _ | x <;> rfl
      · rcases x with _ | x <;> rcases y with _ | y <;> rfl
    rw [hempty]
    · exact listsMatches_nil hnone
    · by_contra hall
      simp only [not_or, ite_eq_right_iff, reduceCtorEq, imp_false, not_not] at hall
      exact hknown hall

end Image

end Nova.Ring
