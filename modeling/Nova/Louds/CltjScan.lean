import Nova.Lib.Cursor
import Nova.Louds.JoinScan
import Nova.Louds.RingBuilder

/-!
# Join scans, bit by bit

`join_scan_concrete` seeks the bound columns one below the other and returns the
iterator of the level that it reaches.

* `lists_of_shows`: an iterator that shows a level lists the keys of the level,
  however `advance` and `seek` are mixed.
* `Refines.joinScanConcrete_lists`: the scan of a ring that refines an abstract one
  lists what the abstract scan returns.
* `ringBuild_joinScans_iff`: the scans of a built ring list the values of the target in
  the matching triples, exactly when the numbers of the ids fit in 32 bits.
-/

namespace Nova.Cltj

open Nova.Lib CltjTrie List

/-! ## Scans -/

/-- An iterator with its trie, or the `EmptyTrieIter` that stands for no matches. -/
abbrev JoinIter := Option (CltjTrie × CltjTrieIter)

/-- The methods of `TrieIterator` on a scan. -/
def scanCursor : Cursor JoinIter Nat where
  key := fun
    | none => some 0
    | some (x, it) => (x.keyC it).toOption
  atEnd := fun
    | none => true
    | some (_, it) => it.atEndC
  advance := fun scan => some (scan.map fun (x, it) => (x, it.advanceC))
  seek := fun scan target => match scan with
    | none => some none
    | some (x, it) => (x.seekC it target).toOption.map fun it => some (x, it)

/-- The loop of `join_scan_concrete` over the bound values. -/
def descend (x : CltjTrie) : CltjTrieIter → List Nat → Except Panic (Option CltjTrieIter)
  | it, [] => .ok (some it)
  | it, val :: vals => do
    let it ← x.seekC it val
    if it.atEndC then return none
    else
      let key ← x.keyC it
      if key ≠ val then return none
      else
        match ← x.openConcrete it with
        | none => return none
        | some child => if child.atEndC then return none else descend x child vals

/-- `join_scan_concrete`. -/
def GraphRing.joinScanConcrete (r : GraphRing) (s p o : Option Nat) (target : Nat) : Except Panic JoinIter :=
  match r.data with
  | none => .ok none
  | some data =>
    let bound := Nova.GraphRing.boundFieldsExcluding s p o target
    match Nova.GraphRing.chooseArrayForLftj bound target with
    | none => .error (.unreachable "invalid field ordering")
    | some order =>
      let x := data.tries order
      match x.iterD0Concrete with
      | none => .ok none
      | some it => (descend x it (bound.filterMap (Nova.GraphRing.fieldVal s p o))).map fun found =>
          found.map fun it => (x, it)

/-! ## Listing -/

theorem lists_empty : scanCursor.Lists none [] := by
  apply Cursor.lists_of_invariant (R := fun scan l => scan = none ∧ l = [])
  · intro scan l h
    rw [h.1, h.2]
    exact ⟨rfl, fun k hk => nomatch hk⟩
  · intro scan l m h
    rw [h.1, h.2]
    cases m <;> exact ⟨none, rfl, rfl, rfl⟩
  · exact ⟨rfl, rfl⟩

theorem keys_seek {α : Type} (l : Level α) (v : Nat) : (l.seek v).keys = Leapfrog.seek l.keys v := by
  unfold Level.seek Level.keys Leapfrog.seek
  rw [dropWhile_map]
  rfl

/-- An iterator over a level lists its keys. -/
theorem lists_of_shows {α : Type} {x : CltjTrie} {R : CltjTrieIter → α → Prop} {it : CltjTrieIter} {l : Level α}
    (hvocab : ∀ d, GoodVocab (x.vocabSlice d)) (h : Shows x R it l) (hinc : l.Increasing) :
    scanCursor.Lists (some (x, it)) l.keys := by
  apply Cursor.lists_of_invariant
    (R := fun scan ks => ∃ it l, scan = some (x, it) ∧ ks = l.keys ∧ Shows x R it l ∧ l.Increasing)
  · intro scan ks hscan
    obtain ⟨it, l, rfl, rfl, hshows, -⟩ := hscan
    constructor
    · have hend : it.atEndC = l.isEmpty := hshows.atEnd_eq
      show it.atEndC = l.keys.isEmpty
      rw [hend, Level.keys, isEmpty_map]
    · intro k hk
      rcases l with _ | ⟨e, l⟩
      · cases hk
      · rw [Level.keys, map_cons, head?_cons, Option.some.injEq] at hk
        show (x.keyC it).toOption = some k
        rw [hshows.keyC_eq, hk]
        rfl
  · intro scan ks m hscan
    obtain ⟨it, l, rfl, rfl, hshows, hinc⟩ := hscan
    cases m with
    | advance =>
      refine ⟨some (x, it.advanceC), rfl, it.advanceC, l.tail, rfl, ?_, ?_, hinc.sublist (tail_sublist l)⟩
      · exact (map_tail).symm
      · rcases l with _ | ⟨e, l⟩
        · have hend : it.atEndC = true := hshows.atEnd_eq
          rw [CltjTrieIter.advanceC, if_pos hend]
          exact hshows
        · exact hshows.advance
    | seek target =>
      obtain ⟨it', hseek, hshows'⟩ := hshows.seekC_eq (hvocab it.depth) hinc target
      refine ⟨some (x, it'), ?_, it', l.seek target, rfl, (keys_seek l target).symm, hshows',
        hinc.sublist (dropWhile_sublist _)⟩
      show ((x.seekC it target).toOption.map fun it => some (x, it)) = some (some (x, it'))
      rw [hseek]
      rfl
  · exact ⟨it, l, rfl, rfl, h, hinc⟩

/-! ## Descending -/

/-- One step down: seek, compare, open. -/
theorem descend_cons (x : CltjTrie) (it : CltjTrieIter) (val : Nat) (vals : List Nat) :
    descend x it (val :: vals) = (x.seekOpen (some it) val >>= fun found =>
      match found with
      | some (some child) => if child.atEndC then .ok none else descend x child vals
      | _ => .ok none) := by
  rw [descend, seekOpen]
  by_cases hend : it.atEndC = true
  · have hseek : x.seekC it val = .ok it := by rw [seekC, if_pos hend]
    have hend' : atEnd (some it) = true := hend
    rw [if_pos hend', hseek]
    show (if it.atEndC = true then _ else _) = _
    rw [if_pos hend]
    rfl
  · have hend' : ¬ atEnd (some it) = true := hend
    rw [if_neg hend', seek]
    rcases x.seekC it val with p | it'
    · rfl
    · show (if it'.atEndC = true then _ else _) = (if it'.atEndC = true then _ else _) >>= _
      split
      · rfl
      · show (x.keyC it' >>= fun key => if key ≠ val then _ else _) =
          (x.keyC it' >>= fun key => if key ≠ val then _ else x.openConcrete it' >>= _) >>= _
        rcases x.keyC it' with p | key
        · rfl
        · show (if key ≠ val then _ else _) = (if key ≠ val then _ else _) >>= _
          split
          · rfl
          · rcases x.openConcrete it' with p | _ | child <;> rfl

section Refine

variable {x : CltjTrie} {t : Trie3} {it : CltjTrieIter}

theorem lists_open {α : Type} {R : CltjTrieIter → α → Prop} {l : Level α}
    (hvocab : ∀ d, GoodVocab (x.vocabSlice d))
    (h : Shows x R it l) (hinc : l.Increasing) :
    scanCursor.Lists ((if it.atEndC then none else some it).map fun it => (x, it)) l.keys := by
  have hend : it.atEndC = l.isEmpty := h.atEnd_eq
  rw [hend]
  rcases l with _ | ⟨e, l⟩
  · exact lists_empty
  · exact lists_of_shows hvocab h hinc

theorem descend_one (h : ShowsTrie x t) (hroot : Shows₀ x it t) (v : Nat) :
    ∃ found, descend x it [v] = .ok found ∧
      scanCursor.Lists (found.map fun it => (x, it)) ((t.find v).elim [] Level.keys) := by
  rw [descend_cons]
  rcases Shows.seekOpen_eq (h.vocab it.depth) hroot h.sorted.top v with ⟨hfind, hseek⟩ |
    ⟨l, child, hfind, hseek, hshows⟩
  · rw [hfind, hseek]
    exact ⟨none, rfl, lists_empty⟩
  · rw [hfind, hseek]
    refine ⟨if child.atEndC then none else some child, ?_, lists_open h.vocab hshows (h.find_increasing hfind)⟩
    show (if child.atEndC = true then _ else _) = _
    split <;> rfl

theorem descend_two (h : ShowsTrie x t) (hroot : Shows₀ x it t) (v w : Nat) :
    ∃ found, descend x it [v, w] = .ok found ∧ scanCursor.Lists (found.map fun it => (x, it))
      (((t.find v).bind fun l => l.find w).elim [] Level.keys) := by
  rw [descend_cons]
  rcases Shows.seekOpen_eq (h.vocab it.depth) hroot h.sorted.top v with ⟨hfind, hseek⟩ |
    ⟨l, child, hfind, hseek, hshows⟩
  · rw [hfind, hseek]
    exact ⟨none, rfl, lists_empty⟩
  rw [hfind, hseek]
  show ∃ found, (if child.atEndC = true then _ else descend x child [w]) = _ ∧
    scanCursor.Lists _ ((l.find w).elim [] Level.keys)
  have hend : child.atEndC = l.isEmpty := hshows.atEnd_eq
  rw [hend]
  rcases hl : l with _ | ⟨e, rest⟩
  · exact ⟨none, rfl, lists_empty⟩
  · rw [isEmpty_cons, if_neg Bool.false_ne_true, ← hl, descend_cons]
    rcases h.seekOpen_child hfind hshows w with ⟨hfind', hseek'⟩ | ⟨l', child', hfind', hseek', hshows'⟩
    · rw [hfind', hseek']
      exact ⟨none, rfl, lists_empty⟩
    · rw [hfind', hseek']
      have hinc := h.sorted.bottom _ ((Level.find_eq_some h.sorted.top).mp hfind) _
        ((Level.find_eq_some (h.find_increasing hfind)).mp hfind')
      refine ⟨if child'.atEndC then none else some child', ?_, lists_open h.vocab hshows' hinc⟩
      show (if child'.atEndC = true then _ else _) = _
      split <;> rfl

end Refine

/-- With a free target there is an order that has the bound columns, at most two, in
front and goes on with the target. -/
theorem chooseArray_bound {s p o : Option Nat} {target : Nat} (htarget : target < 3)
    (hfree : Nova.GraphRing.fieldVal s p o target = none) :
    ∃ order, Nova.GraphRing.chooseArrayForLftj (Nova.GraphRing.boundFieldsExcluding s p o target) target =
        some order ∧
      ((Nova.GraphRing.boundFieldsExcluding s p o target).filterMap
        (Nova.GraphRing.fieldVal s p o)).length ≤ 2 := by
  have hcases : target = 0 ∨ target = 1 ∨ target = 2 := by omega
  rcases hcases with rfl | rfl | rfl
  all_goals
    simp only [Nova.GraphRing.fieldVal] at hfree
  · cases p <;> cases o <;>
      simp [Nova.GraphRing.boundFieldsExcluding, Nova.GraphRing.chooseArrayForLftj, range_succ,
        Nova.GraphRing.fieldVal]
  · cases s <;> cases o <;>
      simp [Nova.GraphRing.boundFieldsExcluding, Nova.GraphRing.chooseArrayForLftj, range_succ,
        Nova.GraphRing.fieldVal]
  · cases s <;> cases p <;>
      simp [Nova.GraphRing.boundFieldsExcluding, Nova.GraphRing.chooseArrayForLftj, range_succ,
        Nova.GraphRing.fieldVal]

/-- The scan of the succinct ring lists what the scan of the abstract ring returns. -/
theorem Refines.joinScanConcrete_lists {r : GraphRing} {g : Nova.GraphRing} (h : Refines r g)
    {s p o : Option Nat} {target : Nat} (htarget : target < 3)
    (hfree : Nova.GraphRing.fieldVal s p o target = none) :
    ∃ scan, r.joinScanConcrete s p o target = .ok scan ∧ scanCursor.Lists scan (g.joinScan s p o target) := by
  obtain ⟨order, horder, hbound⟩ := chooseArray_bound htarget hfree
  have hdata := h.data
  unfold GraphRing.joinScanConcrete Nova.GraphRing.joinScan
  generalize r.data = d, g.data = d' at hdata ⊢
  cases hdata with
  | empty => exact ⟨none, rfl, lists_empty⟩
  | @tries d d' htries =>
    have htrie := htries order
    obtain ⟨it, hiter, hroot⟩ := htrie.root
    have hiter' : (d.tries order).iterD0Concrete = some it := hiter
    simp only [horder, hiter']
    generalize (Nova.GraphRing.boundFieldsExcluding s p o target).filterMap
      (Nova.GraphRing.fieldVal s p o) = vals at hbound ⊢
    match vals, hbound with
    | [], _ =>
      refine ⟨some (d.tries order, it), rfl, ?_⟩
      exact lists_of_shows htrie.vocab hroot htrie.sorted.top
    | [v], _ =>
      obtain ⟨found, hfound, hlists⟩ := descend_one htrie hroot v
      rw [hfound]
      exact ⟨_, rfl, hlists⟩
    | [v, w], _ =>
      obtain ⟨found, hfound, hlists⟩ := descend_two htrie hroot v w
      rw [hfound]
      exact ⟨_, rfl, hlists⟩

/-! ## What a scan reads -/

/-- Every scan with a free target lists, in increasing order, the values that the target
takes in the triples with the bound values. -/
def JoinScans (r : GraphRing) (triples : List Row) : Prop :=
  ∀ s p o target, target < 3 → Nova.GraphRing.fieldVal s p o target = none →
    ∃ scan keys, r.joinScanConcrete s p o target = .ok scan ∧ scanCursor.Lists scan keys ∧
      keys.Pairwise (· < ·) ∧
      ∀ v, v ∈ keys ↔ ∃ t ∈ triples, Nova.GraphRing.column t target = v ∧ Nova.GraphRing.Matches s p o t

theorem joinScans_of_refines {r : GraphRing} {triples : List Row} (h : Refines r (Nova.ringBuild triples)) :
    JoinScans r triples := by
  intro s p o target htarget hfree
  obtain ⟨scan, hscan, hlists⟩ := h.joinScanConcrete_lists htarget hfree
  refine ⟨scan, _, hscan, hlists, GraphRing.joinScan_ascending, ?_⟩
  intro v
  simp only [GraphRing.mem_joinScan htarget hfree, GraphRing.mem_triples_ringBuild]

theorem bounded_of_lists {x : CltjTrie} {it : CltjTrieIter} {keys : List Nat}
    (h : scanCursor.Lists (some (x, it)) keys) {v : Nat} (hv : v ∈ keys) :
    ∃ k, k < 2 ^ 32 ∧ (x.vocabSlice it.depth)[k]? = some v := by
  obtain ⟨n, hn⟩ := mem_iff_getElem?.mp hv
  obtain ⟨scan, hrun, -, hkey⟩ := h.walk n
  -- walking does not change the depth
  have hdepth : ∀ n it scan, scanCursor.run (some (x, it)) (List.replicate n .advance) = some scan →
      ∃ it', scan = some (x, it') ∧ it'.depth = it.depth := by
    intro n
    induction n with
    | zero =>
      intro it scan hrun
      cases hrun
      exact ⟨it, rfl, rfl⟩
    | succ n ih =>
      intro it scan hrun
      obtain ⟨it', rfl, hit'⟩ := ih it.advanceC scan hrun
      refine ⟨it', rfl, hit'.trans ?_⟩
      unfold CltjTrieIter.advanceC
      split <;> rfl
  obtain ⟨it', rfl, hit'⟩ := hdepth n it scan hrun
  have hread : (x.keyC it').toOption = some v := hkey v hn
  rw [← hit']
  apply key_bounded
  show x.keyC it' = .ok v
  rcases hkey' : x.keyC it' with p | w
  · rw [hkey'] at hread
    exact nomatch hread
  · rw [hkey'] at hread
    exact congrArg Except.ok (Option.some.inj hread)

/-- The scan without constants starts at the root of an order. -/
theorem bounded_of_scan {d : CltjData} {n target : Nat} {scan : JoinIter} {keys : List Nat} {order : SortOrder}
    (horder : Nova.GraphRing.chooseArrayForLftj [] target = some order)
    (hscan : (⟨n, some d⟩ : GraphRing).joinScanConcrete none none none target = .ok scan)
    (hlists : scanCursor.Lists scan keys) {v : Nat} (hv : v ∈ keys) :
    ∃ k, k < 2 ^ 32 ∧ (d.tries order).vocab.1[k]? = some v := by
  have hbound : Nova.GraphRing.boundFieldsExcluding none none none target = [] := by
    simp [Nova.GraphRing.boundFieldsExcluding, range_succ, Nova.GraphRing.fieldVal]
  simp only [GraphRing.joinScanConcrete, hbound, horder, filterMap_nil] at hscan
  by_cases hdegree : (d.tries order).louds.rootDegree = 0
  · rw [iterD0Concrete, if_pos hdegree] at hscan
    cases hscan
    have hnil : keys = [] := hlists.unique lists_empty
    rw [hnil] at hv
    exact absurd hv not_mem_nil
  · rw [iterD0Concrete, if_neg hdegree] at hscan
    cases hscan
    exact bounded_of_lists hlists hv

theorem fits_of_joinScans {triples : List Row} {r : GraphRing} (hbuild : ringBuild triples = .ok r)
    (hscans : JoinScans r triples) : FitsU32 triples := by
  rcases ringBuild_ok triples with ⟨hnil, -⟩ | ⟨d, hne, hbuild', htries⟩
  · have hempty : triples = [] := by
      rw [eq_nil_iff_forall_not_mem]
      intro t ht
      rw [← mem_distinctSorted, hnil] at ht
      exact absurd ht not_mem_nil
    rw [hempty]
    constructor <;> decide
  · obtain rfl : _ = r := Except.ok.inj (hbuild'.symm.trans hbuild)
    have hbound : ∀ target {order}, target < 3 → Nova.GraphRing.chooseArrayForLftj [] target = some order →
        ∀ t ∈ triples, ∃ k, k < 2 ^ 32 ∧ (d.tries order).vocab.1[k]? = some (Nova.GraphRing.column t target) := by
      intro target order htarget horder t ht
      have hfree : Nova.GraphRing.fieldVal none none none target = none := by
        unfold Nova.GraphRing.fieldVal
        split <;> rfl
      obtain ⟨scan, keys, hscan, hlists, -, hmem⟩ := hscans none none none target htarget hfree
      apply bounded_of_scan horder hscan hlists
      apply (hmem _).mpr
      exact ⟨t, ht, rfl, by simp [Nova.GraphRing.Matches]⟩
    constructor
    · apply card_le_of_bounded
      intro t ht
      have hk := hbound 0 (by omega) rfl t ht
      rw [(htries _).1] at hk
      exact hk
    · apply card_le_of_bounded
      intro t ht
      have hk := hbound 1 (by omega) rfl t ht
      rw [(htries _).1] at hk
      exact hk
    · apply card_le_of_bounded
      intro t ht
      have hk := hbound 2 (by omega) rfl t ht
      rw [(htries _).1] at hk
      exact hk

/-- The scans of a built ring list the values of the target in the matching triples, in
increasing order and however `advance` and `seek` are mixed, exactly when the numbers of
the ids fit in 32 bits. -/
theorem ringBuild_joinScans_iff (triples : List Row) :
    (∃ r, ringBuild triples = .ok r ∧ JoinScans r triples) ↔ FitsU32 triples := by
  constructor
  · intro h
    obtain ⟨r, hbuild, hscans⟩ := h
    exact fits_of_joinScans hbuild hscans
  · intro hfits
    obtain ⟨r, hbuild, href⟩ := ringBuild_refines hfits
    exact ⟨r, hbuild, joinScans_of_refines href⟩

/-- With one subject too many a scan of the subjects misses one. -/
theorem joinScan_misses_subject :
    ¬ ∃ r, ringBuild ((List.range (2 ^ 32 + 1)).map fun s => (s, 0, 0)) = .ok r ∧
      JoinScans r ((List.range (2 ^ 32 + 1)).map fun s => (s, 0, 0)) := by
  intro h
  obtain ⟨r, hbuild, hscans⟩ := h
  exact not_fitsU32_subjects (fits_of_joinScans hbuild hscans)

end Nova.Cltj
