import Nova.Query.Lftj
import Nova.Lib.Cursor

/-!
# Synchronising trie iterators

`leapfrog_sync` and the loop around it, over iterators of any kind. An iterator is
described by the keys that are left in front of it (`Obeys`): what the trait promises
of `key`, `at_end`, `advance` and `seek`, and only where a caller may use them.

* `leapfrogSync_least`: one synchronisation ends, at the least common key with every
  iterator on it, or at the end if there is none; repeated, it visits the
  intersection in increasing order.
* `leapfrog_eq_joinLoop`: the list-level join of `Lib.Leapfrog` is the loop over the
  iterators.

The states of all iterators are of one type `σ`, as a `dyn TrieIterator` is a sum of
the kinds there are. A method that panics and a loop that does not end within its
fuel are `none`.
-/

namespace Nova.Lftj

open Nova.Lib Nova.Lib.Leapfrog List

variable {σ α : Type} [LinearOrder α]

/-! ## The loops -/

section Loops

variable (cur : Cursor σ α)

/-- How a round over the scans ends. -/
inductive Round where
  | allAtMax
  | past
  | ended
deriving DecidableEq

/-- The `for` loop of `leapfrog_sync`: it is left when a scan ends, or goes past the
greatest key. -/
def syncRound (maxKey : α) : List σ → Option (Round × List σ)
  | [] => some (.allAtMax, [])
  | scan :: rest => do
    let key ← cur.key scan
    if key < maxKey then
      let scan ← cur.seek scan maxKey
      if cur.atEnd scan then return (.ended, scan :: rest)
      else
        let key ← cur.key scan
        if key ≠ maxKey then return (.past, scan :: rest)
        else
          let (round, rest) ← syncRound maxKey rest
          return (round, scan :: rest)
    else
      let (round, rest) ← syncRound maxKey rest
      return (round, scan :: rest)

/-- The outer loop of `leapfrog_sync`. -/
def syncRounds : Nat → List σ → Option (Option α × List σ)
  | 0, _ => none
  | fuel + 1, scans => do
    let keys ← scans.mapM cur.key
    match keys.max? with
    | none => return (none, scans)
    | some maxKey =>
      let (round, scans) ← syncRound cur maxKey scans
      match round with
      | .ended => return (none, scans)
      | .allAtMax => return (some maxKey, scans)
      | .past => syncRounds fuel scans

/-- `leapfrog_sync`: the key, if any, and the scans as they are left. -/
def leapfrogSync (fuel : Nat) (scans : List σ) : Option (Option α × List σ) :=
  if scans.isEmpty then some (none, scans)
  else if scans.any cur.atEnd then some (none, scans)
  else syncRounds cur fuel scans

/-- The loop of `lftj_step`: every key that the scans have in common is visited, and the
first scan advanced past it. The loop ends if that scan is at its end. -/
def joinLoop {β : Type} (visit : α → Option (List β)) (syncFuel : Nat) : Nat → List σ → Option (List β)
  | 0, _ => none
  | fuel + 1, scans => do
    let (found, scans) ← leapfrogSync cur syncFuel scans
    match found, scans with
    | none, _ => return []
    | some _, [] => none
    | some val, first :: rest =>
      let here ← visit val
      let first ← cur.advance first
      if cur.atEnd first then return here
      else
        let later ← joinLoop visit syncFuel fuel (first :: rest)
        return here ++ later

/-- The keys that the loop visits. -/
def commonKeys (syncFuel fuel : Nat) (scans : List σ) : Option (List α) :=
  joinLoop cur (fun val => some [val]) syncFuel fuel scans

end Loops

/-! ## The contract -/

/-- What the trait promises of iterators whose states stand in front of lists. Before
the end they move to the next key, and to the first that is not below a target. -/
structure Contract (cur : Cursor σ α) (Front : σ → List α → Prop) : Prop where
  front : ∀ s l, Front s l → cur.At s l
  advance : ∀ s l, Front s l → l ≠ [] → ∃ s', cur.advance s = some s' ∧ Front s' l.tail
  seek : ∀ s l target, Front s l → l ≠ [] → ∃ s', cur.seek s target = some s' ∧ Front s' (seek l target)

/-- The iterator has the keys of the list in front of it. -/
def Obeys (cur : Cursor σ α) (s : σ) (l : List α) : Prop := ∃ Front, Contract cur Front ∧ Front s l

variable {cur : Cursor σ α} {s : σ} {l : List α}

theorem Obeys.at (h : Obeys cur s l) : cur.At s l := by
  obtain ⟨Front, hcontract, hfront⟩ := h
  exact hcontract.front s l hfront

theorem Obeys.advance (h : Obeys cur s l) (hne : l ≠ []) :
    ∃ s', cur.advance s = some s' ∧ Obeys cur s' l.tail := by
  obtain ⟨Front, hcontract, hfront⟩ := h
  obtain ⟨s', hs', hfront'⟩ := hcontract.advance s l hfront hne
  exact ⟨s', hs', Front, hcontract, hfront'⟩

theorem Obeys.seek (h : Obeys cur s l) (hne : l ≠ []) (target : α) :
    ∃ s', cur.seek s target = some s' ∧ Obeys cur s' (seek l target) := by
  obtain ⟨Front, hcontract, hfront⟩ := h
  obtain ⟨s', hs', hfront'⟩ := hcontract.seek s l target hfront hne
  exact ⟨s', hs', Front, hcontract, hfront'⟩

theorem obeys_of_lists (h : cur.Lists s l) : Obeys cur s l := by
  have hstep : ∀ s l m, cur.Lists s l → ∃ s', cur.step s m = some s' ∧ cur.Lists s' (m.onList l) := by
    intro s l m hlists
    obtain ⟨s', hs', -⟩ := hlists [m]
    rw [Cursor.run, Option.bind_eq_some_iff] at hs'
    obtain ⟨s₁, hs₁, -⟩ := hs'
    refine ⟨s₁, hs₁, ?_⟩
    intro moves
    obtain ⟨s'', hs'', hat⟩ := hlists (m :: moves)
    rw [Cursor.run, hs₁, Option.bind_some] at hs''
    exact ⟨s'', hs'', hat⟩
  refine ⟨cur.Lists, ⟨?_, ?_, ?_⟩, h⟩
  · intro s l hlists
    obtain ⟨s', hs', hat⟩ := hlists []
    rw [Cursor.run, Option.some.injEq] at hs'
    rw [hs']
    exact hat
  · exact fun s l hlists _ => hstep s l .advance hlists
  · exact fun s l target hlists _ => hstep s l (.seek target) hlists

/-- The scans have the lists in front of them. -/
def Fronts (cur : Cursor σ α) (scans : List σ) (fronts : List (List α)) : Prop := List.Forall₂
    (Obeys cur) scans fronts

variable {fronts : List (List α)} {scans : List σ}

section

variable (h : Fronts cur scans fronts)
include h

theorem Fronts.any_atEnd : scans.any cur.atEnd = fronts.any List.isEmpty := by
  induction h with
  | nil => rfl
  | cons hscan _ ih => rw [any_cons, any_cons, ih, hscan.at.atEnd]

theorem Fronts.isEmpty : scans.isEmpty = fronts.isEmpty := by
  cases h <;> rfl

theorem Fronts.exists_front {scan : σ} (hscan : scan ∈ scans) : ∃ front ∈ fronts, Obeys cur scan front := by
  induction h with
  | nil => exact absurd hscan not_mem_nil
  | @cons first front _ _ hfirst _ ih =>
    rcases mem_cons.mp hscan with rfl | hscan
    · exact ⟨front, mem_cons_self, hfirst⟩
    · obtain ⟨front', hmem, hobeys⟩ := ih hscan
      exact ⟨front', mem_cons_of_mem _ hmem, hobeys⟩

theorem Fronts.keys
    (hne : ∀ front ∈ fronts, front ≠ []) : scans.mapM cur.key = some (fronts.filterMap List.head?) := by
  induction h with
  | nil => rfl
  | @cons scan front _ _ hscan _ ih =>
    rcases forall_mem_cons.mp hne with ⟨hfront, hrest⟩
    obtain ⟨k, ks, rfl⟩ := exists_cons_of_ne_nil hfront
    rw [mapM_cons, hscan.at.key k rfl, ih hrest]
    rfl

end

/-! ## Rounds -/

/-- How a round over the lists ends, `none` when one of them has ended. -/
def roundOf : Option (Bool × List (List α)) → Round
  | none => .ended
  | some (true, _) => .allAtMax
  | some (false, _) => .past

/-- A round over the iterators is a pass over what they have left. -/
theorem syncRound_eq (maxKey : α) (h : Fronts cur scans fronts) (hne : ∀ front ∈ fronts, front ≠ []) :
    ∃ scans', syncRound cur maxKey scans = some (roundOf (syncPass maxKey fronts), scans') ∧
      ∀ r, syncPass maxKey fronts = some r → Fronts cur scans' r.2 := by
  induction h with
  | nil => exact ⟨[], rfl, fun r hr => by cases hr; exact .nil⟩
  | @cons scan front scans fronts hscan hrest ih =>
    rcases forall_mem_cons.mp hne with ⟨hfront, hne'⟩
    obtain ⟨scans', hround, hfronts⟩ := ih hne'
    obtain ⟨k, ks, rfl⟩ := exists_cons_of_ne_nil hfront
    have hkey := hscan.at.key k rfl
    -- a scan that stays in the round is followed by the round over the others
    have hgo : ∀ {s : σ} {front : List α}, Obeys cur s front →
        ∃ scans', (do let (round, rest) ← syncRound cur maxKey scans; return (round, s :: rest)) =
            some (roundOf ((syncPass maxKey fronts).map fun r => (r.1, front :: r.2)), scans') ∧
          ∀ r, (syncPass maxKey fronts).map (fun r => (r.1, front :: r.2)) = some r → Fronts cur scans' r.2 := by
      intro s front hs
      refine ⟨s :: scans', ?_, ?_⟩
      · rw [hround]
        rcases syncPass maxKey fronts with _ | ⟨agree, fronts'⟩
        · rfl
        · cases agree <;> rfl
      · intro r hr
        obtain ⟨r', hr', rfl⟩ := Option.map_eq_some_iff.mp hr
        exact .cons hs (hfronts r' hr')
    simp only [syncRound, hkey, Option.bind_eq_bind, Option.bind_some, syncPass]
    by_cases hlt : k < maxKey
    · obtain ⟨s, hs, hobeys⟩ := hscan.seek hfront maxKey
      simp only [if_pos hlt, hs, Option.bind_some]
      rcases hseek : seek (k :: ks) maxKey with _ | ⟨k', ks'⟩
      · -- the scan ends
        rw [hseek] at hobeys
        rw [if_pos (by rw [hobeys.at.atEnd]; rfl)]
        exact ⟨_, rfl, fun r hr => by cases hr⟩
      · rw [hseek] at hobeys
        rw [if_neg (by rw [hobeys.at.atEnd]; simp), hobeys.at.key k' rfl, Option.bind_some]
        by_cases hpast : k' ≠ maxKey
        · simp only [if_pos hpast]
          refine ⟨_, rfl, ?_⟩
          intro r hr
          cases hr
          exact .cons hobeys hrest
        · simp only [if_neg hpast]
          exact hgo hobeys
    · simp only [if_neg hlt]
      exact hgo hscan

theorem syncRounds_eq {fuel : Nat} : ∀ {scans : List σ} {fronts : List (List α)}, Fronts cur scans fronts →
    Ascending fronts → (∀ front ∈ fronts, front ≠ []) → remaining fronts < fuel →
    ∃ scans', syncRounds cur fuel scans = some ((syncLoop fuel fronts).map Prod.fst, scans') ∧
      ∀ r, syncLoop fuel fronts = some r → Fronts cur scans' r.2 := by
  induction fuel with
  | zero => exact fun _ _ _ h => absurd h (Nat.not_lt_zero _)
  | succ fuel ih =>
    intro scans fronts hfronts hasc hne hfuel
    have hkeys := hfronts.keys hne
    have hgreatest : (fronts.filterMap List.head?).max? = maxKey fronts := rfl
    simp only [syncRounds, hkeys, Option.bind_eq_bind, Option.bind_some, syncLoop, hgreatest]
    cases hmax : maxKey fronts with
    | none => exact ⟨scans, rfl, fun r hr => by cases hr⟩
    | some target =>
      obtain ⟨scans₁, hround, hfronts₁⟩ := syncRound_eq target hfronts hne
      simp only [hround, Option.bind_some]
      rcases hpass : syncPass target fronts with _ | ⟨agree, fronts₁⟩
      · exact ⟨scans₁, rfl, fun r hr => by cases hr⟩
      · cases agree with
        | true =>
          refine ⟨scans₁, rfl, ?_⟩
          intro r hr
          cases hr
          exact hfronts₁ _ hpass
        | false =>
          -- a scan went past the greatest key: fewer keys are left
          have hp := (syncPass_spec hasc (maxKey_spec hasc hmax).1 hne).2 false fronts₁ hpass
          have hlt := hp.remaining_lt rfl
          exact ih (hfronts₁ _ hpass) hp.ascending hp.nonempty (by omega)

/-- `leapfrog_sync` over the scans is `sync` over the lists. -/
theorem leapfrogSync_eq {fuel : Nat} (h : Fronts cur scans fronts)
    (hne : fronts ≠ []) (hasc : Ascending fronts) (hfuel : remaining fronts < fuel) :
    ∃ scans', leapfrogSync cur fuel scans = some ((sync fronts).map Prod.fst, scans') ∧
      ∀ r, sync fronts = some r → Fronts cur scans' r.2 := by
  unfold leapfrogSync sync
  rw [h.isEmpty, h.any_atEnd]
  split
  · exact ⟨scans, rfl, fun r hr => by cases hr⟩
  · split
    · exact ⟨scans, rfl, fun r hr => by cases hr⟩
    · rename_i hend
      have hfull : ∀ front ∈ fronts, front ≠ [] := by
        rintro front hfront rfl
        exact hend (any_eq_true.mpr ⟨[], hfront, rfl⟩)
      rw [syncLoop_fuel hne hasc hfull (Nat.lt_succ_self _) hfuel]
      exact syncRounds_eq h hasc hfull hfuel

theorem sync_eq_seek {fronts' : List (List α)} {val : α} (hne : fronts ≠ []) (hasc : Ascending fronts)
    (h : sync fronts = some (val, fronts')) : fronts' = fronts.map fun front => seek front val := by
  have hheads := ((sync_spec hne hasc).2 val fronts' h).heads
  have hsuffix : List.Forall₂ (fun scan' scan => scan' <:+ scan) fronts' fronts := by
    unfold sync at h
    split at h
    · exact nomatch h
    · split at h
      · exact nomatch h
      · exact syncLoop_suffix h
  clear h hne
  induction hsuffix with
  | nil => rfl
  | @cons front' front fronts' fronts hfront _ ih =>
    rcases forall_mem_cons.mp hasc with ⟨hascfront, hascrest⟩
    rcases forall_mem_cons.mp hheads with ⟨hhead, hheads'⟩
    rw [map_cons, eq_seek_of_suffix hascfront hfront hhead, ih hascrest hheads']

/-- The loop visits the keys that all lists have, in increasing order. -/
theorem joinLoop_eq {β : Type} {visit : α → Option (List β)} {out : α → List β} {syncFuel fuel : Nat} :
    ∀ {scans : List σ} {fronts : List (List α)}, Fronts cur scans fronts →
    fronts ≠ [] → Ascending fronts → remaining fronts < syncFuel → remaining fronts < fuel →
    (∀ x ∈ inter fronts, visit x = some (out x)) →
    joinLoop cur visit syncFuel fuel scans = some ((inter fronts).flatMap out) := by
  induction fuel with
  | zero => exact fun _ _ _ _ h => absurd h (Nat.not_lt_zero _)
  | succ fuel ih =>
    intro scans fronts hfronts hne hasc hsync hfuel hvisit
    obtain ⟨scans', hscans', hleft⟩ := leapfrogSync_eq hfronts hne hasc hsync
    simp only [joinLoop, hscans', Option.bind_eq_bind, Option.bind_some]
    rcases hfound : sync fronts with _ | ⟨val, fronts'⟩
    · rw [sync_eq_none hne hasc hfound]
      rfl
    · obtain ⟨front, rest, rfl, hasc', hinter, hrem⟩ := sync_eq_some hne hasc hfound
      rw [hinter] at hvisit ⊢
      rcases forall_mem_cons.mp hvisit with ⟨hval, hvisit'⟩
      -- every scan stands at the key; the first moves past it
      have hleft' := hleft _ hfound
      cases hleft' with
      | @cons first _ others _ hfirst hothers =>
        obtain ⟨first', hadvance, hfirst'⟩ := hfirst.advance (cons_ne_nil _ _)
        rw [tail_cons] at hfirst'
        simp only [Option.map_some, hval, hadvance, Option.bind_some, hfirst'.at.atEnd, flatMap_cons]
        by_cases hend : front.isEmpty = true
        · rw [if_pos hend]
          rw [List.isEmpty_iff] at hend
          rw [hend]
          simp [inter]
        · rw [if_neg hend]
          rw [ih (.cons hfirst' hothers) (cons_ne_nil _ _) hasc' (by omega) (by omega) hvisit']
          rfl

theorem commonKeys_eq {syncFuel fuel : Nat} (h : Fronts cur scans fronts)
    (hne : fronts ≠ []) (hasc : Ascending fronts) (hsync : remaining fronts < syncFuel)
    (hfuel : remaining fronts < fuel) : commonKeys cur syncFuel fuel scans = some (inter fronts) := by
  rw [commonKeys, joinLoop_eq h hne hasc hsync hfuel fun x _ => rfl, flatMap_singleton']

/-! ## Leapfrogging -/

/-- The keys that all scans have and that are not below the current key of any. -/
def commonFrom (cur : Cursor σ α) (scans : List σ) (fronts : List (List α)) : Set α :=
  {x | (∀ front ∈ fronts, x ∈ front) ∧ ∀ scan ∈ scans, cur.atEnd scan = false → ∀ k, cur.key scan = some k → k ≤ x}

theorem mem_commonFrom (h : Fronts cur scans fronts)
    (hasc : Ascending fronts) {x : α} : x ∈ commonFrom cur scans fronts ↔ Common fronts x := by
  refine ⟨And.left, fun hx => ⟨hx, ?_⟩⟩
  intro scan hscan hend k hk
  obtain ⟨front, hmem, hobeys⟩ := h.exists_front hscan
  rw [hobeys.at.atEnd] at hend
  rcases front with _ | ⟨k', front⟩
  · exact nomatch hend
  · have hk' : cur.key scan = some k' := hobeys.at.key k' rfl
    obtain rfl := Option.some.inj (hk.symm.trans hk')
    exact head_le (hasc _ hmem) rfl (hx _ hmem)

/-- `leapfrog_sync` over iterators that obey the contract ends. It stops at the least
key that is not below the current key of any iterator and that all have, with all of
them on it, or at the end if and only if there is no such key. Repeated, with the
first iterator advanced in between, it visits the keys that all have, in increasing
order. -/
theorem leapfrogSync_least {scans : List σ} {fronts : List (List α)} (hne : scans ≠ [])
    (hobeys : List.Forall₂ (Obeys cur) scans fronts) (hasc : ∀ front ∈ fronts, front.Pairwise (· < ·)) :
    ∃ bound, ∀ fuel ≥ bound,
      (∃ found scans', leapfrogSync cur fuel scans = some (found, scans') ∧
        (∀ val, found = some val → IsLeast (commonFrom cur scans fronts) val ∧
          (∀ scan ∈ scans', cur.atEnd scan = false ∧ cur.key scan = some val) ∧
          List.Forall₂ (Obeys cur) scans' (fronts.map fun front => seek front val)) ∧
        (found = none ↔ commonFrom cur scans fronts = ∅)) ∧
      ∃ keys, commonKeys cur fuel fuel scans = some keys ∧ keys.Pairwise (· < ·) ∧
        ∀ x, x ∈ keys ↔ ∀ front ∈ fronts, x ∈ front := by
  have hfronts : Fronts cur scans fronts := hobeys
  have hne' : fronts ≠ [] := by
    rintro rfl
    cases hobeys
    exact hne rfl
  have hinter : ∀ x, x ∈ inter fronts ↔ Common fronts x := by
    intro x
    obtain ⟨front, rest, rfl⟩ := exists_cons_of_ne_nil hne'
    exact mem_inter
  refine ⟨remaining fronts + 1, ?_⟩
  intro fuel hfuel
  constructor
  · obtain ⟨scans', hsync, hleft⟩ := leapfrogSync_eq hfronts hne' hasc hfuel
    refine ⟨_, scans', hsync, ?_, ?_⟩
    · intro val hval
      obtain ⟨⟨val', fronts'⟩, hfound, rfl⟩ := Option.map_eq_some_iff.mp hval
      have hsynced := (sync_spec hne' hasc).2 val' fronts' hfound
      have hmoved := hleft _ hfound
      refine ⟨⟨(mem_commonFrom hfronts hasc).mpr ?_, ?_⟩, ?_, ?_⟩
      · apply (hsynced.common val').mpr
        exact fun front hfront => mem_of_mem_head? (hsynced.heads front hfront)
      · -- every common key is left in front of the first scan, which stands at the key
        intro x hx
        have hx' := (hsynced.common x).mp ((mem_commonFrom hfronts hasc).mp hx)
        obtain ⟨front, rest, rfl⟩ : ∃ front rest, fronts' = front :: rest := by
          apply exists_cons_of_ne_nil
          rw [← length_pos_iff, hsynced.length, length_pos_iff]
          exact hne'
        exact head_le (hsynced.ascending _ mem_cons_self) (hsynced.heads _ mem_cons_self)
          (hx' _ mem_cons_self)
      · intro scan hscan
        obtain ⟨front, hmem, hobeys'⟩ := hmoved.exists_front hscan
        have hhead := hsynced.heads front hmem
        refine ⟨?_, hobeys'.at.key _ hhead⟩
        rw [hobeys'.at.atEnd]
        exact Bool.eq_false_iff.mpr fun hnil => by simp [List.isEmpty_iff.mp hnil] at hhead
      · rw [← sync_eq_seek hne' hasc hfound]
        exact hmoved
    -- no key is found just when none is common
    · rw [Option.map_eq_none_iff, Set.eq_empty_iff_forall_notMem]
      constructor
      · intro hnone x hx
        exact (sync_spec hne' hasc).1 hnone x ((mem_commonFrom hfronts hasc).mp hx)
      · intro hempty
        rcases hfound : sync fronts with _ | ⟨val, fronts'⟩
        · rfl
        · obtain ⟨_, _, -, -, hcons, -⟩ := sync_eq_some hne' hasc hfound
          refine absurd ((mem_commonFrom hfronts hasc).mpr ((hinter val).mp ?_)) (hempty val)
          rw [hcons]
          exact mem_cons_self
  · exact ⟨inter fronts, commonKeys_eq hfronts hne' hasc hfuel hfuel, inter_pairwise hasc, hinter⟩

/-! ## Iterators over lists -/

/-- A sorted array with the part that is left. -/
def listCursor : Cursor (List α) α where
  key := List.head?
  atEnd := List.isEmpty
  advance := fun l => some l.tail
  seek := fun l target => some (seek l target)

theorem listCursor_obeys (l : List α) : Obeys listCursor l l := by
  refine ⟨fun s l => s = l, ⟨?_, ?_, ?_⟩, rfl⟩
  · intro s l h
    subst h
    exact ⟨rfl, fun k hk => hk⟩
  · intro s l h _
    subst h
    exact ⟨_, rfl, rfl⟩
  · intro s l target h _
    subst h
    exact ⟨_, rfl, rfl⟩

/-- Three scans that share the keys 5 and 9; at the start two of them share the key 2. -/
theorem leapfrogSync_least_three :
    ∃ bound, ∀ fuel ≥ bound,
      (∃ found scans', leapfrogSync listCursor fuel [[2, 4, 5, 9], [2, 5, 8, 9],
        [3, 5, 9, 11]] = some (found, scans') ∧
        (∀ val, found = some val →
          IsLeast (commonFrom listCursor [[2, 4, 5, 9], [2, 5, 8, 9], [3, 5, 9, 11]]
            [[2, 4, 5, 9], [2, 5, 8, 9], [3, 5, 9, 11]]) val ∧
          (∀ scan ∈ scans', listCursor.atEnd scan = false ∧ listCursor.key scan = some val) ∧
          List.Forall₂ (Obeys listCursor) scans'
            ([[2, 4, 5, 9], [2, 5, 8, 9], [3, 5, 9, 11]].map fun front : List Nat => seek front val)) ∧
        (found = none ↔ commonFrom listCursor [[2, 4, 5, 9], [2, 5, 8, 9], [3, 5, 9, 11]]
          [[2, 4, 5, 9], [2, 5, 8, 9], [3, 5, 9, 11]] = ∅)) ∧
      ∃ keys, commonKeys listCursor fuel fuel [[2, 4, 5, 9], [2, 5, 8, 9], [3, 5, 9, 11]] = some keys ∧
        keys.Pairwise (· < ·) ∧
        ∀ x, x ∈ keys ↔ ∀ front ∈ [[2, 4, 5, 9], [2, 5, 8, 9], [3, 5, 9, 11]], x ∈ front :=
  leapfrogSync_least (by simp) (forall₂_same.mpr fun l _ => listCursor_obeys l) (by decide)

end Nova.Lftj
