import Mathlib.Data.List.Pairwise
import Mathlib.Algebra.Order.Ring.Nat
import Mathlib.Data.List.Sort
import Mathlib.Tactic.Common

/-!
# Leapfrogging over sorted scans

A scan is the list of the keys in front of it, strictly increasing. Several scans
are brought to their least common key by seeking those that lag behind the
greatest current key (`sync`), again and again until all agree or one has ended;
a join visits that key, moves the first scan on and synchronises anew
(`leapfrog`).

`sync_spec` says what one synchronisation does, and `leapfrog_eq` that the join
visits the intersection of the scans in increasing order, each key once. In
`leapfrogM` a visit may stop the join and a key may have no successor: such a join
ends if and only if it meets neither (`leapfrogM_ok`, `leapfrogM_ok_inv`).
-/

namespace Nova.Lib.Leapfrog

open List

variable {α : Type} [LinearOrder α]

/-- Moves a scan to the first key that is not below the target. -/
def seek (scan : List α) (target : α) : List α := scan.dropWhile fun k => k < target

/-- The greatest current key. -/
def maxKey (scans : List (List α)) : Option α := (scans.filterMap List.head?).max?

/-- One round over the scans: those below the target seek it. `none` when one
ends there; the flag is false when one went past the target, which ends the
round. -/
def syncPass (target : α) : List (List α) → Option (Bool × List (List α))
  | [] => some (true, [])
  | [] :: _ => none
  | (k :: ks) :: rest =>
    if k < target then
      match seek (k :: ks) target with
      | [] => none
      | k' :: ks' =>
        if k' ≠ target then some (false, (k' :: ks') :: rest)
        else (syncPass target rest).map fun r => (r.1, (k' :: ks') :: r.2)
    else (syncPass target rest).map fun r => (r.1, (k :: ks) :: r.2)

/-- The rounds, until all scans agree or one has ended. -/
def syncLoop : Nat → List (List α) → Option (α × List (List α))
  | 0, _ => none
  | fuel + 1, scans =>
    match maxKey scans with
    | none => none
    | some target =>
      match syncPass target scans with
      | none => none
      | some (true, scans') => some (target, scans')
      | some (false, scans') => syncLoop fuel scans'

/-- The number of keys in front of all scans. -/
def remaining (scans : List (List α)) : Nat := (scans.map List.length).sum

def sync (scans : List (List α)) : Option (α × List (List α)) :=
  if scans.isEmpty then none
  else if scans.any List.isEmpty then none
  else syncLoop (remaining scans + 1) scans

/-- The join: visit the common key, move the first scan on, synchronise. -/
def leapfrog {β : Type} (visit : α → List β) : Nat → List (List α) → List β
  | 0, _ => []
  | fuel + 1, scans =>
    match sync scans with
    | none => []
    | some (val, scans') =>
      visit val ++
        match scans' with
        | [] => []
        | scan :: rest => if scan.tail.isEmpty then [] else leapfrog visit fuel (scan.tail :: rest)

/-! ## The intersection -/

/-- All scans have the key in front of them. -/
def Common (scans : List (List α)) (x : α) : Prop := ∀ scan ∈ scans, x ∈ scan

def Ascending (scans : List (List α)) : Prop := ∀ scan ∈ scans, scan.Pairwise (· < ·)

/-- The keys of the first scan that the others have too. -/
def inter : List (List α) → List α
  | [] => []
  | scan :: rest => scan.filter fun x => ∀ other ∈ rest, x ∈ other

variable {scan : List α}

theorem mem_inter {rest : List (List α)} {x : α} : x ∈ inter (scan :: rest) ↔ Common (scan :: rest) x := by
  simp [inter, Common]

variable {scans : List (List α)}

theorem inter_pairwise (h : Ascending scans) : (inter scans).Pairwise (· < ·) := by
  cases scans with
  | nil => exact .nil
  | cons scan rest => exact (h scan mem_cons_self).filter _

variable {scans' : List (List α)}

theorem inter_congr (hne : scans ≠ []) (hne' : scans' ≠ [])
    (h : Ascending scans) (h' : Ascending scans') (hc : ∀ x, Common scans x ↔ Common scans' x) :
    inter scans = inter scans' := by
  cases scans with
  | nil => exact absurd rfl hne
  | cons scan rest =>
    cases scans' with
    | nil => exact absurd rfl hne'
    | cons scan' rest' =>
      refine (inter_pairwise h).eq_of_mem_iff (inter_pairwise h') fun x => ?_
      rw [mem_inter, mem_inter, hc]

/-! ## Seeking -/

variable {target : α}

theorem mem_seek (h : scan.Pairwise (· < ·)) {x : α} : x ∈ seek scan target ↔ x ∈ scan ∧ target ≤ x := by
  unfold seek
  induction scan with
  | nil => simp
  | cons k ks ih =>
    rcases pairwise_cons.mp h with ⟨hk, hks⟩
    by_cases hlt : k < target
    · rw [dropWhile_cons_of_pos (by simpa using hlt), ih hks, mem_cons]
      constructor
      · exact fun hx => ⟨.inr hx.1, hx.2⟩
      · intro hx
        rcases hx with ⟨rfl | hx, hle⟩
        · exact absurd hle (not_le_of_gt hlt)
        · exact ⟨hx, hle⟩
    · rw [dropWhile_cons_of_neg (by simpa using hlt)]
      constructor
      · intro hx
        refine ⟨hx, ?_⟩
        rcases mem_cons.mp hx with rfl | hx
        · exact le_of_not_gt hlt
        · exact le_trans (le_of_not_gt hlt) (le_of_lt (hk x hx))
      · exact fun hx => hx.1

theorem seek_sublist (scan : List α) (target : α) : (seek scan target).Sublist scan :=
  dropWhile_sublist _

/-! ## One round -/

/-- What a round that does not end leaves: the scans have only lost keys below the
target; either one of them has lost some, or all stand at the target. -/
structure Passed (target : α) (scans : List (List α)) (agree : Bool) (scans' : List (List α)) :
    Prop where
  ascending : Ascending scans'
  length : scans'.length = scans.length
  nonempty : ∀ scan ∈ scans', scan ≠ []
  keeps : ∀ x, target ≤ x → Common scans x → Common scans' x
  back : ∀ x, Common scans' x → Common scans x
  remaining_le : remaining scans' ≤ remaining scans
  remaining_lt : agree = false → remaining scans' < remaining scans
  heads : agree = true → ∀ scan ∈ scans', scan.head? = some target

omit [LinearOrder α] in
theorem common_cons {rest : List (List α)} {x : α} : Common (scan :: rest) x ↔ x ∈ scan ∧ Common rest x := by
  simp [Common]

omit [LinearOrder α] in
theorem remaining_cons (scan : List α) (rest : List (List α)) :
    remaining (scan :: rest) = scan.length + remaining rest := by
  simp [remaining]

theorem Passed.cons {rest rest' : List (List α)} {agree : Bool}
    (h : Passed target rest agree rest') {scan' : List α} (hasc : scan'.Pairwise (· < ·))
    (hhead : scan'.head? = some target) (hkeep : ∀ x ∈ scan, target ≤ x → x ∈ scan')
    (hsub : scan'.Sublist scan) : Passed target (scan :: rest) agree (scan' :: rest') where
  ascending := forall_mem_cons.mpr ⟨hasc, h.ascending⟩
  length := by rw [length_cons, length_cons, h.length]
  nonempty := by
    refine forall_mem_cons.mpr ⟨?_, h.nonempty⟩
    rintro rfl
    cases hhead
  keeps := by
    intro x hx hcommon
    rcases common_cons.mp hcommon with ⟨hscan, hrest⟩
    exact common_cons.mpr ⟨hkeep x hscan hx, h.keeps x hx hrest⟩
  back := by
    intro x hcommon
    rcases common_cons.mp hcommon with ⟨hscan, hrest⟩
    exact common_cons.mpr ⟨hsub.subset hscan, h.back x hrest⟩
  remaining_le := by
    have hle := h.remaining_le
    have hlen := hsub.length_le
    rw [remaining_cons, remaining_cons]
    omega
  remaining_lt := by
    intro hag
    have hlt := h.remaining_lt hag
    have hlen := hsub.length_le
    rw [remaining_cons, remaining_cons]
    omega
  heads := fun hag => forall_mem_cons.mpr ⟨hhead, h.heads hag⟩

/-- A pass over the scans ends at a common key, moves some scan on, or meets an end. -/
theorem syncPass_spec (hasc : Ascending scans)
    (hle : ∀ scan ∈ scans, ∀ k, scan.head? = some k → k ≤ target) (hne : ∀ scan ∈ scans, scan ≠ []) :
    (syncPass target scans = none → ∀ x, target ≤ x → ¬Common scans x) ∧
      ∀ agree scans', syncPass target scans = some (agree, scans') →
        Passed target scans agree scans' := by
  fun_induction syncPass target scans with
  | case1 =>
    refine ⟨fun h => (by cases h), ?_⟩
    intro agree scans' h
    cases h
    exact ⟨hasc, rfl, hne, fun _ _ hx => hx, fun _ hx => hx, le_refl _,
      fun h => (by cases h), fun _ _ h => by cases h⟩
  | case2 rest => exact absurd rfl (hne [] mem_cons_self)
  | case3 k ks rest hlt hseek =>
    -- the scan ends before the target
    refine ⟨?_, fun _ _ h => (by cases h)⟩
    intro _ x hx hcommon
    have hmem := (mem_seek (hasc _ mem_cons_self)).mpr ⟨(common_cons.mp hcommon).1, hx⟩
    rw [hseek] at hmem
    cases hmem
  | case4 k ks rest hlt k' ks' hseek hpast =>
    -- the scan went past the target
    refine ⟨fun h => (by cases h), ?_⟩
    intro agree scans' h
    cases h
    rcases forall_mem_cons.mp hasc with ⟨hscan, hrest⟩
    have hlen : (k' :: ks').length < (k :: ks).length := by
      rw [← hseek, seek, dropWhile_cons_of_pos (by simpa using hlt), length_cons]
      exact Nat.lt_succ_of_le (dropWhile_sublist _).length_le
    refine ⟨?_, rfl, ?_, ?_, ?_, ?_, ?_, fun h => (by cases h)⟩
    · refine forall_mem_cons.mpr ⟨?_, hrest⟩
      rw [← hseek]
      exact hscan.sublist (seek_sublist _ _)
    · exact forall_mem_cons.mpr ⟨cons_ne_nil _ _, (forall_mem_cons.mp hne).2⟩
    · intro x hx hcommon
      rw [common_cons, ← hseek, mem_seek hscan, and_iff_left hx]
      exact common_cons.mp hcommon
    · intro x hcommon
      rw [common_cons, ← hseek, mem_seek hscan] at hcommon
      exact common_cons.mpr ⟨hcommon.1.1, hcommon.2⟩
    · rw [remaining_cons, remaining_cons]
      omega
    · intro _
      rw [remaining_cons, remaining_cons]
      omega
  | case5 k ks rest hlt k' ks' hseek hat ih =>
    -- the scan reached the target
    rcases forall_mem_cons.mp hasc with ⟨hscan, hrest⟩
    rcases ih hrest (forall_mem_cons.mp hle).2 (forall_mem_cons.mp hne).2 with ⟨hnone, hsome⟩
    have hsub : (k' :: ks').Sublist (k :: ks) := by
      rw [← hseek]
      exact seek_sublist _ _
    constructor
    · intro h x hx hcommon
      exact hnone (Option.map_eq_none_iff.mp h) x hx (common_cons.mp hcommon).2
    · intro agree scans' h
      rcases Option.map_eq_some_iff.mp h with ⟨⟨agree', rest'⟩, hr, heq⟩
      cases heq
      refine (hsome _ _ hr).cons (hscan.sublist hsub) ?_ ?_ hsub
      · rw [head?_cons, not_not.mp hat]
      · intro x hx hle
        rw [← hseek, mem_seek hscan]
        exact ⟨hx, hle⟩
  | case6 k ks rest hge ih =>
    -- the scan is at the target already
    rcases forall_mem_cons.mp hasc with ⟨hscan, hrest⟩
    rcases forall_mem_cons.mp hle with ⟨hk, hle'⟩
    rcases ih hrest hle' (forall_mem_cons.mp hne).2 with ⟨hnone, hsome⟩
    have hat : k = target := le_antisymm (hk k rfl) (le_of_not_gt hge)
    constructor
    · intro h x hx hcommon
      exact hnone (Option.map_eq_none_iff.mp h) x hx (common_cons.mp hcommon).2
    · intro agree scans' h
      rcases Option.map_eq_some_iff.mp h with ⟨⟨agree', rest'⟩, hr, heq⟩
      cases heq
      refine (hsome _ _ hr).cons hscan ?_ (fun _ hx _ => hx) (List.Sublist.refl _)
      rw [head?_cons, hat]

/-! ## Synchronising -/

/-- What a synchronisation leaves: all scans stand at the same key, and no common
key is lost. -/
structure Synced (scans : List (List α)) (val : α) (scans' : List (List α)) : Prop where
  ascending : Ascending scans'
  length : scans'.length = scans.length
  heads : ∀ scan ∈ scans', scan.head? = some val
  common : ∀ x, Common scans x ↔ Common scans' x
  remaining_le : remaining scans' ≤ remaining scans

theorem head_le (h : scan.Pairwise (· < ·)) {k x : α} (hk : scan.head? = some k) (hx : x ∈ scan) : k ≤ x := by
  cases scan with
  | nil => cases hx
  | cons k' ks =>
    cases hk
    rcases mem_cons.mp hx with rfl | hx
    · exact le_refl _
    · exact le_of_lt ((pairwise_cons.mp h).1 x hx)

/-- The greatest current key: every current key is at most it, and every common
key at least it. -/
theorem maxKey_spec (hasc : Ascending scans) (h : maxKey scans = some target) :
    (∀ scan ∈ scans, ∀ k, scan.head? = some k → k ≤ target) ∧ ∀ x, Common scans x → target ≤ x := by
  have : Std.LawfulOrderMax α :=
    { max_le_iff := fun _ _ _ => max_le_iff, max_eq_or := fun a b => max_choice a b }
  rw [maxKey, max?_eq_some_iff] at h
  rcases h with ⟨hmem, hmax⟩
  constructor
  · intro scan hscan k hk
    exact hmax k (mem_filterMap.mpr ⟨scan, hscan, hk⟩)
  · intro x hx
    rcases mem_filterMap.mp hmem with ⟨scan, hscan, hk⟩
    exact head_le (hasc scan hscan) hk (hx scan hscan)

variable {fuel : Nat}

/-- With more fuel than keys are left the loop finds the least common key. -/
theorem syncLoop_spec : ∀ {scans : List (List α)}, scans ≠ [] → Ascending scans →
    (∀ scan ∈ scans, scan ≠ []) → remaining scans < fuel →
    (syncLoop fuel scans = none → ∀ x, ¬Common scans x) ∧
      ∀ val scans', syncLoop fuel scans = some (val, scans') → Synced scans val scans' := by
  induction fuel with
  | zero => exact fun _ _ _ h => absurd h (Nat.not_lt_zero _)
  | succ fuel ih =>
    intro scans hne hasc hfull hfuel
    rw [syncLoop]
    cases hmax : maxKey scans with
    | none =>
      -- a scan that has not ended has a current key
      rw [maxKey, max?_eq_none_iff, filterMap_eq_nil_iff] at hmax
      rcases exists_mem_of_ne_nil scans hne with ⟨scan, hscan⟩
      exact absurd (head?_eq_none_iff.mp (hmax scan hscan)) (hfull scan hscan)
    | some target =>
      rcases maxKey_spec hasc hmax with ⟨hle, hcommon⟩
      rcases syncPass_spec hasc hle hfull with ⟨hnone, hsome⟩
      cases hpass : syncPass target scans with
      | none =>
        simp only [hpass]
        exact ⟨fun _ x hx => hnone hpass x (hcommon x hx) hx, fun _ _ h => by cases h⟩
      | some r =>
        rcases r with ⟨agree, scans₁⟩
        have hp := hsome agree scans₁ hpass
        have hsame : ∀ x, Common scans x ↔ Common scans₁ x :=
          fun x => ⟨fun hx => hp.keeps x (hcommon x hx) hx, hp.back x⟩
        cases agree with
        | true =>
          simp only [hpass]
          refine ⟨fun h => (by cases h), ?_⟩
          intro val scans' h
          cases h
          exact ⟨hp.ascending, hp.length, hp.heads rfl, hsame, hp.remaining_le⟩
        | false =>
          simp only [hpass]
          have hlt := hp.remaining_lt rfl
          have hne₁ : scans₁ ≠ [] := by
            rw [← length_pos_iff, hp.length, length_pos_iff]
            exact hne
          rcases ih hne₁ hp.ascending hp.nonempty (by omega) with ⟨hn, hs⟩
          refine ⟨fun h x hx => hn h x ((hsame x).mp hx), ?_⟩
          intro val scans' h
          have hsy := hs val scans' h
          exact ⟨hsy.ascending, hsy.length.trans hp.length, hsy.heads,
            fun x => (hsame x).trans (hsy.common x), le_trans hsy.remaining_le hp.remaining_le⟩

theorem syncLoop_fuel : ∀ {fuel' : Nat} {scans : List (List α)}, scans ≠ [] → Ascending scans →
    (∀ scan ∈ scans, scan ≠ []) → remaining scans < fuel → remaining scans < fuel' →
    syncLoop fuel scans = syncLoop fuel' scans := by
  induction fuel with
  | zero => exact fun _ _ _ h => absurd h (Nat.not_lt_zero _)
  | succ fuel ih =>
    intro fuel' scans hne hasc hfull hfuel hfuel'
    obtain ⟨fuel', rfl⟩ : ∃ n, fuel' = n + 1 := ⟨fuel' - 1, by omega⟩
    rw [syncLoop, syncLoop]
    cases hmax : maxKey scans with
    | none => rfl
    | some target =>
      rcases hpass : syncPass target scans with _ | ⟨agree, scans₁⟩
      · simp only [hpass]
      · cases agree with
        | true => simp only [hpass]
        | false =>
          simp only [hpass]
          have hp := (syncPass_spec hasc (maxKey_spec hasc hmax).1 hfull).2 false scans₁ hpass
          have hlt := hp.remaining_lt rfl
          have hne₁ : scans₁ ≠ [] := by
            rw [← length_pos_iff, hp.length, length_pos_iff]
            exact hne
          exact ih hne₁ hp.ascending hp.nonempty (by omega) (by omega)

/-! ## What is left of a scan -/

theorem syncPass_suffix :
    ∀ r, syncPass target scans = some r → List.Forall₂ (fun scan' scan => scan' <:+ scan) r.2 scans := by
  have hrefl : ∀ rest : List (List α), List.Forall₂ (fun scan' scan => scan' <:+ scan) rest rest :=
    fun rest => forall₂_same.mpr fun scan _ => suffix_refl scan
  have hseeks : ∀ (scan : List α), seek scan target <:+ scan := fun scan => dropWhile_suffix _
  fun_induction syncPass target scans with
  | case1 => exact fun r h => by cases h; exact .nil
  | case2 rest => exact fun r h => nomatch h
  | case3 k ks rest hlt hseek => exact fun r h => nomatch h
  | case4 k ks rest hlt k' ks' hseek hpast =>
    intro r h
    cases h
    exact .cons (hseek ▸ hseeks _) (hrefl rest)
  | case5 k ks rest hlt k' ks' hseek hat ih =>
    intro r h
    obtain ⟨r', hr', rfl⟩ := Option.map_eq_some_iff.mp h
    exact .cons (hseek ▸ hseeks _) (ih r' hr')
  | case6 k ks rest hge ih =>
    intro r h
    obtain ⟨r', hr', rfl⟩ := Option.map_eq_some_iff.mp h
    exact .cons (suffix_refl _) (ih r' hr')

omit [LinearOrder α] in
theorem suffixes_trans {scans'' : List (List α)}
    (h : List.Forall₂ (fun scan' scan => scan' <:+ scan) scans'' scans')
    (h' : List.Forall₂ (fun scan' scan => scan' <:+ scan) scans' scans) :
    List.Forall₂ (fun scan' scan => scan' <:+ scan) scans'' scans := by
  induction h generalizing scans with
  | nil =>
    cases h'
    exact .nil
  | cons hlast _ ih =>
    cases h' with
    | cons hfirst hrest => exact .cons (hlast.trans hfirst) (ih hrest)

theorem syncLoop_suffix : ∀ {scans : List (List α)} {val : α} {scans' : List (List α)},
    syncLoop fuel scans = some (val, scans') → List.Forall₂ (fun scan' scan => scan' <:+ scan) scans' scans := by
  induction fuel with
  | zero => exact fun h => nomatch h
  | succ fuel ih =>
    intro scans val scans' h
    rw [syncLoop] at h
    cases hmax : maxKey scans with
    | none =>
      rw [hmax] at h
      exact nomatch h
    | some target =>
      rw [hmax] at h
      rcases hpass : syncPass target scans with _ | ⟨agree, scans₁⟩
      · simp only [hpass] at h
        exact nomatch h
      · have hstep := syncPass_suffix _ hpass
        cases agree with
        | true =>
          simp only [hpass, Option.some.injEq, Prod.mk.injEq] at h
          rw [← h.2]
          exact hstep
        | false =>
          simp only [hpass] at h
          exact suffixes_trans (ih h) hstep

theorem eq_seek_of_suffix {scan' : List α} (hscan : scan.Pairwise (· < ·)) (h : scan' <:+ scan) {val : α}
    (hval : scan'.head? = some val) : scan' = seek scan val := by
  obtain ⟨before, rfl⟩ := h
  have hbelow : ∀ x ∈ before, x < val :=
    fun x hx => (pairwise_append.mp hscan).2.2 x hx val (mem_of_mem_head? hval)
  obtain ⟨tail, rfl⟩ : ∃ tail, scan' = val :: tail := by
    rw [head?_eq_some_iff] at hval
    exact hval
  rw [seek, dropWhile_append_of_pos (by simpa using hbelow), dropWhile_cons_of_neg (by simp)]

section

variable (hne : scans ≠ []) (hasc : Ascending scans)
include hne hasc

theorem sync_spec : (sync scans = none → ∀ x, ¬Common scans x) ∧
      ∀ val scans', sync scans = some (val, scans') → Synced scans val scans' := by
  unfold sync
  rw [if_neg (by simpa using hne)]
  by_cases hend : scans.any List.isEmpty = true
  · rw [if_pos hend]
    rcases any_eq_true.mp hend with ⟨scan, hscan, hempty⟩
    refine ⟨?_, fun _ _ h => (by cases h)⟩
    intro _ x hx
    have hmem := hx scan hscan
    rw [List.isEmpty_iff.mp hempty] at hmem
    cases hmem
  · rw [if_neg hend]
    refine syncLoop_spec hne hasc ?_ (Nat.lt_succ_self _)
    rintro scan hscan rfl
    exact hend (any_eq_true.mpr ⟨[], hscan, rfl⟩)

/-- A synchronisation finds the least common key; the others are those of the
scans with the first one moved on. -/
theorem sync_eq_some {val : α} (h : sync scans = some (val, scans')) :
    ∃ scan rest, scans' = (val :: scan) :: rest ∧ Ascending (scan :: rest) ∧
      inter scans = val :: inter (scan :: rest) ∧ remaining (scan :: rest) < remaining scans := by
  have hsy := (sync_spec hne hasc).2 val scans' h
  cases scans' with
  | nil =>
    have hlen := hsy.length
    exact absurd (length_eq_zero_iff.mp hlen.symm) hne
  | cons scan rest =>
    have hheads := forall_mem_cons.mp hsy.heads
    cases scan with
    | nil => cases hheads.1
    | cons k ks =>
      cases hheads.1
      rcases forall_mem_cons.mp hsy.ascending with ⟨hscan, hrest⟩
      refine ⟨ks, rest, rfl, ?_, ?_, ?_⟩
      · exact forall_mem_cons.mpr ⟨(pairwise_cons.mp hscan).2, hrest⟩
      · rw [inter_congr hne (cons_ne_nil _ _) hasc hsy.ascending hsy.common]
        have hothers : ∀ other ∈ rest, val ∈ other := by
          intro other hother
          exact mem_of_mem_head? (hheads.2 other hother)
        simp only [inter]
        rw [filter_cons, if_pos (by simpa using hothers)]
      · have hle := hsy.remaining_le
        rw [remaining_cons, length_cons] at hle
        rw [remaining_cons]
        omega

theorem sync_eq_none
    (h : sync scans = none) : inter scans = [] := by
  rw [eq_nil_iff_forall_not_mem]
  intro x hx
  cases scans with
  | nil => exact hne rfl
  | cons scan rest => exact (sync_spec hne hasc).1 h x (mem_inter.mp hx)

theorem inter_eq_nil_of_any_isEmpty
    (h : scans.any List.isEmpty = true) : inter scans = [] := by
  apply sync_eq_none hne hasc
  rw [sync, if_neg (by simpa using hne), if_pos h]

end

/-! ## The join -/

/-- The join visits the intersection in increasing order, each key once. -/
theorem leapfrog_eq {β : Type} (visit : α → List β) : ∀ {scans : List (List α)},
    scans ≠ [] → Ascending scans → remaining scans < fuel →
    leapfrog visit fuel scans = (inter scans).flatMap visit := by
  induction fuel with
  | zero => exact fun _ _ h => absurd h (Nat.not_lt_zero _)
  | succ fuel ih =>
    intro scans hne hasc hfuel
    rw [leapfrog]
    cases hsync : sync scans with
    | none =>
      rw [sync_eq_none hne hasc hsync]
      rfl
    | some r =>
      rcases r with ⟨val, scans'⟩
      rcases sync_eq_some hne hasc hsync with ⟨scan, rest, rfl, hasc', hinter, hrem⟩
      rw [hinter, flatMap_cons]
      show visit val ++ (if scan.isEmpty then [] else leapfrog visit fuel (scan :: rest)) = _
      congr 1
      by_cases hend : scan.isEmpty = true
      · rw [if_pos hend]
        rw [List.isEmpty_iff] at hend
        rw [hend]
        rfl
      · rw [if_neg hend]
        exact ih (cons_ne_nil _ _) hasc' (by omega)

/-! ## A join that may not end -/

section Monadic

variable {ε β : Type} (stop : ε) (advance : List α → List α) (visit : α → Except ε (List β))

/-- The join as a loop: a visit may stop it, and so does `fuel`. -/
def leapfrogM : Nat → List (List α) → Except ε (List β)
  | 0, _ => .error stop
  | fuel + 1, scans =>
    match sync scans with
    | none => .ok []
    | some (val, scans') => do
      let found ← visit val
      match scans' with
      | [] => return found
      | scan :: rest =>
        if (advance scan).isEmpty then return found
        else return found ++ (← leapfrogM fuel (advance scan :: rest))

variable {stop advance visit}

/-- A join that moves past every common key, and whose visits all return, ends. -/
theorem leapfrogM_ok {found : α → List β} : ∀ {scans : List (List α)},
    scans ≠ [] → Ascending scans → remaining scans < fuel →
    (∀ x ∈ inter scans, visit x = .ok (found x)) →
    (∀ x ∈ inter scans, ∀ ks, (x :: ks).Pairwise (· < ·) → advance (x :: ks) = ks) →
    leapfrogM stop advance visit fuel scans = .ok ((inter scans).flatMap found) := by
  induction fuel with
  | zero => exact fun _ _ h => absurd h (Nat.not_lt_zero _)
  | succ fuel ih =>
    intro scans hne hasc hfuel hvisit hadv
    rw [leapfrogM]
    cases hsync : sync scans with
    | none =>
      rw [sync_eq_none hne hasc hsync]
      rfl
    | some r =>
      rcases r with ⟨val, scans'⟩
      have hheads := ((sync_spec hne hasc).2 val scans' hsync).ascending
      rcases sync_eq_some hne hasc hsync with ⟨scan, rest, rfl, hasc', hinter, hrem⟩
      rw [hinter] at hvisit hadv ⊢
      rcases forall_mem_cons.mp hvisit with ⟨hv, hvisit'⟩
      rcases forall_mem_cons.mp hadv with ⟨ha, hadv'⟩
      have hmove : advance (val :: scan) = scan := ha scan (hheads _ mem_cons_self)
      simp only [hv, hmove, flatMap_cons]
      by_cases hend : scan.isEmpty = true
      · rw [List.isEmpty_iff] at hend
        subst hend
        simp [inter, bind, Except.bind, pure, Except.pure]
      · have hrest := ih (cons_ne_nil _ _) hasc' (by omega) hvisit' hadv'
        simp [bind, Except.bind, pure, Except.pure, hend, hrest]

/-- In a join that ended every common key was visited and had a successor. -/
theorem leapfrogM_ok_inv (hstuck : ∀ k ks, (k :: ks).Pairwise (· < ·) →
      advance (k :: ks) = ks ∨ advance (k :: ks) = k :: ks) : ∀ {scans : List (List α)} {out : List β},
    scans ≠ [] → Ascending scans → leapfrogM stop advance visit fuel scans = .ok out →
    ∀ x ∈ inter scans, (∃ found, visit x = .ok found) ∧ ∃ ks, advance (x :: ks) = ks := by
  induction fuel with
  | zero => exact fun _ _ h => by cases h
  | succ fuel ih =>
    intro scans out hne hasc hout
    rw [leapfrogM] at hout
    cases hsync : sync scans with
    | none =>
      rw [sync_eq_none hne hasc hsync]
      exact nofun
    | some r =>
      rcases r with ⟨val, scans'⟩
      have hsy := (sync_spec hne hasc).2 val scans' hsync
      rcases sync_eq_some hne hasc hsync with ⟨scan, rest, rfl, hasc', hinter, _⟩
      rw [hsync] at hout
      cases hv : visit val with
      | error e => simp [hv, bind, Except.bind] at hout
      | ok found =>
        simp only [hv, bind, Except.bind, pure, Except.pure] at hout
        rw [hinter]
        rcases hstuck val scan (hsy.ascending _ mem_cons_self) with hmove | hstay
        · -- the first scan moves on
          refine forall_mem_cons.mpr ⟨⟨⟨found, hv⟩, scan, hmove⟩, ?_⟩
          rw [hmove] at hout
          by_cases hend : scan.isEmpty = true
          · rw [List.isEmpty_iff] at hend
            subst hend
            exact fun x hx => absurd hx (by simp [inter])
          · rw [if_neg hend] at hout
            cases hrest : leapfrogM stop advance visit fuel (scan :: rest) with
            | error e => simp [hrest] at hout
            | ok out' => exact ih (cons_ne_nil _ _) hasc' hrest
        · -- the first scan stays where it is: the rest of the join visits the key again
          rw [hstay] at hout
          cases hrest : leapfrogM stop advance visit fuel ((val :: scan) :: rest) with
          | error e => simp [hrest] at hout
          | ok out' =>
            have hagain := ih (cons_ne_nil _ _) hsy.ascending hrest
            have hsame : inter ((val :: scan) :: rest) = val :: inter (scan :: rest) := by
              rw [← hinter]
              exact (inter_congr hne (cons_ne_nil _ _) hasc hsy.ascending hsy.common).symm
            rw [hsame] at hagain
            exact hagain

end Monadic

end Nova.Lib.Leapfrog
