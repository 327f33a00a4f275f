import Nova.Ring.JoinScan
import Nova.Query.Lftj

/-!
# One scan for several subjects

Where a step of the join looks for the object of several subjects, it may ask the
store for one scan of their common objects. The ring intersects the rows of two or
three subjects; it ignores the predicate and every subject after the third.

* `multiSubject_lists` — what the scan lists
* `collapse_lists_iff` — when that is what the scans it replaces have in common
-/

namespace Nova.Ring

open Nova.Lib Nova.Lib.LastFirst List

namespace BraidedGraphImage

variable (img : BraidedGraphImage)

/-- The rows of a subject in the mapped file, none outside the alphabet. -/
def rangeOfSubject (s : Nat) : RowRange := (img.ring.rangeS s).getD .empty

def openD1 (s0 s1 : Nat) : Option ScanIter :=
  let r0 := img.rangeOfSubject s0
  let r1 := img.rangeOfSubject s1
  if !img.mapped || r0.isEmpty || r1.isEmpty then none
  else some (.d1Object r0 r1 (img.ring.intersectionNextValue2 .O r0 r1 0))

def openD2 (s0 s1 s2 : Nat) : Option ScanIter :=
  let r0 := img.rangeOfSubject s0
  let r1 := img.rangeOfSubject s1
  let r2 := img.rangeOfSubject s2
  if !img.mapped || r0.isEmpty || r1.isEmpty || r2.isEmpty then none
  else some (.d2Object r0 r1 r2 (img.ring.intersectionNextValue3 .O r0 r1 r2 0))

def multiSubjectObjectIntersect (d2Enabled : Bool) (subjects : List Nat) : Option ScanIter :=
  if !d2Enabled || !img.mapped || decide (subjects.length < 2) then none
  else do
    let dense ← subjects.mapM img.remap.toDense
    match dense with
    | [d0, d1] => img.openD1 d0 d1
    | [d0, d1, d2] => img.openD2 d0 d1 d2
    -- four and more: the first three
    | d0 :: d1 :: d2 :: _ => img.openD2 d0 d1 d2
    | _ => none

end BraidedGraphImage

/-- `RingStore::lftj_multi_subject_object_intersect`, on the published images. -/
def lftjMultiSubjectObjectIntersect (d2Enabled : Bool) (graphsSnap : Option (Nat → Option BraidedGraphImage))
    (subjects : List Nat) (_predicate : Option Nat) (graphId : Nat) : Option ScanIter :=
  if !d2Enabled || decide (subjects.length < 2) then none
  else do
    let snap ← graphsSnap
    let img ← snap graphId
    img.multiSubjectObjectIntersect d2Enabled subjects

/-! ## Scans that know their successor -/

variable {triples : List Row} {img : BraidedGraphImage}

/-- A scan whose moves are all answered by one successor function. -/
structure NextScan (img : BraidedGraphImage) (mk : Option Nat → ScanIter) (next : Nat → Option Nat) : Prop where
  atEnd : ∀ cur, BraidedGraphImage.atEnd (mk cur) = cur.isNone
  key : ∀ cur, img.key (mk cur) = cur.map img.externalKey
  exhausted : ∀ cur, BraidedGraphImage.exhausted (mk cur) = mk none
  seekDense : ∀ cur d, img.seekDense (mk cur) d = some (mk (next d))
  stay : img.advance (mk none) = some (mk none)
  advance : ∀ cur, img.advance (mk (some cur)) = some (mk (if cur = 2 ^ 32 - 1 then none else next (cur + 1)))

theorem nextScan_d1 (img : BraidedGraphImage) (r0 r1 : RowRange) :
    NextScan img (.d1Object r0 r1) (img.ring.intersectionNextValue2 .O r0 r1) where
  atEnd := fun _ => rfl
  key := fun _ => rfl
  exhausted := fun _ => rfl
  seekDense := fun _ _ => rfl
  stay := rfl
  advance := fun _ => rfl

theorem nextScan_d2 (img : BraidedGraphImage) (r0 r1 r2 : RowRange) :
    NextScan img (.d2Object r0 r1 r2) (img.ring.intersectionNextValue3 .O r0 r1 r2) where
  atEnd := fun _ => rfl
  key := fun _ => rfl
  exhausted := fun _ => rfl
  seekDense := fun _ _ => rfl
  stay := rfl
  advance := fun _ => rfl

theorem NextScan.follows {vals : List Nat} (hsorted : vals.Pairwise (· < ·))
    (hbound : ∀ d ∈ vals, d < 2 ^ 32 - 1) {mk : Option Nat → ScanIter} {next : Nat → Option Nat}
    (hscan : NextScan img mk next) (hnext : ∀ d, LeastFrom (· ∈ vals) d (next d)) :
    Follows img fun it l => it = mk l.head? ∧ ∃ a, l = Leapfrog.seek vals a where
  atEnd := by
    rintro it l ⟨rfl, -⟩
    rw [hscan.atEnd]
    rcases l with _ | ⟨d, l⟩ <;> rfl
  key := by
    rintro it d l ⟨rfl, -⟩
    rw [hscan.key]
    rfl
  advance := by
    rintro it l ⟨rfl, a, hl⟩
    rcases l with _ | ⟨c, l⟩
    · exact ⟨_, hscan.stay, rfl, a, hl⟩
    · have hc : c ∈ vals := (Leapfrog.seek_sublist vals a).subset (hl ▸ mem_cons_self)
      have hlt := hbound c hc
      have hrest := seek_succ hsorted hl.symm
      refine ⟨_, hscan.advance c, ?_, c + 1, hrest.symm⟩
      rw [if_neg (by omega), head_seek_of_leastFrom hsorted (hnext (c + 1)), hrest, tail_cons]
  seekDense := by
    rintro it c l d ⟨rfl, a, hl⟩ hcd
    have hrest := seek_of_seek hl.symm hcd
    refine ⟨_, hscan.seekDense _ d, ?_, d, hrest⟩
    rw [head_seek_of_leastFrom hsorted (hnext d), hrest]
  exhausted := by
    rintro it l ⟨rfl, -⟩
    refine ⟨hscan.exhausted _, 2 ^ 32, ?_⟩
    rw [Leapfrog.seek_eq_nil]
    intro d hd
    have hlt := hbound d hd
    omega

/-! ## Common objects -/

/-- The objects that all the subjects have, under any predicate. -/
def sharedObjects (triples : List Row) (subjects : List Nat) : List Nat :=
  Leapfrog.inter (subjects.map fun s => oracleJoinScan triples (some s) none none 2)

theorem mem_objects {s o : Nat} {p : Option Nat} : o ∈ oracleJoinScan triples (some s) p none 2 ↔
    ∃ x, (∀ y, p = some y → x = y) ∧ (s, x, o) ∈ triples := by
  rw [oracleJoinScan, Sorted.mem_ofList]
  simp only [mem_map, mem_filter, matchesRow]
  constructor
  · rintro ⟨⟨a, b, c⟩, ⟨ht, hm⟩, rfl⟩
    rcases p with _ | y
    · have ha : a = s := by simpa using hm
      exact ⟨b, fun y hy => absurd hy (by simp), ha ▸ ht⟩
    · have hab : a = s ∧ b = y := by simpa using hm
      exact ⟨b, fun z hz => hab.2.trans (Option.some.inj hz), hab.1 ▸ ht⟩
  · rintro ⟨x, hx, ht⟩
    refine ⟨(s, x, o), ⟨ht, ?_⟩, rfl⟩
    rcases p with _ | y
    · simp
    · simp [hx y rfl]

theorem mem_inter_iff {α : Type} [LinearOrder α] {scans : List (List α)} (hne : scans ≠ []) {x : α} :
    x ∈ Leapfrog.inter scans ↔ ∀ scan ∈ scans, x ∈ scan := by
  rcases scans with _ | ⟨scan, rest⟩
  · exact absurd rfl hne
  · rw [Leapfrog.mem_inter]
    rfl

variable {subjects : List Nat}

theorem mem_sharedObjects (hne : subjects ≠ []) {o : Nat} :
    o ∈ sharedObjects triples subjects ↔ ∀ s ∈ subjects, ∃ p, (s, p, o) ∈ triples := by
  rw [sharedObjects, mem_inter_iff (by simpa using hne)]
  simp only [mem_map, forall_exists_index, and_imp, forall_apply_eq_imp_iff₂, mem_objects]
  simp

theorem sharedObjects_pairwise (triples : List Row) (subjects : List Nat) :
    (sharedObjects triples subjects).Pairwise (· < ·) := by
  apply Leapfrog.inter_pairwise
  intro scan hscan
  obtain ⟨s, -, rfl⟩ := mem_map.mp hscan
  exact Sorted.pairwise_ofList _

section Rows

variable {dense : List Row} {univ : Nat} (h : Built dense univ)
include h

theorem segment_subject (hring : img.ring = buildShared dense univ) {x : Nat} (hx : x < univ) :
    img.ring.segment .O (img.rangeOfSubject x) = column dense .O (some x) none ∧
      ((img.rangeOfSubject x).isEmpty = true ↔ column dense .O (some x) none = []) := by
  obtain ⟨range, hlead, hrange, -⟩ := h.leadRange_spec (c := .S) hx
  have hmatch : RowsAre range (table dense .O) fun t => rowMatches (some x) none t = true :=
    hrange.congr fun t => by simp [rowMatches]
  have heq : img.rangeOfSubject x = range := by
    rw [BraidedGraphImage.rangeOfSubject, CyclicRing.rangeS, hring, hlead, Option.getD_some]
  rw [heq, hring]
  exact ⟨segment_eq_column hmatch, (column_eq_nil_iff hmatch).symm⟩

theorem leastFrom_intersection (hring : img.ring = buildShared dense univ) {x : Nat} {xs : List Nat}
    (hxs : ∀ y ∈ x :: xs, y < univ)
    (hne : ((x :: xs).map img.rangeOfSubject).any RowRange.isEmpty = false) (d : Nat) :
    LeastFrom (fun v => ∀ y ∈ x :: xs, v ∈ column dense .O (some y) none) d
      (img.ring.intersectionNextValue .O ((x :: xs).map img.rangeOfSubject) d) := by
  have hseg : ∀ y ∈ x :: xs, img.ring.segment .O (img.rangeOfSubject y) = column dense .O (some y) none :=
    fun y hy => (segment_subject h hring (hxs y hy)).1
  have hfilter : ((img.ring.segment .O (img.rangeOfSubject x)).filter fun v =>
      d ≤ v && (xs.map img.rangeOfSubject).all fun range => (img.ring.segment .O range).contains v) =
      ((column dense .O (some x) none).filter fun v => xs.all fun y =>
        (column dense .O (some y) none).contains v).filter
        fun v => d ≤ v := by
    rw [hseg x mem_cons_self, filter_filter]
    apply filter_congr
    intro v _
    rw [all_map]
    congr 1
    rw [Bool.eq_iff_iff, all_eq_true, all_eq_true]
    constructor
    · intro hall y hy
      rw [← hseg y (mem_cons_of_mem _ hy)]
      exact hall y hy
    · intro hall y hy
      show (img.ring.segment .O (img.rangeOfSubject y)).contains v = true
      rw [hseg y (mem_cons_of_mem _ hy)]
      exact hall y hy
  rw [map_cons, CyclicRing.intersectionNextValue]
  rw [map_cons] at hne
  rw [if_neg (by rw [hne]; decide), hfilter]
  apply leastFrom_min?
  intro v
  rw [mem_filter, all_eq_true]
  simp only [mem_cons, forall_eq_or_imp, contains_iff_mem]

end Rows

/-! ## What the scan lists -/

section Image

variable (hfits : FitsU32 triples)
include hfits

theorem mem_column_number {s : Nat} (hs : s ∈ symbolsOf triples) {v : Nat} :
    v ∈ column (BraidedGraphImage.denseOf triples) .O (some (number triples s)) none ↔
      ∃ o p, (s, p, o) ∈ triples ∧ v = number triples o := by
  have hrows : ∀ t ∈ distinctRows triples, Known triples t := fun t ht => symbols_of_mem (mem_distinctRows.mp ht)
  have hcolumn := (column_map_number hrows .O 
    (show ∀ v, some s = some v → v ∈ symbolsOf triples from fun v hv => Option.some.inj hv ▸ hs)
    (show ∀ v, none = some v → v ∈ symbolsOf triples from fun v hv => absurd hv (by simp))).1
  rw [← denseOf_eq hfits.symbols, Option.map_some, Option.map_none] at hcolumn
  have hown : ownOf (some s) none none 2 = none := rfl
  rw [hcolumn, mem_map]
  constructor
  · rintro ⟨o, ho, rfl⟩
    obtain ⟨t, ht, hm, rfl⟩ := (mem_scanOrder hown).mp ho
    have hts : t.1 = s := by simpa [matchesRow] using hm
    exact ⟨t.2.2, t.2.1, hts ▸ mem_distinctRows.mp ht, rfl⟩
  · rintro ⟨o, p, ht, rfl⟩
    refine ⟨o, (mem_scanOrder hown).mpr ⟨(s, p, o), mem_distinctRows.mpr ht, ?_, rfl⟩, rfl⟩
    simp [matchesRow]

variable (himg : ImageOf img triples)
include himg

/-- A scan over the rows of some subjects lists their common objects. -/
theorem lists_sharedObjects (hne : subjects ≠ [])
    (hknown : ∀ s ∈ subjects, s ∈ symbolsOf triples) {mk : Option Nat → ScanIter} {next : Nat → Option Nat}
    (hscan : NextScan img mk next) (hnext : ∀ d, next d = img.ring.intersectionNextValue .O
      ((subjects.map (number triples)).map img.rangeOfSubject) d)
    (hempty : ((subjects.map (number triples)).map img.rangeOfSubject).any RowRange.isEmpty = false) :
    img.cursor.Lists (mk (next 0)) (sharedObjects triples subjects) := by
  obtain ⟨univ, hring, huniv, hlt⟩ := himg.ring
  have hlen : (BraidedGraphImage.denseOf triples).length < 2 ^ 32 := by
    rw [length_denseOf hfits]
    exact hfits.rows
  have hbuilt : Built (BraidedGraphImage.denseOf triples) univ :=
    ⟨denseOf_nodup triples, shared_denseOf hfits huniv, hlen, hlt⟩
  obtain ⟨s₀, rest, rfl⟩ := exists_cons_of_ne_nil hne
  -- the common objects, in numbers
  have hobject : ∀ o ∈ sharedObjects triples (s₀ :: rest), o ∈ symbolsOf triples := by
    intro o ho
    obtain ⟨p, hp⟩ := (mem_sharedObjects hne).mp ho s₀ mem_cons_self
    exact (symbols_of_mem hp).2.2
  have hvals : ∀ v, v ∈ (sharedObjects triples (s₀ :: rest)).map (number triples) ↔
      ∀ y ∈ (s₀ :: rest).map (number triples),
        v ∈ column (BraidedGraphImage.denseOf triples) .O (some y) none := by
    intro v
    constructor
    · intro hv y hy
      obtain ⟨o, ho, rfl⟩ := mem_map.mp hv
      obtain ⟨s, hs, rfl⟩ := mem_map.mp hy
      obtain ⟨p, hp⟩ := (mem_sharedObjects hne).mp ho s hs
      exact (mem_column_number hfits (hknown s hs)).mpr ⟨o, p, hp, rfl⟩
    · intro hall
      have hcol : ∀ s ∈ s₀ :: rest, ∃ o p, (s, p, o) ∈ triples ∧ v = number triples o := fun s hs =>
        (mem_column_number hfits (hknown s hs)).mp (hall _ (mem_map_of_mem hs))
      obtain ⟨o, p, hp, rfl⟩ := hcol s₀ mem_cons_self
      refine mem_map_of_mem ((mem_sharedObjects hne).mpr ?_)
      intro s hs
      obtain ⟨o', p', hp', heq⟩ := hcol s hs
      have ho : o = o' := number_inj (symbols_of_mem hp).2.2 (symbols_of_mem hp').2.2 heq
      exact ⟨p', ho ▸ hp'⟩
  have hsorted : ((sharedObjects triples (s₀ :: rest)).map (number triples)).Pairwise (· < ·) := by
    apply pairwise_map.mpr
    apply List.Pairwise.imp_of_mem _ (sharedObjects_pairwise triples _)
    intro a b ha _ hab
    exact (number_lt_iff (hobject a ha) b).mpr hab
  have hbound : ∀ d ∈ (sharedObjects triples (s₀ :: rest)).map (number triples),
      d < (symbolsOf triples).length := by
    intro d hd
    obtain ⟨o, ho, rfl⟩ := mem_map.mp hd
    exact number_lt_length (hobject o ho)
  have hleast : ∀ d, LeastFrom (· ∈ (sharedObjects triples (s₀ :: rest)).map (number triples)) d (next d) := by
    intro d
    have hxs : ∀ y ∈ number triples s₀ :: rest.map (number triples), y < univ := by
      intro y hy
      obtain ⟨s, hs, rfl⟩ := mem_map.mp (show y ∈ (s₀ :: rest).map (number triples) from hy)
      exact Nat.lt_of_lt_of_le (number_lt_length (hknown s hs)) huniv
    have hl := leastFrom_intersection hbuilt hring hxs hempty d
    rw [hnext d]
    have hsame : (· ∈ (sharedObjects triples (s₀ :: rest)).map (number triples)) =
        fun v => ∀ y ∈ number triples s₀ :: rest.map (number triples),
          v ∈ column (BraidedGraphImage.denseOf triples) .O (some y) none :=
      funext fun v => propext (hvals v)
    rw [hsame]
    exact hl
  have hsymbols := hfits.symbols
  have hfollows := hscan.follows hsorted (fun d hd => by have hd' := hbound d hd; omega) hleast
  have hall : Leapfrog.seek ((sharedObjects triples (s₀ :: rest)).map (number triples)) 0 =
      (sharedObjects triples (s₀ :: rest)).map (number triples) :=
    Leapfrog.seek_eq_self fun k _ => Nat.zero_le k
  have hhead := head_seek_of_leastFrom hsorted (hleast 0)
  rw [hall] at hhead
  have hlists := lists_of_follows himg hsymbols hfollows ⟨rfl, 0, hall.symm⟩ hbound
  rw [← hhead] at hlists
  have hback : ((sharedObjects triples (s₀ :: rest)).map (number triples)).map img.externalKey =
      sharedObjects triples (s₀ :: rest) := by
    rw [map_map]
    conv_rhs => rw [← map_id (sharedObjects triples (s₀ :: rest))]
    apply map_congr_left
    intro o ho
    exact externalKey_number himg (hobject o ho)
  rwa [hback] at hlists

theorem mapM_toDense {dense : List Nat} (h : subjects.mapM img.remap.toDense = some dense) :
    (∀ s ∈ subjects, s ∈ symbolsOf triples) ∧ dense = subjects.map (number triples) := by
  rw [himg.remap] at h
  induction subjects generalizing dense with
  | nil =>
    have hnil : [] = dense := by simpa using h
    exact ⟨nofun, hnil.symm⟩
  | cons s ss ih =>
    simp only [mapM_cons, Option.bind_eq_bind, Option.bind_eq_some_iff, Option.pure_def,
      Option.some.injEq] at h
    obtain ⟨d, hd, ds, hds, rfl⟩ := h
    obtain ⟨hknown, rfl⟩ := ih hds
    have hs : s ∈ symbolsOf triples := by
      by_contra hnot
      rw [toDense_of_not_mem hnot] at hd
      exact absurd hd (by simp)
    rw [toDense_of_mem hfits.symbols hs, Option.some.injEq] at hd
    refine ⟨?_, by rw [map_cons, hd]⟩
    intro x hx
    rcases mem_cons.mp hx with rfl | hx
    · exact hs
    · exact hknown x hx

theorem openD1_lists {s0 s1 : Nat} (hknown : ∀ s ∈ [s0, s1], s ∈ symbolsOf triples) {it : ScanIter}
    (hit : img.openD1 (number triples s0) (number triples s1) = some it) :
    img.cursor.Lists it (sharedObjects triples [s0, s1]) := by
  unfold BraidedGraphImage.openD1 at hit
  dsimp only at hit
  split at hit
  · exact absurd hit (by simp)
  · rename_i hopen
    rw [Option.some.injEq] at hit
    subst hit
    apply lists_sharedObjects hfits himg (by simp) hknown (nextScan_d1 img _ _) fun _ => rfl
    simp only [Bool.or_eq_true, not_or, Bool.not_eq_true] at hopen
    simp [hopen.1.2, hopen.2]

theorem openD2_lists {s0 s1 s2 : Nat} (hknown : ∀ s ∈ [s0, s1, s2], s ∈ symbolsOf triples) {it : ScanIter}
    (hit : img.openD2 (number triples s0) (number triples s1) (number triples s2) = some it) :
    img.cursor.Lists it (sharedObjects triples [s0, s1, s2]) := by
  unfold BraidedGraphImage.openD2 at hit
  dsimp only at hit
  split at hit
  · exact absurd hit (by simp)
  · rename_i hopen
    rw [Option.some.injEq] at hit
    subst hit
    apply lists_sharedObjects hfits himg (by simp) hknown (nextScan_d2 img _ _ _) fun _ => rfl
    simp only [Bool.or_eq_true, not_or, Bool.not_eq_true] at hopen
    simp [hopen.1.1.2, hopen.1.2, hopen.2]

/-- The scan lists the common objects of the first three subjects, under any predicate. -/
theorem multiSubject_lists {d2Enabled : Bool} {it : ScanIter}
    (hit : img.multiSubjectObjectIntersect d2Enabled subjects = some it) :
    img.cursor.Lists it (sharedObjects triples (subjects.take 3)) := by
  unfold BraidedGraphImage.multiSubjectObjectIntersect at hit
  split at hit
  · exact absurd hit (by simp)
  · rename_i hgo
    simp only [Option.bind_eq_bind, Option.bind_eq_some_iff] at hit
    obtain ⟨dense, hdense, hit⟩ := hit
    obtain ⟨hknown, rfl⟩ := mapM_toDense hfits himg hdense
    rcases subjects with _ | ⟨s0, _ | ⟨s1, _ | ⟨s2, rest⟩⟩⟩
    · exact absurd hit (by simp)
    · exact absurd hit (by simp)
    · exact openD1_lists hfits himg hknown hit
    · have hthree : ∀ s ∈ [s0, s1, s2], s ∈ symbolsOf triples := by
        intro s hs
        exact hknown s ((take_sublist 3 (s0 :: s1 :: s2 :: rest)).subset hs)
      rcases rest with _ | ⟨s3, rest⟩
      · exact openD2_lists hfits himg hthree hit
      · exact openD2_lists hfits himg hthree hit

end Image

/-! ## The collapse -/

/-- The objects that the replaced scans have in common. -/
def commonObjects (triples : List Row) (resolved : List Lftj.Probe) : List Nat :=
  Leapfrog.inter (resolved.map fun probe => oracleJoinScan triples probe.s probe.p probe.o probe.target)

/-- The subject has the object under the predicate, or under some predicate if it is free. -/
def Linked (triples : List Row) (predicate : Option Nat) (s o : Nat) : Prop :=
  ∃ p, (∀ x, predicate = some x → p = x) ∧ (s, p, o) ∈ triples

theorem mem_commonObjects {resolved : List Lftj.Probe} {predicate : Option Nat}
    (hresolved : Lftj.collapseSubjects resolved = some (subjects, predicate)) {o : Nat} :
    o ∈ commonObjects triples resolved ↔ ∀ s ∈ subjects, Linked triples predicate s o := by
  obtain ⟨hlen, -, hmem, hshape⟩ := Lftj.collapseSubjects_spec hresolved
  have hne : resolved ≠ [] := by
    rintro rfl
    obtain ⟨s, hs⟩ := exists_mem_of_length_pos (show 0 < subjects.length by omega)
    obtain ⟨probe, hprobe, -⟩ := (hmem s).mp hs
    exact absurd hprobe not_mem_nil
  rw [commonObjects, mem_inter_iff (by simpa using hne)]
  constructor
  · intro hall s hs
    obtain ⟨probe, hprobe, hps⟩ := (hmem s).mp hs
    obtain ⟨s', rfl⟩ := hshape probe hprobe
    have hss : s' = s := Option.some.inj hps
    subst hss
    exact mem_objects.mp (hall _ (mem_map_of_mem hprobe))
  · intro hall scan hscan
    obtain ⟨probe, hprobe, rfl⟩ := mem_map.mp hscan
    obtain ⟨s, rfl⟩ := hshape probe hprobe
    exact mem_objects.mpr (hall s ((hmem s).mpr ⟨_, hprobe, rfl⟩))

/-- The one scan lists what the replaced scans have in common if and only if every object that the
three least subjects share under any predicates is linked from all subjects by the predicate. -/
theorem collapse_lists_iff (triples : List Row) (img : BraidedGraphImage) (hfits : FitsU32 triples)
    (himg : BuiltFrom triples img) (resolved : List Lftj.Probe) (subjects : List Nat) (predicate : Option Nat)
    (hresolved : Lftj.collapseSubjects resolved = some (subjects, predicate)) (d2Enabled : Bool)
    (snap : Nat → Option BraidedGraphImage) (graphId : Nat) (hsnap : snap graphId = some img) (it : ScanIter)
    (hit : lftjMultiSubjectObjectIntersect d2Enabled (some snap) subjects predicate graphId = some it) :
    img.cursor.Lists it (commonObjects triples resolved) ↔
      ∀ o, (∀ s ∈ subjects.take 3, Linked triples none s o) → ∀ s ∈ subjects, Linked triples predicate s o := by
  obtain ⟨hlen, -, -, -⟩ := Lftj.collapseSubjects_spec hresolved
  have hit' : img.multiSubjectObjectIntersect d2Enabled subjects = some it := by
    unfold lftjMultiSubjectObjectIntersect at hit
    split at hit
    · exact absurd hit (by simp)
    · simpa [hsnap] using hit
  have hlists := multiSubject_lists hfits (himg.imageOf hfits) hit'
  have hne : subjects.take 3 ≠ [] := by
    intro hnil
    have hzero := congrArg List.length hnil
    rw [List.length_take, length_nil] at hzero
    omega
  have hshared : ∀ o, o ∈ sharedObjects triples (subjects.take 3) ↔
      ∀ s ∈ subjects.take 3, Linked triples none s o := by
    intro o
    rw [mem_sharedObjects hne]
    simp [Linked]
  constructor
  · intro h o ho
    -- the two lists are one
    have heq := hlists.unique h
    rw [← mem_commonObjects hresolved, ← heq]
    exact (hshared o).mpr ho
  · intro h
    have heq : commonObjects triples resolved = sharedObjects triples (subjects.take 3) := by
      apply List.Pairwise.eq_of_mem_iff _ (sharedObjects_pairwise triples _)
      · intro o
        rw [mem_commonObjects hresolved, hshared]
        constructor
        · intro hall s hs
          obtain ⟨p, -, hp⟩ := hall s ((take_sublist 3 subjects).subset hs)
          exact ⟨p, fun x hx => absurd hx (by simp), hp⟩
        · exact h o
      · apply Leapfrog.inter_pairwise
        intro scan hscan
        obtain ⟨probe, -, rfl⟩ := mem_map.mp hscan
        exact Sorted.pairwise_ofList _
    rw [heq]
    exact hlists

/-- A mapped image of a few triples, in every graph. -/
def sampleImage (triples : List Row) : BraidedGraphImage :=
  (BraidedGraphImage.fromExternalTriples triples).materializeMapped true

def sampleProbes : List Lftj.Probe := [⟨some 1, some 2, none, 2⟩, ⟨some 3, some 2, none, 2⟩]

/-- Two subjects with one predicate in the graph. -/
theorem collapse_lists_two : (sampleImage [(1, 2, 5), (3, 2, 5), (3, 2, 6)]).cursor.Lists
    (.d1Object ⟨0, 1⟩ ⟨1, 3⟩ (some 3)) (commonObjects [(1, 2, 5), (3, 2, 5), (3, 2, 6)] sampleProbes) := by
  refine (collapse_lists_iff [(1, 2, 5), (3, 2, 5), (3, 2, 6)] (sampleImage [(1, 2, 5), (3, 2, 5), (3, 2, 6)])
    ⟨by decide +kernel, by decide +kernel⟩ (.inr ⟨true, rfl⟩) sampleProbes [1, 3] (some 2) (by decide +kernel) true
    (fun _ => some (sampleImage [(1, 2, 5), (3, 2, 5), (3, 2, 6)])) 0 rfl _ (by decide +kernel)).mpr ?_
  intro o hshared s hs
  obtain ⟨p, -, hp⟩ := hshared s (by simpa using hs)
  refine ⟨p, ?_, hp⟩
  intro x hx
  have hp2 : p = 2 := by
    simp only [mem_cons, Prod.mk.injEq, not_mem_nil, or_false] at hp
    omega
  rw [hp2, ← Option.some.inj hx]

/-- Subjects `1` and `3` have the object `5` under different predicates. The scan in the place of
the two for predicate `2` lists it, which they do not have in common. -/
theorem collapse_ignores_predicate :
    lftjMultiSubjectObjectIntersect true (some fun _ =>
      some (sampleImage [(1, 2, 5), (3, 4, 5)])) [1, 3] (some 2) 0 =
        some (.d1Object ⟨0, 1⟩ ⟨1, 2⟩ (some 4)) ∧
      Lftj.collapseSubjects sampleProbes = some ([1, 3], some 2) ∧
      commonObjects [(1, 2, 5), (3, 4, 5)] sampleProbes = [] ∧
      (sampleImage [(1, 2, 5), (3, 4, 5)]).cursor.Lists (.d1Object ⟨0, 1⟩ ⟨1, 2⟩ (some 4)) [5] := by
  have hfits : FitsU32 [(1, 2, 5), (3, 4, 5)] := ⟨by decide +kernel, by decide +kernel⟩
  have himg : BuiltFrom [(1, 2, 5), (3, 4, 5)] (sampleImage [(1, 2, 5), (3, 4, 5)]) := .inr ⟨true, rfl⟩
  have hopen : (sampleImage [(1, 2, 5), (3, 4, 5)]).multiSubjectObjectIntersect true [1, 3] =
      some (.d1Object ⟨0, 1⟩ ⟨1, 2⟩ (some 4)) := by decide +kernel
  have hlists := multiSubject_lists hfits (himg.imageOf hfits) hopen
  have hshared : sharedObjects [(1, 2, 5), (3, 4, 5)] ([1, 3].take 3) = [5] := by decide +kernel
  exact ⟨by decide +kernel, by decide +kernel, by decide +kernel, hlists⟩

end Nova.Ring
