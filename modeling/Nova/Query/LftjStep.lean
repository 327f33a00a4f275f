import Nova.Lib.Returns
import Nova.Louds.JoinScan
import Nova.Query.LeapfrogSync

/-!
# The recursion of the join

`lftj_step` over iterators: a variable is chosen, the scans of the patterns that
mention it are opened with the bindings so far, and for every key that they have in
common the other variables are bound. The choice of the variable is a parameter.

* `JoinSource.lftjStep_spec`: as long as the scans that are opened have in common the
  keys that they should (`RunRight`), the join ends and emits the solutions, each
  once, whatever variables are chosen.
* `lftjStep_ofLists`: over scans that are lists it is `Lftj.lftjStep`.

A ground pattern is scanned for no variable: its callers look it up (`is_fully_ground`).
-/

namespace Nova.Lftj

open Nova.Lib Nova.Lib.Leapfrog List

/-! ## The join -/

/-- What the join asks of a store for one graph. A scan may fail with a panic or not be
available at all (`some none`). -/
structure JoinSource where
  State : Type
  cursor : Cursor State Nat
  joinScan : Option Nat → Option Nat → Option Nat → Nat → Option (Option State)
  multiSubjectObjectIntersect : List Nat → Option Nat → Option State

/-- Which variable comes next, and which others are left: a reordering of those that are
unbound, for every state of the bindings. -/
structure EliminationOrder where
  pick : Bindings → List Nat → List Nat
  perm : ∀ bindings unbound, (pick bindings unbound).Perm unbound

namespace JoinSource

variable (src : JoinSource)

/-- The scans one after the other, or `none` if one is not available. -/
def openEach : List Probe → Option (Option (List src.State))
  | [] => some (some [])
  | probe :: rest => do
    match ← src.joinScan probe.s probe.p probe.o probe.target with
    | none => return none
    | some scan =>
      let scans ← openEach rest
      return scans.map fun scans => scan :: scans

/-- The scans of a step: one for all if they may be taken together. -/
def openScans (resolved : List Probe) : Option (Option (List src.State)) :=
  match (collapseSubjects resolved).bind fun found => src.multiSubjectObjectIntersect found.1 found.2 with
  | some scan => some (some [scan])
  | none => src.openEach resolved

/-- `lftj_step`: the complete bindings, for `n` variables that are still unbound. -/
def lftjStep (specs : List PatternSpec) (order : EliminationOrder) (fuel : Nat) :
    Nat → List Nat → Bindings → Option (List Bindings)
  | 0, _, bindings => some [bindings]
  | n + 1, unbound, bindings =>
    match order.pick bindings unbound with
    | [] => some [bindings]
    | v :: rest =>
      let active := specs.filter (isActiveForVar v)
      if active.isEmpty then lftjStep specs order fuel n rest bindings
      else do
        match ← src.openScans (active.map (resolveForVar v bindings)) with
        | none => return []
        | some scans =>
          if scans.any src.cursor.atEnd then return []
          else
            let visit := fun val => lftjStep specs order fuel n rest (Function.update bindings v (some val))
            joinLoop src.cursor visit fuel fuel scans

end JoinSource

/-! ## Solutions -/

/-- The pattern under the bindings is the triple. -/
def IsTriple (bindings : Bindings) (sp : PatternSpec) (t : Row) : Prop :=
  resolveField bindings sp.s = some t.1 ∧ resolveField bindings sp.p = some t.2.1 ∧
    resolveField bindings sp.o = some t.2.2

/-- Every pattern is a triple under the bindings, which bind no other variables. -/
structure IsSolution (triples : List Row) (specs : List PatternSpec) (bindings : Bindings) : Prop where
  triple : ∀ sp ∈ specs, ∃ t ∈ triples, IsTriple bindings sp t
  bound : ∀ i, bindings i ≠ none → ∃ sp ∈ specs, isActiveForVar i sp = true

/-- No variable stands twice in the pattern. -/
def NoRepeat (sp : PatternSpec) : Prop :=
  ∀ i, ¬ (sp.s = .joinVar i ∧ sp.p = .joinVar i) ∧ ¬ (sp.s = .joinVar i ∧ sp.o = .joinVar i) ∧
    ¬ (sp.p = .joinVar i ∧ sp.o = .joinVar i)

/-- The target takes the value in some triple with the bound values. -/
def Probe.Yields (triples : List Row) (probe : Probe) (x : Nat) : Prop :=
  ∃ t ∈ triples, GraphRing.Matches probe.s probe.p probe.o t ∧ GraphRing.column t probe.target = x

section Fields

variable {sp : PatternSpec} {bindings bindings' : Bindings} {v i : Nat} {t : Row} {triples : List Row}

theorem isActiveForVar_iff : isActiveForVar v sp = true ↔
    sp.s = .joinVar v ∨ sp.p = .joinVar v ∨ sp.o = .joinVar v := by
  simp only [isActiveForVar, Bool.or_eq_true, decide_eq_true_eq, or_assoc]

theorem resolveField_congr {f : FieldSpec} (h : ∀ i, f = .joinVar i → bindings i = bindings' i) :
    resolveField bindings f = resolveField bindings' f := by
  cases f with
  | const id => rfl
  | joinVar i => exact h i rfl

theorem IsTriple.congr (h : IsTriple bindings sp t)
    (hsame : ∀ i, isActiveForVar i sp = true → bindings i = bindings' i) : IsTriple bindings' sp t := by
  obtain ⟨hs, hp, ho⟩ := h
  refine ⟨?_, ?_, ?_⟩
  · rw [← resolveField_congr fun i hi => hsame i (isActiveForVar_iff.mpr (.inl hi)), hs]
  · rw [← resolveField_congr fun i hi => hsame i (isActiveForVar_iff.mpr (.inr (.inl hi))), hp]
  · rw [← resolveField_congr fun i hi => hsame i (isActiveForVar_iff.mpr (.inr (.inr hi))), ho]

theorem IsTriple.bound (h : IsTriple bindings sp t) (hactive : isActiveForVar i sp = true) :
    bindings i ≠ none := by
  obtain ⟨hs, hp, ho⟩ := h
  rcases isActiveForVar_iff.mp hactive with hi | hi | hi
  · rw [hi, resolveField] at hs
    rw [hs]
    exact Option.some_ne_none _
  · rw [hi, resolveField] at hp
    rw [hp]
    exact Option.some_ne_none _
  · rw [hi, resolveField] at ho
    rw [ho]
    exact Option.some_ne_none _

/-- Where the variable is bound to `x`, a pattern that mentions it has the value as a key
of its scan. -/
theorem IsTriple.yields (h : IsTriple bindings sp t) (ht : t ∈ triples)
    (hactive : isActiveForVar v sp = true) {x : Nat}
    (hx : bindings v = some x) (hsame : ∀ i y, bindings' i = some y → bindings i = some y) :
    (resolveForVar v bindings' sp).Yields triples x := by
  obtain ⟨hs, hp, ho⟩ := h
  have hfield : ∀ {f : FieldSpec} {y z : Nat}, resolveField bindings f = some y →
    resolveField bindings' f = some z →
      y = z := by
    intro f y z hy hz
    cases f with
    | const id => exact Option.some.inj (hy.symm.trans hz)
    | joinVar i => exact Option.some.inj (hy.symm.trans (hsame i z hz))
  refine ⟨t, ht, ⟨?_, ?_, ?_⟩, ?_⟩
  · exact fun y hy => hfield hs hy
  · exact fun y hy => hfield hp hy
  · exact fun y hy => hfield ho hy
  · simp only [resolveForVar]
    by_cases hi : sp.s = .joinVar v
    · rw [hi, resolveField, hx] at hs
      rw [if_pos hi]
      exact (Option.some.inj hs).symm
    · rw [if_neg hi]
      by_cases hi' : sp.p = .joinVar v
      · rw [hi', resolveField, hx] at hp
        rw [if_pos hi']
        exact (Option.some.inj hp).symm
      · have hi'' : sp.o = .joinVar v := by
          have hany := isActiveForVar_iff.mp hactive
          exact (hany.resolve_left hi).resolve_left hi'
        rw [hi'', resolveField, hx] at ho
        rw [if_neg hi']
        exact (Option.some.inj ho).symm

/-- Conversely, a key of the scan makes the pattern a triple, once its other variables
are bound. -/
theorem Probe.Yields.isTriple (hnorepeat : NoRepeat sp) (hactive : isActiveForVar v sp = true) {x : Nat}
    (h : (resolveForVar v bindings sp).Yields triples x)
    (hothers : ∀ i, i ≠ v → isActiveForVar i sp = true → bindings i ≠ none) :
    ∃ t ∈ triples, IsTriple (Function.update bindings v (some x)) sp t := by
  obtain ⟨t, ht, ⟨hs, hp, ho⟩, hcolumn⟩ := h
  refine ⟨t, ht, ?_⟩
  -- a field that is not the target is a constant or a bound variable
  have hfield : ∀ {f : FieldSpec} {y : Nat}, f ≠ .joinVar v → (∀ i, f = .joinVar i → isActiveForVar i sp = true) →
      (∀ z, resolveField bindings f = some z → y = z) →
        resolveField (Function.update bindings v (some x)) f = some y := by
    intro f y hne hact heq
    cases f with
    | const id => exact congrArg some (heq id rfl).symm
    | joinVar i =>
      have hi : i ≠ v := fun hi => hne (congrArg FieldSpec.joinVar hi)
      obtain ⟨z, hz⟩ := Option.ne_none_iff_exists'.mp (hothers i hi (hact i rfl))
      rw [resolveField, Function.update_of_ne hi, hz, heq z hz]
  have hs' : ∀ i, sp.s = .joinVar i → isActiveForVar i sp = true := fun i hi => isActiveForVar_iff.mpr (.inl hi)
  have hp' : ∀ i, sp.p = .joinVar i → isActiveForVar i sp = true :=
    fun i hi => isActiveForVar_iff.mpr (.inr (.inl hi))
  have ho' : ∀ i, sp.o = .joinVar i → isActiveForVar i sp = true :=
    fun i hi => isActiveForVar_iff.mpr (.inr (.inr hi))
  have htarget : ∀ {f : FieldSpec} {y : Nat}, f = .joinVar v → y = x →
      resolveField (Function.update bindings v (some x)) f = some y := by
    intro f y hf hy
    rw [hf, resolveField, Function.update_self, hy]
  have hno := hnorepeat v
  simp only [resolveForVar] at hcolumn
  by_cases hi : sp.s = .joinVar v
  · rw [if_pos hi] at hcolumn
    refine ⟨htarget hi hcolumn, hfield (fun hi' => hno.1 ⟨hi, hi'⟩) hp' hp,
      hfield (fun hi' => hno.2.1 ⟨hi, hi'⟩) ho' ho⟩
  · rw [if_neg hi] at hcolumn
    by_cases hi' : sp.p = .joinVar v
    · rw [if_pos hi'] at hcolumn
      exact ⟨hfield hi hs' hs, htarget hi' hcolumn, hfield (fun hi'' => hno.2.2 ⟨hi', hi''⟩) ho' ho⟩
    · rw [if_neg hi'] at hcolumn
      have hi'' : sp.o = .joinVar v := ((isActiveForVar_iff.mp hactive).resolve_left hi).resolve_left hi'
      exact ⟨hfield hi hs' hs, hfield hi' hp' hp, htarget hi'' hcolumn⟩

end Fields

/-! ## Runs -/

/-- The scans that a step opens have in common the keys at which every one of its
patterns has a triple. -/
def RightScans (src : JoinSource) (triples : List Row) (resolved : List Probe) : Prop :=
  ∃ scans fronts, src.openScans resolved = some (some scans) ∧ Fronts src.cursor scans fronts ∧ fronts ≠ [] ∧
    Ascending fronts ∧ ∀ x, Common fronts x ↔ ∀ probe ∈ resolved, probe.Yields triples x

variable {triples : List Row}

/-- Scans that are opened one by one, each with the keys of its probe in
front of it. -/
theorem rightScans_of_each {src : JoinSource} {resolved : List Probe} (hne : resolved ≠ [])
    (hcollapse : ((collapseSubjects resolved).bind fun found =>
      src.multiSubjectObjectIntersect found.1 found.2) = none)
    (heach : ∀ probe ∈ resolved, ∃ scan keys,
      src.joinScan probe.s probe.p probe.o probe.target = some (some scan) ∧
      Obeys src.cursor scan keys ∧ keys.Pairwise (· < ·) ∧ ∀ x, x ∈ keys ↔ probe.Yields triples x) :
    RightScans src triples resolved := by
  have hopen : ∃ scans fronts, src.openEach resolved = some (some scans) ∧ Fronts src.cursor scans fronts ∧
      fronts.length = resolved.length ∧ Ascending fronts ∧
        ∀ x, Common fronts x ↔ ∀ probe ∈ resolved, probe.Yields triples x := by
    clear hne hcollapse
    induction resolved with
    | nil =>
      refine ⟨[], [], rfl, .nil, rfl, nofun, ?_⟩
      intro x
      simp [Common]
    | cons probe rest ih =>
      rcases forall_mem_cons.mp heach with ⟨⟨scan, keys, hscan, hobeys, hasc, hmem⟩, hrest⟩
      obtain ⟨scans, fronts, hscans, hfronts, hlen, hascs, hcommon⟩ := ih hrest
      refine ⟨scan :: scans, keys :: fronts, ?_, .cons hobeys hfronts, ?_, ?_, ?_⟩
      · rw [JoinSource.openEach, hscan, hscans]
        rfl
      · rw [length_cons, length_cons, hlen]
      · exact forall_mem_cons.mpr ⟨hasc, hascs⟩
      · intro x
        rw [common_cons, hmem, hcommon, forall_mem_cons]
  obtain ⟨scans, fronts, hscans, hfronts, hlen, hasc, hcommon⟩ := hopen
  refine ⟨scans, fronts, ?_, hfronts, ?_, hasc, hcommon⟩
  · rw [JoinSource.openScans, hcollapse]
    exact hscans
  · rintro rfl
    exact hne (length_eq_zero_iff.mp hlen.symm)

/-- Every step of a run opens scans of which `Right` holds. The steps are those that are
reached through keys at which the patterns have triples. -/
def RunRight (Right : List Probe → Prop) (triples : List Row) (specs : List PatternSpec)
    (order : EliminationOrder) :
    Nat → List Nat → Bindings → Prop
  | 0, _, _ => True
  | n + 1, unbound, bindings =>
    match order.pick bindings unbound with
    | [] => True
    | v :: rest =>
      let active := specs.filter (isActiveForVar v)
      if active.isEmpty then RunRight Right triples specs order n rest bindings
      else Right (active.map (resolveForVar v bindings)) ∧
        ∀ x, (∀ probe ∈ active.map (resolveForVar v bindings), probe.Yields triples x) →
          RunRight Right triples specs order n rest (Function.update bindings v (some x))

/-- The target of the probe is a column that is not bound. -/
def Probe.Free (probe : Probe) : Prop :=
  probe.target < 3 ∧ GraphRing.fieldVal probe.s probe.p probe.o probe.target = none

theorem resolveForVar_free {sp : PatternSpec} {bindings : Bindings} {v : Nat} (hv : bindings v = none)
    (hactive : isActiveForVar v sp = true) : (resolveForVar v bindings sp).Free := by
  have hfield : ∀ {f : FieldSpec}, f = .joinVar v → resolveField bindings f = none := by
    rintro f rfl
    exact hv
  simp only [Probe.Free, resolveForVar]
  by_cases hs : sp.s = .joinVar v
  · rw [if_pos hs]
    exact ⟨by omega, hfield hs⟩
  · rw [if_neg hs]
    by_cases hp : sp.p = .joinVar v
    · rw [if_pos hp]
      exact ⟨by omega, hfield hp⟩
    · rw [if_neg hp]
      exact ⟨by omega, hfield (((isActiveForVar_iff.mp hactive).resolve_left hs).resolve_left hp)⟩

variable {specs : List PatternSpec} {n : Nat}

/-- What follows of every step from the condition on it is met too. -/
theorem RunRight.imp {Right Right' : List Probe → Prop} {order : EliminationOrder}
    (himp : ∀ resolved, resolved ≠ [] → (∀ probe ∈ resolved, probe.Free) → Right resolved → Right' resolved) :
    ∀ {unbound : List Nat} {bindings : Bindings}, unbound.Nodup → (∀ i ∈ unbound, bindings i = none) →
      RunRight Right triples specs order n unbound bindings →
      RunRight Right' triples specs order n unbound bindings := by
  induction n with
  | zero => exact fun _ _ _ => trivial
  | succ n ih =>
    intro unbound bindings hnodup hfree h
    have hperm := order.perm bindings unbound
    rw [RunRight] at h ⊢
    rcases hpick : order.pick bindings unbound with _ | ⟨v, rest⟩
    · trivial
    rw [hpick] at hperm
    rcases nodup_cons.mp (hperm.nodup_iff.mpr hnodup) with ⟨hvrest, hrest⟩
    have hfree' : ∀ i ∈ rest, bindings i = none := fun i hi => hfree i (hperm.mem_iff.mp (mem_cons_of_mem v hi))
    simp only [hpick] at h
    by_cases hempty : (specs.filter (isActiveForVar v)).isEmpty = true
    · rw [if_pos hempty] at h
      simp only [if_pos hempty]
      exact ih hrest hfree' h
    · rw [if_neg hempty] at h
      simp only [if_neg hempty]
      refine ⟨himp _ ?_ ?_ h.1, ?_⟩
      · rw [ne_eq, map_eq_nil_iff, ← List.isEmpty_iff]
        exact hempty
      · intro probe hprobe
        obtain ⟨sp, hsp, rfl⟩ := mem_map.mp hprobe
        exact resolveForVar_free (hfree v (hperm.mem_iff.mp mem_cons_self)) (mem_filter.mp hsp).2
      · intro x hx
        apply ih hrest _ (h.2 x hx)
        intro i hi
        have hiv : i ≠ v := by
          rintro rfl
          exact hvrest hi
        rw [Function.update_of_ne hiv]
        exact hfree' i hi

theorem RunRight.always {Right : List Probe → Prop}
    {order : EliminationOrder} (hall : ∀ resolved, Right resolved) :
    ∀ {unbound : List Nat} {bindings : Bindings}, RunRight Right triples specs order n unbound bindings := by
  induction n with
  | zero => exact trivial
  | succ n ih =>
    intro unbound bindings
    rw [RunRight]
    split
    · trivial
    · dsimp only
      split
      · exact ih
      · exact ⟨hall _, fun x _ => ih⟩

/-- What holds of the bindings at every step: the variables that are left are unbound,
the others of the patterns bound, and a pattern without a variable left is a triple. -/
structure Reached (triples : List Row) (specs : List PatternSpec) (unbound : List Nat)
    (bindings : Bindings) : Prop where
  nodup : unbound.Nodup
  free : ∀ i ∈ unbound, bindings i = none
  covered : ∀ sp ∈ specs, ∀ i, isActiveForVar i sp = true → i ∈ unbound ∨ bindings i ≠ none
  triple : ∀ sp ∈ specs, (∀ i, isActiveForVar i sp = true → i ∉ unbound) → ∃ t ∈ triples, IsTriple bindings sp t
  bound : ∀ i, bindings i ≠ none → ∃ sp ∈ specs, isActiveForVar i sp = true

section Step

variable {triples : List Row} {specs : List PatternSpec} {unbound rest : List Nat} {bindings : Bindings} {v : Nat}

theorem Reached.start (hvars : ∀ sp ∈ specs, ∀ i, isActiveForVar i sp = true → i < n)
    (hground : ∀ sp ∈ specs, (∀ i, isActiveForVar i sp = false) → ∃ t ∈ triples, IsTriple (fun _ => none) sp t) :
    Reached triples specs (List.range n) fun _ => none where
  nodup := nodup_range
  free := fun _ _ => rfl
  covered := fun sp hsp i hi => .inl (mem_range.mpr (hvars sp hsp i hi))
  triple := by
    intro sp hsp hleft
    apply hground sp hsp
    intro i
    rw [Bool.eq_false_iff]
    intro hi
    exact hleft i hi (mem_range.mpr (hvars sp hsp i hi))
  bound := fun _ h => absurd rfl h

variable (h : Reached triples specs unbound bindings) (hperm : (v :: rest).Perm unbound)
include h hperm

theorem Reached.rest_nodup : v ∉ rest ∧ rest.Nodup := nodup_cons.mp (hperm.nodup_iff.mpr h.nodup)

theorem Reached.skip (hinactive : ∀ sp ∈ specs, isActiveForVar v sp = false) :
    Reached triples specs rest bindings where
  nodup := (h.rest_nodup hperm).2
  free := fun i hi => h.free i (hperm.mem_iff.mp (mem_cons_of_mem v hi))
  covered := by
    intro sp hsp i hi
    rcases h.covered sp hsp i hi with hmem | hbound
    · rcases mem_cons.mp (hperm.mem_iff.mpr hmem) with rfl | hrest
      · rw [hinactive sp hsp] at hi
        exact absurd hi Bool.false_ne_true
      · exact .inl hrest
    · exact .inr hbound
  triple := by
    intro sp hsp hleft
    apply h.triple sp hsp
    intro i hi hmem
    rcases mem_cons.mp (hperm.mem_iff.mpr hmem) with rfl | hrest
    · rw [hinactive sp hsp] at hi
      exact absurd hi Bool.false_ne_true
    · exact hleft i hi hrest
  bound := h.bound

/-- Binding the next variable to a common id keeps the state of the join. -/
theorem Reached.bind (hnorepeat : ∀ sp ∈ specs, NoRepeat sp)
    (hactive : ∃ sp ∈ specs, isActiveForVar v sp = true) {x : Nat}
    (hx : ∀ sp ∈ specs, isActiveForVar v sp = true → (resolveForVar v bindings sp).Yields triples x) :
    Reached triples specs rest (Function.update bindings v (some x)) where
  nodup := (h.rest_nodup hperm).2
  free := by
    intro i hi
    have hne : i ≠ v := by
      rintro rfl
      exact (h.rest_nodup hperm).1 hi
    rw [Function.update_of_ne hne]
    exact h.free i (hperm.mem_iff.mp (mem_cons_of_mem v hi))
  covered := by
    intro sp hsp i hi
    by_cases hiv : i = v
    · right
      rw [hiv, Function.update_self]
      exact Option.some_ne_none x
    · rw [Function.update_of_ne hiv]
      rcases h.covered sp hsp i hi with hmem | hbound
      · exact .inl ((mem_cons.mp (hperm.mem_iff.mpr hmem)).resolve_left hiv)
      · exact .inr hbound
  triple := by
    intro sp hsp hleft
    by_cases hv : isActiveForVar v sp = true
    · -- its scan had the key
      apply (hx sp hsp hv).isTriple (hnorepeat sp hsp) hv
      intro i hiv hi
      refine (h.covered sp hsp i hi).resolve_left fun hmem => hleft i hi ?_
      exact (mem_cons.mp (hperm.mem_iff.mpr hmem)).resolve_left hiv
    · -- it was a triple before
      have hold : ∃ t ∈ triples, IsTriple bindings sp t := by
        apply h.triple sp hsp
        intro i hi hmem
        rcases mem_cons.mp (hperm.mem_iff.mpr hmem) with rfl | hrest
        · exact hv hi
        · exact hleft i hi hrest
      obtain ⟨t, ht, htriple⟩ := hold
      refine ⟨t, ht, htriple.congr fun i hi => ?_⟩
      have hiv : i ≠ v := by
        rintro rfl
        exact hv hi
      rw [Function.update_of_ne hiv]
  bound := by
    intro i hi
    by_cases hiv : i = v
    · rw [hiv]
      exact hactive
    · rw [Function.update_of_ne hiv] at hi
      exact h.bound i hi

omit h in
/-- The solutions that extend the bindings, by the value of the variable. -/
theorem solutions_step (hactive : ∃ sp ∈ specs, isActiveForVar v sp = true)
    (hfree : ∀ i ∈ unbound, bindings i = none) {γ : Bindings} :
    (IsSolution triples specs γ ∧ ∀ i, i ∉ unbound → γ i = bindings i) ↔
      ∃ x, (∀ sp ∈ specs, isActiveForVar v sp = true → (resolveForVar v bindings sp).Yields triples x) ∧
        IsSolution triples specs γ ∧ ∀ i, i ∉ rest → γ i = Function.update bindings v (some x) i := by
  constructor
  · intro hγ
    obtain ⟨hsol, hext⟩ := hγ
    obtain ⟨sp₀, hsp₀, hact₀⟩ := hactive
    obtain ⟨t₀, -, ht₀⟩ := hsol.triple sp₀ hsp₀
    obtain ⟨x, hx⟩ := Option.ne_none_iff_exists'.mp (ht₀.bound hact₀)
    refine ⟨x, ?_, hsol, ?_⟩
    · intro sp hsp hact
      obtain ⟨t, ht, htriple⟩ := hsol.triple sp hsp
      apply htriple.yields ht hact hx
      intro i y hy
      -- a bound variable is not among those that are left
      have hmem : i ∉ unbound := by
        intro hmem
        rw [hfree i hmem] at hy
        exact nomatch hy
      rw [hext i hmem, hy]
    · intro i hi
      by_cases hiv : i = v
      · rw [hiv, Function.update_self, hx]
      · rw [Function.update_of_ne hiv]
        apply hext
        intro hmem
        exact hi ((mem_cons.mp (hperm.mem_iff.mpr hmem)).resolve_left hiv)
  · intro hγ
    obtain ⟨x, -, hsol, hext⟩ := hγ
    refine ⟨hsol, ?_⟩
    intro i hi
    have hiv : i ≠ v := by
      rintro rfl
      exact hi (hperm.mem_iff.mp mem_cons_self)
    rw [hext i fun hrest => hi (hperm.mem_iff.mp (mem_cons_of_mem v hrest)), Function.update_of_ne hiv]

end Step

/-- The list has the solutions that extend the bindings, each once. -/
structure Emits (triples : List Row) (specs : List PatternSpec) (unbound : List Nat) (bindings : Bindings)
    (out : List Bindings) : Prop where
  nodup : out.Nodup
  mem : ∀ γ, γ ∈ out ↔ IsSolution triples specs γ ∧ ∀ i, i ∉ unbound → γ i = bindings i

section Emit

variable {triples : List Row} {specs : List PatternSpec} {unbound rest : List Nat} {bindings : Bindings} {v : Nat}
  {out : List Bindings}

theorem Reached.emits_nil (h : Reached triples specs [] bindings) : Emits triples specs [] bindings
    [bindings] where
  nodup := nodup_singleton _
  mem := by
    intro γ
    rw [mem_singleton]
    constructor
    · rintro rfl
      exact ⟨⟨fun sp hsp => h.triple sp hsp fun _ _ => not_mem_nil, h.bound⟩, fun _ _ => rfl⟩
    · intro hγ
      funext i
      exact hγ.2 i not_mem_nil

theorem Emits.skip (h : Emits triples specs rest bindings out) (hperm : (v :: rest).Perm unbound)
    (hv : bindings v = none) (hinactive : ∀ sp ∈ specs, isActiveForVar v sp = false) :
    Emits triples specs unbound bindings out where
  nodup := h.nodup
  mem := by
    intro γ
    rw [h.mem]
    refine and_congr_right fun hsol => ?_
    constructor
    · exact fun hext i hi => hext i fun hrest => hi (hperm.mem_iff.mp (mem_cons_of_mem v hrest))
    · intro hext i hi
      by_cases hiv : i = v
      · rw [hiv, hv]
        by_contra hsome
        obtain ⟨sp, hsp, hact⟩ := hsol.bound v hsome
        rw [hinactive sp hsp] at hact
        exact Bool.false_ne_true hact
      · exact hext i fun hmem => hi ((mem_cons.mp (hperm.mem_iff.mpr hmem)).resolve_left hiv)

/-- The solutions by the value of a variable. -/
theorem Reached.emits_flatMap (hreached : Reached triples specs unbound bindings)
    (hperm : (v :: rest).Perm unbound)
    (hactive : ∃ sp ∈ specs, isActiveForVar v sp = true) {keys : List Nat} (hkeys : keys.Pairwise (· < ·))
    (hmem : ∀ x, x ∈ keys ↔
      ∀ sp ∈ specs, isActiveForVar v sp = true → (resolveForVar v bindings sp).Yields triples x)
    {outs : Nat → List Bindings}
    (h : ∀ x ∈ keys, Emits triples specs rest (Function.update bindings v (some x)) (outs x)) :
    Emits triples specs unbound bindings (keys.flatMap outs) where
  nodup := by
    apply nodup_flatMap.mpr
    refine ⟨fun x hx => (h x hx).nodup, ?_⟩
    -- different keys bind the variable differently
    apply hkeys.imp_of_mem
    intro x y hx hy hxy γ hγx hγy
    have hvrest := (hreached.rest_nodup hperm).1
    have hx' := (((h x hx).mem γ).mp hγx).2 v hvrest
    have hy' := (((h y hy).mem γ).mp hγy).2 v hvrest
    rw [Function.update_self] at hx' hy'
    have heq := Option.some.inj (hx'.symm.trans hy')
    omega
  mem := by
    intro γ
    rw [mem_flatMap, solutions_step hperm hactive hreached.free]
    constructor
    · intro hγ
      obtain ⟨x, hx, hγ⟩ := hγ
      exact ⟨x, (hmem x).mp hx, ((h x hx).mem γ).mp hγ⟩
    · intro hγ
      obtain ⟨x, hx, hγ⟩ := hγ
      have hx' := (hmem x).mpr hx
      exact ⟨x, hx', ((h x hx').mem γ).mpr hγ⟩

end Emit

theorem exists_bound {P : Nat → Nat → Prop} {l : List Nat} (h : ∀ x ∈ l, ∃ bound, ∀ fuel ≥ bound, P x fuel) :
    ∃ bound, ∀ fuel ≥ bound, ∀ x ∈ l, P x fuel := by
  induction l with
  | nil => exact ⟨0, nofun⟩
  | cons y l ih =>
    obtain ⟨b, hb⟩ := h y mem_cons_self
    obtain ⟨b', hb'⟩ := ih fun x hx => h x (mem_cons_of_mem y hx)
    refine ⟨max b b', ?_⟩
    intro fuel hfuel x hx
    rcases mem_cons.mp hx with rfl | hx
    · exact hb fuel (by omega)
    · exact hb' fuel (by omega) x hx

variable {src : JoinSource} {triples : List Row} {specs : List PatternSpec} {order : EliminationOrder}

/-- A step over scans that have the right keys in common, when the runs from its keys
emit what they should. -/
theorem JoinSource.emits_step {v fuel : Nat} {unbound rest : List Nat} {bindings : Bindings}
    (hreached : Reached triples specs unbound bindings) (hpick : order.pick bindings unbound = v :: rest)
    (hactive : ∃ sp ∈ specs, isActiveForVar v sp = true) {scans : List src.State} {fronts : List (List Nat)}
    (hopen : src.openScans ((specs.filter (isActiveForVar v)).map (resolveForVar v bindings)) = some (some scans))
    (hfronts : Fronts src.cursor scans fronts) (hne : fronts ≠ []) (hasc : Ascending fronts)
    (hmem : ∀ x, x ∈ inter fronts ↔
      ∀ sp ∈ specs, isActiveForVar v sp = true → (resolveForVar v bindings sp).Yields triples x)
    (hfuel : remaining fronts < fuel) (hvisits : ∀ x ∈ inter fronts, ∃ out,
      src.lftjStep specs order fuel n rest (Function.update bindings v (some x)) = some out ∧
        Emits triples specs rest (Function.update bindings v (some x)) out) :
    ∃ out, src.lftjStep specs order fuel (n + 1) unbound bindings = some out ∧
      Emits triples specs unbound bindings out := by
  have hperm := hpick ▸ order.perm bindings unbound
  have hempty : ¬ (specs.filter (isActiveForVar v)).isEmpty = true := by
    rw [List.isEmpty_iff, filter_eq_nil_iff]
    push Not
    exact hactive
  let outs := fun x => (src.lftjStep specs order fuel n rest (Function.update bindings v (some x))).getD []
  have houts : ∀ x ∈ inter fronts,
      src.lftjStep specs order fuel n rest (Function.update bindings v (some x)) = some (outs x) ∧
        Emits triples specs rest (Function.update bindings v (some x)) (outs x) := by
    intro x hx
    obtain ⟨out, hout, hemits⟩ := hvisits x hx
    have heq : outs x = out := by simp only [outs, hout, Option.getD_some]
    rw [heq]
    exact ⟨hout, hemits⟩
  refine ⟨(inter fronts).flatMap outs, ?_, ?_⟩
  · rw [JoinSource.lftjStep, hpick]
    simp only [if_neg hempty, hopen, Option.bind_eq_bind, Option.bind_some]
    rw [hfronts.any_atEnd]
    by_cases hend : fronts.any List.isEmpty = true
    · rw [if_pos hend, inter_eq_nil_of_any_isEmpty hne hasc hend]
      rfl
    · rw [if_neg hend]
      exact joinLoop_eq hfronts hne hasc hfuel hfuel fun x hx => (houts x hx).1
  · exact hreached.emits_flatMap hperm hactive (inter_pairwise hasc) hmem fun x hx => (houts x hx).2

/-- From every state that is reached the join ends, and emits the solutions that extend
the bindings, each once. -/
theorem JoinSource.lftjStep_spec (hnorepeat : ∀ sp ∈ specs, NoRepeat sp) :
    ∀ {unbound : List Nat} {bindings : Bindings}, unbound.length = n → Reached triples specs unbound bindings →
      RunRight (RightScans src triples) triples specs order n unbound bindings →
      ∃ bound, ∀ fuel ≥ bound, ∃ out, src.lftjStep specs order fuel n unbound bindings = some out ∧
        Emits triples specs unbound bindings out := by
  induction n with
  | zero =>
    intro unbound bindings hlen hreached _
    rw [length_eq_zero_iff] at hlen
    subst hlen
    exact ⟨0, fun fuel _ => ⟨[bindings], rfl, hreached.emits_nil⟩⟩
  | succ n ih =>
    intro unbound bindings hlen hreached hrun
    have hperm := order.perm bindings unbound
    rw [RunRight] at hrun
    rcases hpick : order.pick bindings unbound with _ | ⟨v, rest⟩
    · rw [hpick] at hperm
      rw [← hperm.length_eq] at hlen
      exact absurd hlen (by simp)
    rw [hpick] at hperm
    simp only [hpick] at hrun
    have hlen' : rest.length = n := by
      have hcons := hperm.length_eq
      rw [length_cons, hlen] at hcons
      omega
    by_cases hempty : (specs.filter (isActiveForVar v)).isEmpty = true
    · -- no pattern mentions the variable
      have hinactive : ∀ sp ∈ specs, isActiveForVar v sp = false := by
        intro sp hsp
        exact Bool.eq_false_iff.mpr (filter_eq_nil_iff.mp (List.isEmpty_iff.mp hempty) sp hsp)
      rw [if_pos hempty] at hrun
      obtain ⟨bound, hbound⟩ := ih hlen' (hreached.skip hperm hinactive) hrun
      refine ⟨bound, ?_⟩
      intro fuel hfuel
      obtain ⟨out, hout, hemits⟩ := hbound fuel hfuel
      have hv : bindings v = none := hreached.free v (hperm.mem_iff.mp mem_cons_self)
      refine ⟨out, ?_, hemits.skip hperm hv hinactive⟩
      rw [JoinSource.lftjStep, hpick]
      simp only [if_pos hempty]
      exact hout
    · rw [if_neg hempty] at hrun
      obtain ⟨⟨scans, fronts, hopen, hfronts, hne, hasc, hcommon⟩, hruns⟩ := hrun
      have hactive : ∃ sp ∈ specs, isActiveForVar v sp = true := by
        rw [List.isEmpty_iff, filter_eq_nil_iff] at hempty
        push Not at hempty
        exact hempty
      have hyields : ∀ x, x ∈ inter fronts ↔
        ∀ probe ∈ (specs.filter (isActiveForVar v)).map (resolveForVar v bindings),
          probe.Yields triples x := by
        intro x
        obtain ⟨front₀, rest₀, hcons⟩ := exists_cons_of_ne_nil hne
        rw [← hcommon, hcons, mem_inter]
      have hmem : ∀ x, x ∈ inter fronts ↔
          ∀ sp ∈ specs, isActiveForVar v sp = true → (resolveForVar v bindings sp).Yields triples x := by
        intro x
        rw [hyields, forall_mem_map]
        simp only [mem_filter, and_imp]
      -- every key leads to a run of its own
      have hstep : ∀ x ∈ inter fronts, ∃ bound, ∀ fuel ≥ bound, ∃ out,
          src.lftjStep specs order fuel n rest (Function.update bindings v (some x)) = some out ∧
            Emits triples specs rest (Function.update bindings v (some x)) out := by
        intro x hx
        exact ih hlen' (hreached.bind hperm hnorepeat hactive ((hmem x).mp hx)) (hruns x ((hyields x).mp hx))
      obtain ⟨bound, hbound⟩ := exists_bound hstep
      refine ⟨max bound (remaining fronts + 1), ?_⟩
      intro fuel hfuel
      exact JoinSource.emits_step hreached hpick hactive hopen hfronts hne hasc hmem (by omega)
        (hbound fuel (by omega))

/-- The list has the solutions, each once. -/
structure ListsMatches (triples : List Row) (specs : List PatternSpec) (out : List Bindings) : Prop where
  nodup : out.Nodup
  mem : ∀ γ, γ ∈ out ↔ IsSolution triples specs γ

theorem Emits.listsMatches {out : List Bindings} (h : Emits triples specs (List.range n) (fun _ => none) out)
    (hvars : ∀ sp ∈ specs, ∀ i, isActiveForVar i sp = true → i < n) : ListsMatches triples specs out where
  nodup := h.nodup
  mem := by
    intro γ
    rw [h.mem, and_iff_left_iff_imp]
    -- no variable but those that are left is bound
    intro hsol i hi
    by_contra hsome
    obtain ⟨sp, hsp, hact⟩ := hsol.bound i hsome
    exact hi (mem_range.mpr (hvars sp hsp i hact))

theorem ListsMatches.perm {out out' : List Bindings} (h : ListsMatches triples specs out)
    (h' : ListsMatches triples specs out') : out.Perm out' := by
  apply (perm_ext_iff_of_nodup h.nodup h'.nodup).mpr
  intro γ
  rw [h.mem, h'.mem]

theorem isFullyGround_of_inactive {sp : PatternSpec} (h : ∀ i, isActiveForVar i sp = false) :
    isFullyGround sp = true := by
  have hconst : ∀ f : FieldSpec, (∀ i, f ≠ .joinVar i) → f.asConst.isSome = true := by
    intro f hf
    cases f with
    | const id => rfl
    | joinVar i => exact absurd rfl (hf i)
  have hnot : ∀ i, ¬ (sp.s = .joinVar i ∨ sp.p = .joinVar i ∨ sp.o = .joinVar i) := by
    intro i hi
    rw [← isActiveForVar_iff, h i] at hi
    exact Bool.false_ne_true hi
  simp only [isFullyGround, Bool.and_eq_true]
  exact ⟨⟨hconst _ fun i hi => hnot i (.inl hi), hconst _ fun i hi => hnot i (.inr (.inl hi))⟩,
    hconst _ fun i hi => hnot i (.inr (.inr hi))⟩

/-! ## Scans that are lists -/

/-- A dataset whose scans are lists, for one graph. -/
abbrev JoinSource.ofLists (ds : Dataset) (graph : GraphSelector) : JoinSource where
  State := List Nat
  cursor := listCursor
  joinScan s p o target := some (ds.lftjJoinScan s p o target graph)
  multiSubjectObjectIntersect subjects predicate := ds.lftjMultiSubjectObjectIntersect subjects predicate graph

/-- The order of the dataset: by weight, or as it comes. -/
def orderOf (ds : Dataset) (specs : List PatternSpec) (graph : GraphSelector) : EliminationOrder where
  pick := Lftj.order ds specs graph
  perm := by
    intro bindings unbound
    unfold Lftj.order veoSort
    split
    · exact List.mergeSort_perm _ _
    · exact List.Perm.refl _

section Lists

variable {ds : Dataset} {graph : GraphSelector}

theorem openEach_ofLists (resolved : List Probe) : (JoinSource.ofLists ds graph).openEach resolved =
    some (resolved.mapM fun probe => ds.lftjJoinScan probe.s probe.p probe.o probe.target graph) := by
  induction resolved with
  | nil => rfl
  | cons probe rest ih =>
    have hscan : (JoinSource.ofLists ds graph).joinScan probe.s probe.p probe.o probe.target =
        some (ds.lftjJoinScan probe.s probe.p probe.o probe.target graph) := rfl
    rw [JoinSource.openEach, ih, mapM_cons, hscan]
    rcases ds.lftjJoinScan probe.s probe.p probe.o probe.target graph with _ | scan
    · rfl
    · generalize rest.mapM (fun probe => ds.lftjJoinScan probe.s probe.p probe.o probe.target graph) = scans
      cases scans <;> rfl

theorem openScans_ofLists (resolved : List Probe) :
    (JoinSource.ofLists ds graph).openScans resolved = some (Lftj.openScans ds graph resolved) := by
  have hcollapse : ((collapseSubjects resolved).bind fun found =>
      (JoinSource.ofLists ds graph).multiSubjectObjectIntersect found.1 found.2) =
        (collapseSubjects resolved).bind fun found =>
          ds.lftjMultiSubjectObjectIntersect found.1 found.2 graph := rfl
  rw [JoinSource.openScans, Lftj.openScans, tryCollapse_eq, hcollapse]
  rcases (collapseSubjects resolved).bind fun found =>
    ds.lftjMultiSubjectObjectIntersect found.1 found.2 graph with
    _ | scan
  · exact openEach_ofLists resolved
  · rfl

/-- The scans of a dataset are strictly increasing. -/
structure AscendingScans (ds : Dataset) (graph : GraphSelector) : Prop where
  join : ∀ s p o target scan, ds.lftjJoinScan s p o target graph = some scan → scan.Pairwise (· < ·)
  collapse : ∀ subjects predicate scan, ds.lftjMultiSubjectObjectIntersect subjects predicate graph = some scan →
    scan.Pairwise (· < ·)

theorem ascending_openScans (h : AscendingScans ds graph) {resolved : List Probe} {scans : List Scan}
    (hopen : Lftj.openScans ds graph resolved = some scans) : Ascending scans := by
  rw [Lftj.openScans, tryCollapse_eq] at hopen
  rcases hcollapse : (collapseSubjects resolved).bind fun found =>
    ds.lftjMultiSubjectObjectIntersect found.1 found.2 graph with _ | scan
  · rw [hcollapse] at hopen
    intro scan hscan
    obtain ⟨i, hi, rfl⟩ := mem_iff_getElem.mp hscan
    have heach := forall₂_of_mapM hopen
    exact h.join _ _ _ _ _ (heach.get (heach.length_eq ▸ hi) hi)
  · rw [hcollapse, Option.some.injEq] at hopen
    obtain ⟨found, -, hfound⟩ := Option.bind_eq_some_iff.mp hcollapse
    rw [← hopen]
    intro scan' hscan'
    rw [mem_singleton] at hscan'
    rw [hscan']
    exact h.collapse _ _ _ hfound

theorem openScans_ne_nil {resolved : List Probe} (hne : resolved ≠ []) {scans : List Scan}
    (hopen : Lftj.openScans ds graph resolved = some scans) : scans ≠ [] := by
  rw [Lftj.openScans] at hopen
  split at hopen
  · rw [Option.some.injEq] at hopen
    rw [← hopen]
    exact cons_ne_nil _ _
  · rintro rfl
    exact hne (length_eq_zero_iff.mp (forall₂_of_mapM hopen).length_eq)

/-- Over a dataset whose scans are lists the recursion over iterators is the one over
lists. -/
theorem lftjStep_ofLists (h : AscendingScans ds graph) :
    ∀ {unbound : List Nat} {bindings : Bindings}, ∃ bound, ∀ fuel ≥ bound,
      (JoinSource.ofLists ds graph).lftjStep specs (orderOf ds specs graph) fuel n unbound bindings =
        some (Lftj.lftjStep ds specs graph n unbound bindings) := by
  induction n with
  | zero => exact ⟨0, fun _ _ => rfl⟩
  | succ n ih =>
    intro unbound bindings
    have hpick : (orderOf ds specs graph).pick bindings unbound = Lftj.order ds specs graph bindings unbound := rfl
    simp only [JoinSource.lftjStep, Lftj.lftjStep, hpick]
    rcases Lftj.order ds specs graph bindings unbound with _ | ⟨v, rest⟩
    · exact ⟨0, fun _ _ => rfl⟩
    by_cases hempty : (specs.filter (isActiveForVar v)).isEmpty = true
    · simp only [if_pos hempty]
      exact ih
    simp only [if_neg hempty, openScans_ofLists, Option.bind_eq_bind, Option.bind_some]
    rcases hopen : Lftj.openScans ds graph ((specs.filter (isActiveForVar v)).map (resolveForVar v bindings)) with
      _ | scans
    · exact ⟨0, fun _ _ => rfl⟩
    have hasc := ascending_openScans h hopen
    have hne : scans ≠ [] := by
      apply openScans_ne_nil _ hopen
      rw [ne_eq, map_eq_nil_iff, ← List.isEmpty_iff]
      exact hempty
    have hfronts : Fronts (JoinSource.ofLists ds graph).cursor scans scans :=
      forall₂_same.mpr fun scan _ => listCursor_obeys scan
    have hrest : ∀ x ∈ inter scans, ∃ bound, ∀ fuel ≥ bound,
        (JoinSource.ofLists ds graph).lftjStep specs (orderOf ds specs graph) fuel n rest
            (Function.update bindings v (some x)) =
          some (Lftj.lftjStep ds specs graph n rest (Function.update bindings v (some x))) := fun _ _ => ih
    obtain ⟨bound, hbound⟩ := exists_bound hrest
    refine ⟨max bound (remaining scans + 1), ?_⟩
    intro fuel hfuel
    have hend : scans.any (JoinSource.ofLists ds graph).cursor.atEnd = scans.any List.isEmpty := rfl
    have hrem : remaining scans < fuel := by omega
    simp only [hend]
    by_cases hany : scans.any List.isEmpty = true
    · rw [if_pos hany, if_pos hany]
      rfl
    · rw [if_neg hany, if_neg hany, leapfrog_eq _ hne hasc (Nat.lt_succ_self _)]
      exact joinLoop_eq hfronts hne hasc hrem hrem fun x hx => hbound fuel (by omega) x hx

/-- The lists of a dataset have the keys that they should. -/
structure TrueScans (ds : Dataset) (graph : GraphSelector) (triples : List Row) : Prop where
  ascending : AscendingScans ds graph
  each : ∀ probe : Probe, probe.Free →
    ∃ scan, ds.lftjJoinScan probe.s probe.p probe.o probe.target graph = some scan ∧
    ∀ x, x ∈ scan ↔ probe.Yields triples x
  apart : ∀ subjects predicate, ds.lftjMultiSubjectObjectIntersect subjects predicate graph = none

theorem TrueScans.lftjStep (h : TrueScans ds graph triples)
    (hvars : ∀ sp ∈ specs, ∀ i, isActiveForVar i sp = true → i < n) (hnorepeat : ∀ sp ∈ specs, NoRepeat sp)
    (hground : ∀ sp ∈ specs, isFullyGround sp = true → ∃ t ∈ triples, IsTriple (fun _ => none) sp t) :
    ListsMatches triples specs (Lftj.lftjStep ds specs graph n (List.range n) fun _ => none) := by
  have hstart : Reached triples specs (List.range n) fun _ => none :=
    .start hvars fun sp hsp hinactive => hground sp hsp (isFullyGround_of_inactive hinactive)
  have hright : RunRight (RightScans (JoinSource.ofLists ds graph) triples) triples specs (orderOf ds specs graph) n
      (List.range n) fun _ => none := by
    have halways : RunRight (fun _ => True) triples specs (orderOf ds specs graph) n (List.range n) fun _ => none :=
      RunRight.always fun _ => trivial
    apply halways.imp _ nodup_range fun _ _ => rfl
    intro resolved hne hfree _
    apply rightScans_of_each hne
    · cases collapseSubjects resolved with
      | none => rfl
      | some found => exact h.apart found.1 found.2
    · intro probe hprobe
      obtain ⟨scan, hscan, hmem⟩ := h.each probe (hfree probe hprobe)
      exact ⟨scan, scan, congrArg some hscan, listCursor_obeys scan, h.ascending.join _ _ _ _ _ hscan, hmem⟩
  obtain ⟨bound, hbound⟩ := JoinSource.lftjStep_spec hnorepeat length_range hstart hright
  have hlists : ∃ bound, ∀ fuel ≥ bound,
    (JoinSource.ofLists ds graph).lftjStep specs (orderOf ds specs graph) fuel n
      (List.range n) (fun _ => none) = some (Lftj.lftjStep ds specs graph n (List.range n) fun _ => none) :=
    lftjStep_ofLists h.ascending
  obtain ⟨bound', hbound'⟩ := hlists
  obtain ⟨out, hout, hemits⟩ := hbound (max bound bound') (by omega)
  rw [hbound' _ (by omega), Option.some.injEq] at hout
  rw [hout]
  exact hemits.listsMatches hvars

end Lists

end Nova.Lftj
