import Nova.Reasoning.Rule
import Mathlib.Data.Finset.Prod
import Mathlib.Data.Finset.Union

/-!
# The fixpoint of a rule set

`runFixpoint` is the semi-naive driver: every round joins, for each active rule and
each position of its body, the facts of the last round at that position with all
facts known so far at the others. The stable relation `store` is scanned and never
copied.

`runFixpoint_ok` and `runFixpoint_ok_inv`: from a seed that has all candidates of
one atom of each rule, the run returns exactly if it meets no trap, and then with
the seed and what the rules derive. `closure_least_iff` is the case of a base
without a store, `closureOverStore_iff` that of a seed that lies in the store.
-/

namespace Nova.Reasoning

open Nova.Lib Nova.Lib.SemiNaive List

/-! ## The driver -/

/-- `project_head`; the binding has a value for every variable of the rule. -/
def projectHead (head : RuleAtom) (binding : List Nat) : Row :=
  let resolve : AtomField → Nat
    | .const id => id
    | .var v => binding.getD v 0
  ⟨resolve head.s, resolve head.p, resolve head.o⟩

/-- The atoms of a body with the facts of the last round at one position. -/
def Rule.atomsAt (r : Rule) (combinedTotal deltaSrc : AtomSource) (deltaPos : Nat) : List Atom :=
  r.body.mapIdx fun i a => ⟨a, if i = deltaPos then deltaSrc else combinedTotal⟩

/-- `eval_rule_round`. -/
def evalRuleRound (fuel : Nat) (r : Rule) (combinedTotal deltaSrc : AtomSource) :
    Except Stop (List Row) := do
  let out ← (List.range r.body.length).mapM fun deltaPos =>
    leapfrogJoin (r.atomsAt combinedTotal deltaSrc deltaPos) r.numVars fuel
  return out.flatten.map (projectHead r.head)

/-- One round of `run_fixpoint`: the facts that are new. -/
def fixpointRound (fuel : Nat) (rules : RuleSet) (store : AtomSource) (total delta : List Row)
    (active : List Nat) : Except Stop (List Row) := do
  let combinedTotal := combinedSource store (sliceSource total)
  let derived ← (active.filterMap fun idx => rules.rules[idx]?).mapM fun r =>
    evalRuleRound fuel r combinedTotal (sliceSource delta)
  return Sorted.ofList (derived.flatten.filter fun row => row ∉ total)

/-- The loop of `run_fixpoint`; the sets are ascending lists. -/
def fixpointLoop (fuel : Nat) (rules : RuleSet) (store : AtomSource) :
    Nat → List Row → List Row → Except Stop (List Row)
  | 0, _, _ => .error .outOfFuel
  | rounds + 1, total, delta =>
    if delta.isEmpty then .ok total
    else
      let active := rules.activeRules delta
      if active.isEmpty then .ok total
      else do
        let newFacts ← fixpointRound fuel rules store total delta active
        fixpointLoop fuel rules store rounds (Sorted.union newFacts total) newFacts

/-- `run_fixpoint`. -/
def runFixpoint (fuel : Nat) (rules : RuleSet) (baseTriples : List Row) (store : AtomSource) :
    Except Stop (List Row) :=
  fixpointLoop fuel rules store fuel (Sorted.ofList baseTriples) (Sorted.ofList baseTriples)

/-- `closure`. -/
def closure (fuel : Nat) (rules : RuleSet) (baseTriples : List Row) : Except Stop (List Row) :=
  runFixpoint fuel rules baseTriples nullSource

/-- `closure_over_store`. -/
def closureOverStore (fuel : Nat) (rules : RuleSet) (store : AtomSource) (seedTriples : List Row) :
    Except Stop (List Row) :=
  runFixpoint fuel rules seedTriples store

/-! ## One round of a rule -/

variable {deltaPos : Nat} {r : Rule}

/-- The rows of a body that are at hand, with one of the last round at a given
position. -/
theorem mem_atomsAt {total delta : AtomSource} {a : Atom} :
    a ∈ r.atomsAt total delta deltaPos ↔ ∃ i, r.body[i]? = some a.fields ∧
      a.source = if i = deltaPos then delta else total := by
  rw [Rule.atomsAt, mem_mapIdx]
  constructor
  · rintro ⟨i, hi, rfl⟩
    exact ⟨i, getElem?_eq_getElem hi, rfl⟩
  · rintro ⟨i, hi, hs⟩
    rcases List.getElem?_eq_some_iff.mp hi with ⟨hlt, heq⟩
    refine ⟨i, hlt, ?_⟩
    rcases a with ⟨fields, source⟩
    simp only at heq hs
    rw [heq, hs]

/-- The atom mentions a variable below `v`. -/
def RuleAtom.Touched (a : RuleAtom) (v : Nat) : Prop := ∃ u < v, a.Mentions u

/-- A partial match that the join does not get on from: its last variable takes the
value `u64::MAX`, or all atoms are matched and a variable is left over. -/
def Rule.Trap (r : Rule) (b : Nat → Nat) (v : Nat) : Prop :=
  (∃ w, v = w + 1 ∧ w < r.numVars ∧ r.Uses w ∧ u64Max ≤ b w) ∨
    (v = r.numVars ∧ r.body ≠ [] ∧ ∃ w < r.numVars, ¬r.Uses w)

/-- The join with the facts of the last round at the given position meets a trap. -/
def Rule.BlockedAt (r : Rule) (known fresh : Row → Prop) (deltaPos : Nat) : Prop :=
  ∃ b v, r.Trap b v ∧ ∀ i a, r.body[i]? = some a → a.Touched v →
    ∃ row, (if i = deltaPos then fresh row else known row) ∧ a.Fits b v row

variable {b : Nat → Nat}

variable {a : RuleAtom}

section Round

variable {r : Rule} {known fresh : Row → Prop} {total delta : AtomSource}
  (htotal : Scans total known) (hdelta : Scans delta fresh)

include htotal hdelta in
theorem scans_atomsAt : ∀ a ∈ r.atomsAt total delta deltaPos, Scans a.source a.source.rows := by
  intro a ha
  rcases mem_atomsAt.mp ha with ⟨i, _, hs⟩
  rw [hs]
  split
  · exact hdelta.scans_rows
  · exact htotal.scans_rows

theorem linear_atomsAt (hsafe : r.Safe) : ∀ a ∈ r.atomsAt total delta deltaPos, a.fields.Linear := by
  intro a ha
  rcases mem_atomsAt.mp ha with ⟨i, hi, _⟩
  exact hsafe.linear _ (mem_of_getElem? hi)

theorem used_atomsAt {u : Nat} : Used (r.atomsAt total delta deltaPos) u ↔ r.Uses u := by
  constructor
  · rintro ⟨a, ha, hu⟩
    rcases mem_atomsAt.mp ha with ⟨i, hi, _⟩
    exact ⟨a.fields, mem_of_getElem? hi, hu⟩
  · rintro ⟨a, ha, hu⟩
    rcases mem_iff_getElem?.mp ha with ⟨i, hi⟩
    exact ⟨⟨a, if i = deltaPos then delta else total⟩, mem_atomsAt.mpr ⟨i, hi, rfl⟩, hu⟩

include htotal hdelta in
/-- A partial match of the body: a row of the last round for the atom at the given
position, known rows for the others. -/
theorem matchesUpTo_atomsAt {v : Nat} :
    MatchesUpTo (r.atomsAt total delta deltaPos) b v ↔ ∀ i a, r.body[i]? = some a → a.Touched v →
      ∃ row, (if i = deltaPos then fresh row else known row) ∧ a.Fits b v row := by
  have hrows : ∀ i row, (if i = deltaPos then delta else total).rows row ↔
      if i = deltaPos then fresh row else known row := by
    intro i row
    split
    · exact hdelta.rows_iff row
    · exact htotal.rows_iff row
  constructor
  · intro h i a hi ht
    have hmem : (⟨a, if i = deltaPos then delta else total⟩ : Atom) ∈ r.atomsAt total delta deltaPos :=
      mem_atomsAt.mpr ⟨i, hi, rfl⟩
    rcases h _ hmem ht with ⟨row, hrow, hfit⟩
    exact ⟨row, (hrows i row).mp hrow, hfit⟩
  · intro h a ha ht
    rcases mem_atomsAt.mp ha with ⟨i, hi, hs⟩
    rcases h i a.fields hi ht with ⟨row, hrow, hfit⟩
    refine ⟨row, ?_, hfit⟩
    rw [hs]
    exact (hrows i row).mpr hrow

include htotal hdelta in
theorem blocked_atomsAt (hpos : deltaPos < r.body.length) (b : Nat → Nat) :
    Blocked (r.atomsAt total delta deltaPos) r.numVars b 0 ↔ r.BlockedAt known fresh deltaPos := by
  simp only [Blocked, used_atomsAt, matchesUpTo_atomsAt htotal hdelta]
  constructor
  · rintro ⟨b', _, ⟨w, _, hw, hu, hm, hmax⟩ | ⟨hgap, hm⟩⟩
    · exact ⟨b', w + 1, .inl ⟨w, rfl, hw, hu, hmax⟩, hm⟩
    · exact ⟨b', r.numVars, .inr ⟨rfl, ne_nil_of_length_pos (by omega), hgap⟩, hm⟩
  · rintro ⟨b', v, ⟨w, rfl, hw, hu, hmax⟩ | ⟨rfl, _, hgap⟩, hm⟩
    · exact ⟨b', fun u hu => absurd hu (Nat.not_lt_zero u),
        .inl ⟨w, Nat.zero_le w, hw, hu, hm, hmax⟩⟩
    · exact ⟨b', fun u hu => absurd hu (Nat.not_lt_zero u), .inr ⟨hgap, hm⟩⟩

theorem projectHead_eq (b : Nat → Nat) :
    projectHead r.head ((List.range r.numVars).map b) = r.head.ground b := by
  apply Row.ext_get
  intro i
  have hfield : ∀ f : AtomField, (∀ u, f = .var u → u < r.numVars) →
      (match f with
        | .const id => id
        | .var v => ((List.range r.numVars).map b).getD v 0) = f.value b := by
    intro f hf
    cases f with
    | const id => rfl
    | var v =>
      have hv := hf v rfl
      simp [List.getD, hv, AtomField.value]
  have hlt : ∀ i u, r.head.get i = .var u → u < r.numVars :=
    fun i u hu => r.lt_numVars mem_cons_self ⟨i, hu⟩
  fin_cases i
  · exact hfield _ (hlt 0)
  · exact hfield _ (hlt 1)
  · exact hfield _ (hlt 2)

include htotal hdelta in
/-- A complete match: the instance of the atom at the given position is of the last
round, the others are known. -/
theorem matches_atomsAt (hsafe : r.Safe) (hsub : ∀ row, fresh row → known row)
    (ha : r.body[deltaPos]? = some a) : MatchesUpTo (r.atomsAt total delta deltaPos) b r.numVars ↔
      (∀ a' ∈ r.body, known (a'.ground b)) ∧ fresh (a.ground b) := by
  have htouched : ∀ a' ∈ r.body, a'.Touched r.numVars := by
    intro a' ha'
    rcases hsafe.mentions a' ha' with ⟨u, hu⟩
    exact ⟨u, r.lt_numVars (mem_cons_of_mem _ ha') hu, hu⟩
  have hfits : ∀ a' ∈ r.body, ∀ row, a'.Fits b r.numVars row ↔ row = a'.ground b :=
    fun a' ha' row => r.fits_iff (mem_cons_of_mem _ ha')
  rw [matchesUpTo_atomsAt htotal hdelta]
  constructor
  · intro h
    have hrow : ∀ i a', r.body[i]? = some a' →
        if i = deltaPos then fresh (a'.ground b) else known (a'.ground b) := by
      intro i a' hi
      have hmem := mem_of_getElem? hi
      rcases h i a' hi (htouched a' hmem) with ⟨row, hrow, hfit⟩
      rw [(hfits a' hmem row).mp hfit] at hrow
      exact hrow
    constructor
    · intro a' ha'
      rcases mem_iff_getElem?.mp ha' with ⟨i, hi⟩
      have hknown := hrow i a' hi
      split at hknown
      · exact hsub _ hknown
      · exact hknown
    · have hfresh := hrow deltaPos a ha
      rwa [if_pos rfl] at hfresh
  · rintro ⟨hknown, hfresh⟩ i a' hi _
    have hmem := mem_of_getElem? hi
    refine ⟨a'.ground b, ?_, (hfits a' hmem _).mpr rfl⟩
    split
    · next heq =>
      subst heq
      rw [ha] at hi
      cases hi
      exact hfresh
    · exact hknown a' hmem

include htotal hdelta in
/-- The round of a rule that is not blocked gives the instances that have a premise
of the last round. -/
theorem evalRuleRound_ok (hsafe : r.Safe) (hsub : ∀ row, fresh row → known row)
    (hfree : ∀ deltaPos < r.body.length, ¬r.BlockedAt known fresh deltaPos) :
    ∃ out, Returns (fun fuel => evalRuleRound fuel r total delta) out ∧
      ∀ row, row ∈ out ↔ ∃ b, row = r.head.ground b ∧ (∀ a ∈ r.body, known (a.ground b)) ∧
        ∃ a ∈ r.body, fresh (a.ground b) := by
  have hjoin : ∀ pos, ∃ out, pos ∈ List.range r.body.length →
      Returns (fun fuel => leapfrogJoin (r.atomsAt total delta pos) r.numVars fuel) out ∧
        ∀ l, l ∈ out ↔ ∃ b, MatchesUpTo (r.atomsAt total delta pos) b r.numVars ∧
          l = (List.range r.numVars).map b := by
    intro pos
    by_cases hpos : pos < r.body.length
    · rcases leapfrogJoin_ok (scans_atomsAt htotal hdelta) (linear_atomsAt hsafe)
        (fun b hb => hfree pos hpos ((blocked_atomsAt htotal hdelta hpos b).mp hb)) with
        ⟨out, hout⟩
      exact ⟨out, fun _ => hout⟩
    · exact ⟨[], fun h => absurd (mem_range.mp h) hpos⟩
  choose found hfound using hjoin
  refine ⟨(((List.range r.body.length).map found).flatten).map (projectHead r.head), ?_, ?_⟩
  · exact (Returns.mapM fun pos hpos => (hfound pos hpos).1).bind (Returns.of_ok _)
  · intro row
    simp only [mem_map, mem_flatten]
    constructor
    · rintro ⟨l, ⟨_, ⟨pos, hpos, rfl⟩, hl⟩, rfl⟩
      rcases ((hfound pos hpos).2 l).mp hl with ⟨b, hm, rfl⟩
      have hat := getElem?_eq_getElem (mem_range.mp hpos)
      rcases (matches_atomsAt htotal hdelta hsafe hsub hat).mp hm with ⟨hknown, hfresh⟩
      exact ⟨b, projectHead_eq b, hknown, _, mem_of_getElem? hat, hfresh⟩
    · rintro ⟨b, rfl, hknown, a, ha, hfresh⟩
      rcases mem_iff_getElem?.mp ha with ⟨pos, hat⟩
      rcases List.getElem?_eq_some_iff.mp hat with ⟨hlt, _⟩
      have hpos := mem_range.mpr hlt
      refine ⟨(List.range r.numVars).map b, ⟨found pos, ⟨pos, hpos, rfl⟩, ?_⟩, projectHead_eq b⟩
      exact ((hfound pos hpos).2 _).mpr
        ⟨b, (matches_atomsAt htotal hdelta hsafe hsub hat).mpr ⟨hknown, hfresh⟩, rfl⟩

include htotal hdelta in
theorem evalRuleRound_ok_inv (hsafe : r.Safe) {fuel : Nat} {out : List Row}
    (h : evalRuleRound fuel r total delta = .ok out)
    (hpos : deltaPos < r.body.length) : ¬r.BlockedAt known fresh deltaPos := by
  rw [evalRuleRound] at h
  cases hall : (List.range r.body.length).mapM fun deltaPos =>
      leapfrogJoin (r.atomsAt total delta deltaPos) r.numVars fuel with
  | error e =>
    rw [hall] at h
    cases h
  | ok outs =>
    rcases (mapM_ok_inv hall).1 deltaPos (mem_range.mpr hpos) with ⟨found, _, hfound⟩
    intro hblocked
    exact leapfrogJoin_ok_inv (scans_atomsAt htotal hdelta) (linear_atomsAt hsafe) hfound (fun _ => 0)
      ((blocked_atomsAt htotal hdelta hpos _).mpr hblocked)

end Round

/-! ## One round of the driver -/

/-- The instances that the driver can find: those that have a premise. -/
def Fired (rules : List Rule) (body : List Row) (a : Row) : Prop :=
  Instance rules body a ∧ body ≠ []

variable {rules : List Rule}

theorem mem_active {delta : List Row} (hne : delta ≠ []) :
    r ∈ ((RuleSet.new rules).activeRules delta).filterMap (fun idx => (RuleSet.new rules).rules[idx]?) ↔
      r ∈ rules ∧ ∃ row ∈ delta, r.Activates row := by
  rw [mem_filterMap]
  constructor
  · rintro ⟨idx, hidx, hr⟩
    rcases (mem_activeRules_of_nonempty hne).mp hidx with ⟨r', hr', hact⟩
    have heq : r' = r := by
      rw [show (RuleSet.new rules).rules[idx]? = some r' from hr'] at hr
      exact Option.some.inj hr
    subst heq
    exact ⟨mem_of_getElem? hr', hact⟩
  · rintro ⟨hr, hact⟩
    rcases mem_iff_getElem?.mp hr with ⟨idx, hidx⟩
    exact ⟨idx, (mem_activeRules_of_nonempty hne).mpr ⟨r, hidx, hact⟩, hidx⟩

variable {seed : List Row}

section Driver

variable {rules : List Rule} {E : Finset Row} {store : AtomSource} {total delta : List Row}

/-- No rule that is active in the round is blocked in it. -/
def Unblocked (rules : List Rule) (E : Finset Row) (total delta : List Row) : Prop :=
  ∀ r ∈ rules, (∃ row ∈ delta, r.Activates row) → ∀ deltaPos < r.body.length,
    ¬r.BlockedAt (fun row => row ∈ E ∨ row ∈ total) (· ∈ delta) deltaPos

/-- A round returns the facts that the rules derive with a fact of the delta and that are new. -/
theorem fixpointRound_ok (hstore : Scans store (· ∈ E)) (hsafe : ∀ r ∈ rules, r.Safe)
    (hsub : ∀ row ∈ delta, row ∈ total) (hne : delta ≠ []) (hfree : Unblocked rules E total delta) :
    ∃ newFacts, Returns (fun fuel => fixpointRound fuel (RuleSet.new rules) store total delta
        ((RuleSet.new rules).activeRules delta)) newFacts ∧
      newFacts.Pairwise (· < ·) ∧
      Round (Fired rules) E total.toFinset delta.toFinset (Sorted.union newFacts total).toFinset
        newFacts.toFinset := by
  have htotal := scans_combinedSource hstore (scans_sliceSource total)
  have hdelta := scans_sliceSource delta
  have hround : ∀ r, ∃ out, r ∈ ((RuleSet.new rules).activeRules delta).filterMap
        (fun idx => (RuleSet.new rules).rules[idx]?) →
      Returns (fun fuel => evalRuleRound fuel r (combinedSource store (sliceSource total))
        (sliceSource delta)) out ∧
      ∀ row, row ∈ out ↔ ∃ b, row = r.head.ground b ∧
        (∀ a ∈ r.body, a.ground b ∈ E ∨ a.ground b ∈ total) ∧ ∃ a ∈ r.body, a.ground b ∈ delta := by
    intro r
    by_cases hr : r ∈ rules ∧ ∃ row ∈ delta, r.Activates row
    · rcases evalRuleRound_ok htotal hdelta (hsafe r hr.1) (fun row h => .inr (hsub row h))
        (hfree r hr.1 hr.2) with ⟨out, hout⟩
      exact ⟨out, fun _ => hout⟩
    · exact ⟨[], fun h => absurd ((mem_active hne).mp h) hr⟩
  choose found hfound using hround
  refine ⟨_, (Returns.mapM fun r hr => (hfound r hr).1).bind (Returns.of_ok _),
    Sorted.pairwise_ofList _, ?_, ?_⟩
  · intro a
    simp only [mem_toFinset, Sorted.mem_ofList, mem_filter, mem_flatten, mem_map,
      decide_eq_true_eq]
    constructor
    · rintro ⟨⟨_, ⟨r, hr, rfl⟩, ha⟩, hnew⟩
      rcases ((hfound r hr).2 a).mp ha with ⟨b, rfl, hknown, a₀, ha₀, hfresh⟩
      refine ⟨hnew, r.body.map (RuleAtom.ground b), ⟨⟨r, ((mem_active hne).mp hr).1, b, rfl, rfl⟩, ?_⟩, ?_, ?_⟩
      · exact ne_nil_of_mem (mem_map_of_mem ha₀)
      · intro row hrow
        rcases mem_map.mp hrow with ⟨a', ha', rfl⟩
        exact (hknown a' ha').imp_right mem_toFinset.mpr
      · exact ⟨a₀.ground b, mem_map_of_mem ha₀, mem_toFinset.mpr hfresh⟩
    · rintro ⟨hnew, body, ⟨⟨r, hr, b, rfl, rfl⟩, _⟩, hhand, row, hrow, hfresh⟩
      rcases mem_map.mp hrow with ⟨a₀, ha₀, rfl⟩
      rw [mem_toFinset] at hfresh
      -- the premise of the last round makes the rule active
      have hact : r.Activates (a₀.ground b) :=
        r.activates_of_fits ha₀ ((r.fits_iff (mem_cons_of_mem _ ha₀)).mpr rfl)
      have hmem := (mem_active hne).mpr ⟨hr, _, hfresh, hact⟩
      refine ⟨⟨found r, ⟨r, hmem, rfl⟩, ((hfound r hmem).2 _).mpr ⟨b, rfl, ?_, a₀, ha₀, hfresh⟩⟩, hnew⟩
      intro a' ha'
      exact (hhand _ (mem_map_of_mem ha')).imp_right mem_toFinset.mp
  · ext row
    simp only [mem_toFinset, Sorted.mem_union, Finset.mem_union]
    exact or_comm

theorem fixpointRound_ok_inv (hstore : Scans store (· ∈ E)) (hsafe : ∀ r ∈ rules, r.Safe)
    (hne : delta ≠ []) {fuel : Nat} {newFacts : List Row}
    (h : fixpointRound fuel (RuleSet.new rules) store total delta
      ((RuleSet.new rules).activeRules delta) = .ok newFacts) : Unblocked rules E total delta := by
  intro r hr hact deltaPos hpos
  rw [fixpointRound] at h
  cases hall : (((RuleSet.new rules).activeRules delta).filterMap
      fun idx => (RuleSet.new rules).rules[idx]?).mapM fun r =>
        evalRuleRound fuel r (combinedSource store (sliceSource total)) (sliceSource delta) with
  | error e =>
    rw [hall] at h
    cases h
  | ok outs =>
    rcases (mapM_ok_inv hall).1 r ((mem_active hne).mpr ⟨hr, hact⟩) with ⟨out, _, hout⟩
    exact evalRuleRound_ok_inv (scans_combinedSource hstore (scans_sliceSource total))
      (scans_sliceSource delta) (hsafe r hr) hout hpos

/-! ## All rounds -/

/-- The facts that a run starts from. -/
def facts (E : Finset Row) (seed : List Row) : Set Row := {row | row ∈ E ∨ row ∈ seed}

theorem facts_eq (E : Finset Row) (seed : List Row) :
    (E : Set Row) ∪ (seed.toFinset : Set Row) = facts E seed := by
  ext row
  simp [facts]

/-- The predicate of the row is that of the atom, if this has a constant there. -/
def RuleAtom.AllowsPredicate (a : RuleAtom) (row : Row) : Prop := ∀ p, a.p = .const p → row.p = p

variable {row : Row}

theorem RuleAtom.Fits.allowsPredicate {v : Nat}
    (h : a.Fits b v row) : a.AllowsPredicate row := fun p hp => (h 1).1 p hp

/-- Some atom of the body has all its candidates among the facts of the seed. -/
def Rule.Seeded (r : Rule) (E : Finset Row) (seed : List Row) : Prop :=
  ∃ a ∈ r.body, ∀ row ∈ facts E seed, a.AllowsPredicate row → row ∈ seed

/-- The body is matched by rows of the set, as far as the variables below `v` go. -/
def Rule.MatchedUpTo (r : Rule) (M : Set Row) (b : Nat → Nat) (v : Nat) : Prop :=
  ∀ a ∈ r.body, a.Touched v → ∃ row ∈ M, a.Fits b v row

/-- Some match in the set is a trap. -/
def Rule.Trapped (r : Rule) (M : Set Row) : Prop := ∃ b v, r.Trap b v ∧ r.MatchedUpTo M b v

/-- No rule that the run activates has a trap among the derivable facts. -/
def Untrapped (rules : List Rule) (E : Finset Row) (seed : List Row) : Prop :=
  ∀ r ∈ rules, (∃ row, (row ∈ seed ∨ Derived (Fired rules) (facts E seed) row) ∧ r.Activates row) →
    ¬r.Trapped {row | Derivable (Fired rules) (facts E seed) row}

theorem Rule.Trap.body_ne_nil {v : Nat} (h : r.Trap b v) : r.body ≠ [] := by
  rcases h with ⟨w, _, _, ⟨a, ha, _⟩, _⟩ | ⟨_, hne, _⟩
  · exact ne_nil_of_mem ha
  · exact hne

/-- The traps that are at hand have not been met yet: they have a row of the last
round, or an atom that the match does not touch and no active round so far. -/
def Pending (rules : List Rule) (E : Finset Row) (total delta : List Row) : Prop :=
  ∀ r ∈ rules, ∀ b v, ∀ f : RuleAtom → Row, r.Trap b v →
    (∀ a ∈ r.body, a.Touched v → (f a ∈ E ∨ f a ∈ total) ∧ a.Fits b v (f a)) →
    (∃ a ∈ r.body, a.Touched v ∧ f a ∈ delta) ∨
      ((∃ a ∈ r.body, ¬a.Touched v) ∧ ∀ row ∈ total, r.Activates row → row ∈ delta)

theorem pending_init (hseed : ∀ r ∈ rules, r.body ≠ [] → r.Seeded E seed) :
    Pending rules E (Sorted.ofList seed) (Sorted.ofList seed) := by
  intro r hr b v f htrap hmatch
  rcases hseed r hr htrap.body_ne_nil with ⟨a, ha, hall⟩
  by_cases ht : a.Touched v
  · left
    rcases hmatch a ha ht with ⟨hrow, hfit⟩
    rw [Sorted.mem_ofList] at hrow
    exact ⟨a, ha, ht, Sorted.mem_ofList.mpr (hall _ hrow hfit.allowsPredicate)⟩
  · exact .inr ⟨⟨a, ha, ht⟩, fun _ hrow _ => hrow⟩

/-- A trap at hand, with a row of the last round or an untouched atom at some
position, blocks the join with that position. -/
theorem not_unblocked (hr : r ∈ rules) {v : Nat} {f : RuleAtom → Row} (htrap : r.Trap b v)
    (hmatch : ∀ a ∈ r.body, a.Touched v → (f a ∈ E ∨ f a ∈ total) ∧ a.Fits b v (f a))
    (hact : ∃ row ∈ delta, r.Activates row) (ha : a ∈ r.body)
    (hpos : a.Touched v → f a ∈ delta) : ¬Unblocked rules E total delta := by
  intro hfree
  rcases mem_iff_getElem?.mp ha with ⟨pos, hat⟩
  rcases List.getElem?_eq_some_iff.mp hat with ⟨hlt, _⟩
  refine hfree r hr hact pos hlt ⟨b, v, htrap, ?_⟩
  intro i a' hi ht
  rcases hmatch a' (mem_of_getElem? hi) ht with ⟨hrow, hfit⟩
  refine ⟨f a', ?_, hfit⟩
  split
  · next heq =>
    subst heq
    rw [hat] at hi
    cases hi
    exact hpos ht
  · exact hrow

theorem Pending.round (h : Pending rules E total delta) (hfree : Unblocked rules E total delta)
    {newFacts : List Row} : Pending rules E (Sorted.union newFacts total) newFacts := by
  intro r hr b v f htrap hmatch
  by_cases hold : ∀ a ∈ r.body, a.Touched v → f a ∈ E ∨ f a ∈ total
  · have hmatch' : ∀ a ∈ r.body, a.Touched v → (f a ∈ E ∨ f a ∈ total) ∧ a.Fits b v (f a) :=
      fun a ha ht => ⟨hold a ha ht, (hmatch a ha ht).2⟩
    rcases h r hr b v f htrap hmatch' with ⟨a, ha, ht, hfresh⟩ | ⟨⟨a, ha, ht⟩, hquiet⟩
    · -- the round would have met the trap
      have hact := r.activates_of_fits ha (hmatch a ha ht).2
      exact absurd hfree (not_unblocked hr htrap hmatch' ⟨_, hfresh, hact⟩ ha fun _ => hfresh)
    · refine .inr ⟨⟨a, ha, ht⟩, ?_⟩
      intro row hrow hact
      rcases Sorted.mem_union.mp hrow with hnew | hrow
      · exact hnew
      · have hact' : ∃ row ∈ delta, r.Activates row := ⟨row, hquiet row hrow hact, hact⟩
        exact absurd hfree (not_unblocked hr htrap hmatch' hact' ha fun h => absurd h ht)
  · left
    simp only [not_forall] at hold
    rcases hold with ⟨a, ha, ht, hnot⟩
    rcases (hmatch a ha ht).1 with hE | hrow
    · exact absurd (.inl hE) hnot
    · rcases Sorted.mem_union.mp hrow with hnew | hrow
      · exact ⟨a, ha, ht, hnew⟩
      · exact absurd (.inr hrow) hnot

/-- The facts of the last round activate no rule. -/
def Idle (rules : List Rule) (delta : List Row) : Prop := ∀ r ∈ rules, ∀ row ∈ delta, ¬r.Activates row

theorem activeRules_eq_nil {delta : List Row} (hne : delta ≠ []) :
    (RuleSet.new rules).activeRules delta = [] ↔ Idle rules delta := by
  rw [eq_nil_iff_forall_not_mem]
  constructor
  · intro h r hr row hrow hact
    rcases mem_iff_getElem?.mp hr with ⟨idx, hidx⟩
    exact h idx ((mem_activeRules_of_nonempty hne).mpr ⟨r, hidx, row, hrow, hact⟩)
  · intro h idx hidx
    rcases (mem_activeRules_of_nonempty hne).mp hidx with ⟨r, hr, row, hrow, hact⟩
    exact h r (mem_of_getElem? hr) row hrow hact

theorem fixpointLoop_idle (h : Idle rules delta) (fuel n : Nat) :
    fixpointLoop fuel (RuleSet.new rules) store (n + 1) total delta = .ok total := by
  rw [fixpointLoop]
  by_cases hne : delta = []
  · rw [if_pos (by rw [hne]; rfl)]
  · rw [if_neg (by simpa using hne)]
    simp only [(activeRules_eq_nil hne).mpr h, isEmpty_nil, if_true]

theorem ne_nil_of_not_idle (h : ¬Idle rules delta) : delta ≠ [] := by
  rintro rfl
  exact h nofun

theorem fixpointLoop_round (h : ¬Idle rules delta) (fuel n : Nat) :
    fixpointLoop fuel (RuleSet.new rules) store (n + 1) total delta =
      (fixpointRound fuel (RuleSet.new rules) store total delta
        ((RuleSet.new rules).activeRules delta) >>= fun newFacts =>
          fixpointLoop fuel (RuleSet.new rules) store n (Sorted.union newFacts total) newFacts) := by
  have hne := ne_nil_of_not_idle h
  rw [fixpointLoop, if_neg (by simpa using hne)]
  have hactive : (RuleSet.new rules).activeRules delta ≠ [] := fun hnil =>
    h ((activeRules_eq_nil hne).mp hnil)
  simp only [List.isEmpty_iff, hactive, if_false]

/-- The states of a run. -/
structure Reached (rules : List Rule) (E : Finset Row) (seed : List Row) (U : Finset Row)
    (total delta : List Row) : Prop where
  inv : Inv (Fired rules) E seed.toFinset total.toFinset delta.toFinset
  pending : Pending rules E total delta
  sorted : total.Pairwise (· < ·)
  bounded : total.toFinset ⊆ U

section Runs

variable {seed : List Row} {U : Finset Row}

section

variable (h : Reached rules E seed U total delta)
include h

theorem Reached.delta_subset : ∀ row ∈ delta, row ∈ total :=
  fun _ hrow => mem_toFinset.mp (h.inv.fresh (mem_toFinset.mpr hrow))

theorem Reached.known
    (hrow : row ∈ E ∨ row ∈ total) : Derivable (Fired rules) (facts E seed) row := by
  rw [← facts_eq]
  exact h.inv.derivable (hrow.imp_right mem_toFinset.mpr)

theorem Reached.unblocked
    (hfree : Untrapped rules E seed) : Unblocked rules E total delta := by
  rintro r hr ⟨row, hrow, hact⟩ deltaPos hpos ⟨b, v, htrap, hmatch⟩
  have hfound : row ∈ seed ∨ Derived (Fired rules) (facts E seed) row := by
    have hsound := h.inv.sound row (mem_toFinset.mpr (h.delta_subset row hrow))
    rwa [facts_eq, mem_toFinset] at hsound
  refine hfree r hr ⟨row, hfound, hact⟩ ⟨b, v, htrap, ?_⟩
  intro a ha ht
  rcases mem_iff_getElem?.mp ha with ⟨i, hi⟩
  rcases hmatch i a hi ht with ⟨row', hrow', hfit⟩
  refine ⟨row', h.known ?_, hfit⟩
  split at hrow'
  · exact .inr (h.delta_subset row' hrow')
  · exact hrow'

theorem Reached.idle (hidle : Idle rules delta) : Untrapped rules E seed ∧
      ∀ row, row ∈ total ↔ row ∈ seed ∨ Derived (Fired rules) (facts E seed) row := by
  have htotal : ∀ row, row ∈ total ↔ row ∈ seed ∨ Derived (Fired rules) (facts E seed) row := by
    intro row
    have hiff := h.inv.total_iff ?_ row
    · rwa [facts_eq, mem_toFinset, mem_toFinset] at hiff
    · rintro body a ⟨⟨r, hr, b, rfl, rfl⟩, _⟩ _ ⟨row, hrow, hfresh⟩
      rcases mem_map.mp hrow with ⟨a₀, ha₀, rfl⟩
      exact hidle r hr _ (mem_toFinset.mp hfresh)
        (r.activates_of_fits ha₀ ((r.fits_iff (mem_cons_of_mem _ ha₀)).mpr rfl))
  refine ⟨?_, htotal⟩
  rintro r hr ⟨row, hrow, hact⟩ ⟨b, v, htrap, hmatch⟩
  have hrows : ∀ a, ∃ row, a ∈ r.body → a.Touched v → (row ∈ E ∨ row ∈ total) ∧ a.Fits b v row := by
    intro a
    by_cases ha : a ∈ r.body ∧ a.Touched v
    · rcases hmatch a ha.1 ha.2 with ⟨row', hrow', hfit⟩
      refine ⟨row', fun _ _ => ⟨?_, hfit⟩⟩
      rcases derivable_iff.mp hrow' with (hE | hs) | hd
      · exact .inl hE
      · exact .inr ((htotal row').mpr (.inl hs))
      · exact .inr ((htotal row').mpr (.inr hd))
    · exact ⟨⟨0, 0, 0⟩, fun h₁ h₂ => absurd ⟨h₁, h₂⟩ ha⟩
  choose f hf using hrows
  rcases h.pending r hr b v f htrap hf with ⟨a, ha, ht, hfresh⟩ | ⟨_, hquiet⟩
  · exact hidle r hr _ hfresh (r.activates_of_fits ha (hf a ha ht).2)
  · exact hidle r hr row (hquiet row ((htotal row).mpr hrow) hact) hact

end

/-- The rounds of a run, down to the one that is idle or blocked. -/
theorem run_induction (hstore : Scans store (· ∈ E)) (hsafe : ∀ r ∈ rules, r.Safe)
    (hU : ∀ body a, Fired rules body a → AtHand E U body → a ∈ U)
    {motive : List Row → List Row → Prop}
    (idle : ∀ total delta, Reached rules E seed U total delta → Idle rules delta → motive total delta)
    (blocked : ∀ total delta, Reached rules E seed U total delta → ¬Idle rules delta →
      ¬Unblocked rules E total delta → motive total delta)
    (round : ∀ total delta newFacts, Reached rules E seed U total delta → ¬Idle rules delta →
      Returns (fun fuel => fixpointRound fuel (RuleSet.new rules) store total delta
        ((RuleSet.new rules).activeRules delta)) newFacts →
      motive (Sorted.union newFacts total) newFacts → motive total delta) :
    ∀ total delta, Reached rules E seed U total delta → motive total delta := by
  have main : ∀ n total delta, U.card - total.toFinset.card < n →
      Reached rules E seed U total delta → motive total delta := by
    intro n
    induction n with
    | zero => exact fun _ _ hn => absurd hn (Nat.not_lt_zero _)
    | succ n ih =>
      intro total delta hn h
      by_cases hidle : Idle rules delta
      · exact idle total delta h hidle
      · by_cases hfree : Unblocked rules E total delta
        · rcases fixpointRound_ok hstore hsafe h.delta_subset (ne_nil_of_not_idle hidle) hfree with
            ⟨newFacts, hret, hsorted, hround⟩
          have hnext : Reached rules E seed U (Sorted.union newFacts total) newFacts :=
            ⟨h.inv.round hround, h.pending.round hfree, Sorted.pairwise_union h.sorted,
              hround.subset_universe h.bounded hU⟩
          refine round total delta newFacts h hidle hret ?_
          by_cases hnew : newFacts = []
          · exact idle _ _ hnext (by rw [hnew]; exact nofun)
          · have hlt := hround.card_lt ((toFinset_nonempty_iff _).mpr hnew)
            have hle := Finset.card_le_card hnext.bounded
            exact ih _ _ (by omega) hnext
        · exact blocked total delta h hidle hfree
  exact fun total delta => main _ total delta (Nat.lt_succ_self _)

/-- The loop from a later round on, after `j` rounds have been made. -/
def loopFrom (rules : List Rule) (store : AtomSource) (j : Nat) (total delta : List Row) (fuel : Nat) :
    Except Stop (List Row) :=
  fixpointLoop fuel (RuleSet.new rules) store (fuel - j) total delta

theorem loopFrom_idle (hidle : Idle rules delta) (j : Nat) :
    Returns (loopFrom rules store j total delta) total := by
  refine ⟨j + 1, fun fuel hfuel => ?_⟩
  rw [loopFrom, show fuel - j = fuel - j - 1 + 1 by omega]
  exact fixpointLoop_idle hidle fuel _

theorem loopFrom_round (hidle : ¬Idle rules delta) (j fuel : Nat) (hfuel : fuel ≥ j + 1) :
    loopFrom rules store j total delta fuel =
      (fixpointRound fuel (RuleSet.new rules) store total delta
        ((RuleSet.new rules).activeRules delta) >>= fun newFacts =>
          loopFrom rules store (j + 1) (Sorted.union newFacts total) newFacts fuel) := by
  simp only [loopFrom]
  rw [show fuel - j = fuel - (j + 1) + 1 by omega]
  exact fixpointLoop_round hidle fuel _

section

variable (hstore : Scans store (· ∈ E)) (hsafe : ∀ r ∈ rules, r.Safe)
    (hU : ∀ body a, Fired rules body a → AtHand E U body → a ∈ U)
include hstore hsafe hU

theorem loopFrom_ok
    (hfree : Untrapped rules E seed) : ∀ total delta, Reached rules E seed U total delta →
      ∀ j, ∃ rows, Returns (loopFrom rules store j total delta) rows := by
  refine run_induction hstore hsafe hU ?_ ?_ ?_
  · exact fun total delta _ hidle j => ⟨total, loopFrom_idle hidle j⟩
  · exact fun total delta h _ hblocked => absurd (h.unblocked hfree) hblocked
  · intro total delta newFacts _ hidle hret ih j
    rcases ih (j + 1) with ⟨rows, hrows⟩
    have hnext : Returns (fun fuel => fixpointRound fuel (RuleSet.new rules) store total delta
        ((RuleSet.new rules).activeRules delta) >>= fun newFacts =>
          loopFrom rules store (j + 1) (Sorted.union newFacts total) newFacts fuel) rows :=
      hret.bind hrows
    refine ⟨rows, hnext.congr (j + 1) ?_⟩
    exact fun fuel hfuel => (loopFrom_round hidle j fuel hfuel).symm

/-- A run that returns has met no trap, and has found exactly the seed and what
follows from the facts by at least one rule. -/
theorem loopFrom_ok_inv : ∀ total delta, Reached rules E seed U total delta →
      ∀ j rows, Returns (loopFrom rules store j total delta) rows →
        Untrapped rules E seed ∧ rows.Pairwise (· < ·) ∧
          ∀ row, row ∈ rows ↔ row ∈ seed ∨ Derived (Fired rules) (facts E seed) row := by
  refine run_induction hstore hsafe hU ?_ ?_ ?_
  · intro total delta h hidle j rows hrows
    have hend : Returns (loopFrom rules store j total delta) total := loopFrom_idle hidle j
    rw [hrows.unique hend]
    rcases h.idle hidle with ⟨hfree, hmem⟩
    exact ⟨hfree, h.sorted, hmem⟩
  · intro total delta h hidle hblocked j rows hrows
    rcases hrows with ⟨k, hk⟩
    have hrun := hk (max k (j + 1)) (by omega)
    rw [loopFrom_round hidle j _ (by omega)] at hrun
    cases hround : fixpointRound (max k (j + 1)) (RuleSet.new rules) store total delta
        ((RuleSet.new rules).activeRules delta) with
    | error e =>
      rw [hround] at hrun
      cases hrun
    | ok newFacts =>
      exact absurd (fixpointRound_ok_inv hstore hsafe (ne_nil_of_not_idle hidle) hround) hblocked
  · intro total delta newFacts _ hidle hret ih j rows hrows
    exact ih (j + 1) rows ((hrows.congr (j + 1) (loopFrom_round hidle j)).of_bind hret)

end

end Runs

/-! ### The universe of a run -/

/-- The constants of an atom. -/
def RuleAtom.constants (a : RuleAtom) : List Nat :=
  [a.s, a.p, a.o].filterMap fun f =>
    match f with
    | .const id => some id
    | .var _ => none

theorem RuleAtom.mem_constants {i : Fin 3} {c : Nat} (h : a.get i = .const c) : c ∈ a.constants := by
  refine mem_filterMap.mpr ⟨a.get i, ?_, by rw [h]⟩
  fin_cases i <;> simp [RuleAtom.get]

/-- The ids that a run can meet. -/
def ids (rules : List Rule) (E : Finset Row) (seed : List Row) : Finset Nat :=
  (E ∪ seed.toFinset).biUnion (fun row => {row.s, row.p, row.o}) ∪
    (rules.flatMap fun r => r.head.constants).toFinset

/-- The rows over these ids. -/
def rowsOver (rules : List Rule) (E : Finset Row) (seed : List Row) : Finset Row :=
  (ids rules E seed ×ˢ ids rules E seed ×ˢ ids rules E seed).image fun t => ⟨t.1, t.2.1, t.2.2⟩

theorem mem_rowsOver : row ∈ rowsOver rules E seed ↔ ∀ i, row.get i ∈ ids rules E seed := by
  simp only [rowsOver, Finset.mem_image, Finset.mem_product, Prod.exists]
  constructor
  · rintro ⟨s, p, o, ⟨hs, hp, ho⟩, rfl⟩ i
    fin_cases i
    · exact hs
    · exact hp
    · exact ho
  · intro h
    exact ⟨row.s, row.p, row.o, ⟨h 0, h 1, h 2⟩, rfl⟩

theorem get_mem_ids (h : row ∈ facts E seed) (i : Fin 3) : row.get i ∈ ids rules E seed := by
  refine Finset.mem_union_left _ (Finset.mem_biUnion.mpr ⟨row, ?_, ?_⟩)
  · simpa [facts] using h
  · fin_cases i <;> simp [Row.get]

theorem rowsOver_closed (hsafe : ∀ r ∈ rules, r.Safe) {body : List Row} {a : Row}
    (h : Fired rules body a) (hbody : AtHand E (rowsOver rules E seed) body) : a ∈ rowsOver rules E seed := by
  rcases h with ⟨⟨r, hr, b, rfl, rfl⟩, _⟩
  rw [mem_rowsOver]
  intro i
  rw [RuleAtom.get_ground]
  cases hi : r.head.get i with
  | const c =>
    refine Finset.mem_union_right _ (mem_toFinset.mpr (mem_flatMap.mpr ⟨r, hr, ?_⟩))
    exact RuleAtom.mem_constants hi
  | var u =>
    -- a variable of the head has its value from a row of the body
    rcases (hsafe r hr).head u ⟨i, hi⟩ with ⟨a', ha', j, hj⟩
    have hval : (AtomField.var u).value b = (a'.ground b).get j := by
      rw [RuleAtom.get_ground, hj]
    rw [hval]
    rcases hbody _ (mem_map_of_mem ha') with hE | hU
    · exact get_mem_ids (.inl hE) j
    · exact mem_rowsOver.mp hU j

/-! ## The driver returns what the rules give -/

/-- Every rule instance that the facts at hand allow has a premise in the seed. -/
def Triggers (rules : List Rule) (E : Finset Row) (seed : List Row) : Prop :=
  ∀ body a, Fired rules body a → (∀ row ∈ body, row ∈ facts E seed) → ∃ row ∈ body, row ∈ seed

theorem triggers_of_seeded (hseed : ∀ r ∈ rules, r.body ≠ [] → r.Seeded E seed) : Triggers rules E seed := by
  rintro body a ⟨⟨r, hr, b, rfl, rfl⟩, hne⟩ hbody
  have hne' : r.body ≠ [] := fun h => hne (by rw [h]; rfl)
  rcases hseed r hr hne' with ⟨a', ha', hall⟩
  have hmem := mem_map_of_mem ha' (f := RuleAtom.ground b)
  have hfit := (r.fits_iff (mem_cons_of_mem _ ha') (b := b)).mpr rfl
  exact ⟨_, hmem, hall _ (hbody _ hmem) hfit.allowsPredicate⟩

theorem reached_init (htriggers : Triggers rules E seed)
    (hpending : Pending rules E (Sorted.ofList seed) (Sorted.ofList seed)) :
    Reached rules E seed (rowsOver rules E seed) (Sorted.ofList seed) (Sorted.ofList seed) := by
  have hset : (Sorted.ofList seed).toFinset = seed.toFinset := by
    ext row
    simp
  refine ⟨?_, hpending, Sorted.pairwise_ofList seed, ?_⟩
  · rw [hset]
    refine Inv.init ?_
    intro body a hfired hbody
    right
    rcases htriggers body a hfired fun row hrow => (hbody row hrow).imp_right mem_toFinset.mp with
      ⟨row, hrow, hin⟩
    exact ⟨row, hrow, mem_toFinset.mpr hin⟩
  · intro row hrow
    rw [mem_toFinset, Sorted.mem_ofList] at hrow
    exact mem_rowsOver.mpr (get_mem_ids (.inr hrow))

section

variable (hstore : Scans store (· ∈ E)) (hsafe : ∀ r ∈ rules, r.Safe)
    (hseed : ∀ r ∈ rules, r.body ≠ [] → r.Seeded E seed)
include hstore hsafe hseed

theorem runFixpoint_ok
    (hfree : Untrapped rules E seed) :
    ∃ rows, Returns (fun fuel => runFixpoint fuel (RuleSet.new rules) seed store) rows :=
  loopFrom_ok hstore hsafe (fun _ _ h hb => rowsOver_closed hsafe h hb) hfree _ _
    (reached_init (triggers_of_seeded hseed) (pending_init hseed)) 0

theorem runFixpoint_ok_inv
    {rows : List Row} (h : Returns (fun fuel => runFixpoint fuel (RuleSet.new rules) seed store) rows) :
    Untrapped rules E seed ∧ rows.Pairwise (· < ·) ∧
      ∀ row, row ∈ rows ↔ row ∈ seed ∨ Derived (Fired rules) (facts E seed) row :=
  loopFrom_ok_inv hstore hsafe (fun _ _ h hb => rowsOver_closed hsafe h hb) _ _
    (reached_init (triggers_of_seeded hseed) (pending_init hseed)) 0 rows h

end

theorem derivable_rowsOver (hsafe : ∀ r ∈ rules, r.Safe)
    (h : Derivable (Fired rules) (facts E seed) row) : row ∈ rowsOver rules E seed := by
  refine h.mem_of_closed (M := {row | row ∈ rowsOver rules E seed}) ?_ ?_
  · exact fun row hrow => mem_rowsOver.mpr (get_mem_ids hrow)
  · exact fun body a hr hbody => rowsOver_closed hsafe hr fun row hrow => .inr (hbody row hrow)

/-- Ids below `u64::MAX`, and rules that use all their variables, make no trap. -/
theorem not_trapped (hsafe : ∀ r ∈ rules, r.Safe)
    (hids : ∀ id ∈ ids rules E seed, id < u64Max) (huses : ∀ w < r.numVars, r.Uses w) :
    ¬r.Trapped {row | Derivable (Fired rules) (facts E seed) row} := by
  rintro ⟨b, v, ⟨w, rfl, _, ⟨a, ha, i, hi⟩, hmax⟩ | ⟨_, _, w, hw, hnot⟩, hmatch⟩
  · rcases hmatch a ha ⟨w, Nat.lt_succ_self w, i, hi⟩ with ⟨row, hrow, hfit⟩
    have hid := hids _ (mem_rowsOver.mp (derivable_rowsOver hsafe hrow) i)
    rw [(hfit i).2 w hi (Nat.lt_succ_self w)] at hid
    omega
  · exact hnot (huses w hw)

/-- Without traps, a seed that triggers every rule instance is enough: the run
returns the seed and what the rules derive. -/
theorem runFixpoint_returns (hstore : Scans store (· ∈ E)) (hsafe : ∀ r ∈ rules, r.Safe)
    (htriggers : Triggers rules E seed)
    (hfree : ∀ r ∈ rules, ¬r.Trapped {row | Derivable (Fired rules) (facts E seed) row}) :
    ∃ rows, Returns (fun fuel => runFixpoint fuel (RuleSet.new rules) seed store) rows ∧
      rows.Pairwise (· < ·) ∧
      ∀ row, row ∈ rows ↔ row ∈ seed ∨ Derived (Fired rules) (facts E seed) row := by
  have hpending : Pending rules E (Sorted.ofList seed) (Sorted.ofList seed) := by
    intro r hr b v f htrap hmatch
    refine absurd ⟨b, v, htrap, ?_⟩ (hfree r hr)
    intro a ha ht
    rcases hmatch a ha ht with ⟨hrow, hfit⟩
    exact ⟨f a, .base (hrow.imp_right Sorted.mem_ofList.mp), hfit⟩
  have hstart := reached_init htriggers hpending
  have hU : ∀ body a, Fired rules body a → AtHand E (rowsOver rules E seed) body →
      a ∈ rowsOver rules E seed := fun _ _ h hb => rowsOver_closed hsafe h hb
  rcases loopFrom_ok hstore hsafe hU (fun r hr _ => hfree r hr) _ _ hstart 0 with ⟨rows, hrows⟩
  exact ⟨rows, hrows, (loopFrom_ok_inv hstore hsafe hU _ _ hstart 0 rows hrows).2⟩

theorem Rule.Trapped.activates (hsafe : r.Safe) {M : Set Row} (h : r.Trapped M) :
    ∃ row ∈ M, r.Activates row := by
  rcases h with ⟨b, v, htrap, hmatch⟩
  have htouched : ∃ a ∈ r.body, a.Touched v := by
    rcases htrap with ⟨w, rfl, _, ⟨a, ha, hw⟩, _⟩ | ⟨rfl, hne, _⟩
    · exact ⟨a, ha, w, Nat.lt_succ_self w, hw⟩
    · rcases exists_mem_of_ne_nil _ hne with ⟨a, ha⟩
      rcases hsafe.mentions a ha with ⟨u, hu⟩
      exact ⟨a, ha, u, r.lt_numVars (mem_cons_of_mem _ ha) hu, hu⟩
  rcases htouched with ⟨a, ha, ht⟩
  rcases hmatch a ha ht with ⟨row, hrow, hfit⟩
  exact ⟨row, hrow, r.activates_of_fits ha hfit⟩

end Driver

/-! ## The closure of a list of triples -/

theorem seeded_of_rows (hne : r.body ≠ []) (base : List Row) : r.Seeded ∅ base := by
  rcases exists_mem_of_ne_nil _ hne with ⟨a, ha⟩
  refine ⟨a, ha, ?_⟩
  rintro row (hrow | hrow) _
  · exact absurd hrow (Finset.notMem_empty _)
  · exact hrow

theorem facts_empty (base : List Row) : facts ∅ base = {row | row ∈ base} := by
  ext row
  simp [facts]

theorem scans_null_empty : Scans nullSource (· ∈ (∅ : Finset Row)) := by
  simpa using scans_nullSource

theorem Rule.Safe.ground_head (h : r.Safe) (hnil : r.body = []) (b b' : Nat → Nat) :
    r.head.ground b = r.head.ground b' := by
  apply Row.ext_get
  intro i
  rw [RuleAtom.get_ground, RuleAtom.get_ground]
  cases hi : r.head.get i with
  | const c => rfl
  | var u =>
    rcases h.head u ⟨i, hi⟩ with ⟨a, ha, _⟩
    rw [hnil] at ha
    cases ha

/-- `closure` returns the least set of triples that contains the base and is closed
under the rules, each triple once, exactly when no match of a rule body among the
derivable triples is a trap and every rule without body gives a triple that the
others derive. -/
theorem closure_least_iff (rules : List Rule) (hsafe : ∀ r ∈ rules, r.Safe) (base : List Row) :
    (∃ rows, Returns (fun fuel => closure fuel (RuleSet.new rules) base) rows ∧ rows.Nodup ∧
      IsLeast {M : Set Row | {row | row ∈ base} ⊆ M ∧ Closed (Instance rules) M} {row | row ∈ rows}) ↔
    (∀ r ∈ rules, ¬r.Trapped {row | Derivable (Fired rules) {row | row ∈ base} row}) ∧
      ∀ r ∈ rules, r.body = [] →
        Derivable (Fired rules) {row | row ∈ base} (r.head.ground fun _ => 0) := by
  have hseed : ∀ r ∈ rules, r.body ≠ [] → r.Seeded ∅ base := fun r _ hne => seeded_of_rows hne base
  constructor
  · rintro ⟨rows, hret, _, hleast⟩
    rcases runFixpoint_ok_inv scans_null_empty hsafe hseed hret with ⟨hfree, _, hmem⟩
    rw [facts_empty] at hmem
    constructor
    · intro r hr htrap
      rcases htrap.activates (hsafe r hr) with ⟨row, hrow, hact⟩
      rw [← facts_empty] at htrap hrow
      refine hfree r hr ⟨row, ?_, hact⟩ htrap
      have hor := derivable_iff.mp hrow
      rwa [facts_empty] at hor ⊢
    · intro r hr hnil
      have hin : r.head.ground (fun _ => 0) ∈ rows :=
        hleast.1.2 [] _ ⟨r, hr, fun _ => 0, by rw [hnil]; rfl, rfl⟩ nofun
      exact derivable_iff.mpr ((hmem _).mp hin)
  · rintro ⟨hfree, hfact⟩
    have huntrapped : Untrapped rules ∅ base := by
      intro r hr _
      rw [facts_empty]
      exact hfree r hr
    rcases runFixpoint_ok scans_null_empty hsafe hseed huntrapped with ⟨rows, hret⟩
    rcases runFixpoint_ok_inv scans_null_empty hsafe hseed hret with ⟨_, hsorted, hmem⟩
    rw [facts_empty] at hmem
    have hrows : ∀ row, row ∈ rows ↔ Derivable (Fired rules) {row | row ∈ base} row := by
      intro row
      rw [hmem, derivable_iff]
      rfl
    refine ⟨rows, hret, hsorted.imp fun h => ne_of_lt h, ⟨fun row hrow => (hmem row).mpr (.inl hrow), ?_⟩, ?_⟩
    · rintro body a ⟨r, hr, b, rfl, rfl⟩ hbody
      -- a rule without body adds what is derived anyway
      by_cases hnil : r.body = []
      · rw [(hsafe r hr).ground_head hnil b fun _ => 0]
        exact (hrows _).mpr (hfact r hr hnil)
      · have hne : r.body.map (RuleAtom.ground b) ≠ [] := by simpa using hnil
        exact (hrows _).mpr (.step ⟨⟨r, hr, b, rfl, rfl⟩, hne⟩ fun row hrow => (hrows row).mp (hbody row hrow))
    · intro M hM row hrow
      exact ((hrows row).mp hrow).mem_of_closed hM.1 fun body a h hbody => hM.2 body a h.1 hbody

/-- The transitive closure of a path of two edges. -/
theorem closure_least_iff_path :
    ∃ rows, Returns (fun fuel => closure fuel (RuleSet.new [Rule.transitive 100])
        [⟨2, 100, 3⟩, ⟨1, 100, 2⟩, ⟨1, 100, 2⟩]) rows ∧ rows.Nodup ∧
      IsLeast {M : Set Row | {row | row ∈ [⟨2, 100, 3⟩, ⟨1, 100, 2⟩, ⟨1, 100, 2⟩]} ⊆ M ∧
        Closed (Instance [Rule.transitive 100]) M} {row | row ∈ rows} := by
  have htidy : ∀ r ∈ [Rule.transitive 100], r.Safe ∧ ∀ w < r.numVars, r.Uses w :=
    forall_mem_singleton.mpr (Rule.safe_of_tidy rfl)
  have hsafe := fun r hr => (htidy r hr).1
  refine (closure_least_iff _ hsafe _).mpr ⟨?_, ?_⟩
  · intro r hr
    rw [← facts_empty]
    exact not_trapped hsafe (by decide) (htidy r hr).2
  · intro r hr hnil
    rw [mem_singleton.mp hr] at hnil
    cases hnil

example : closure 9 (RuleSet.new [Rule.transitive 100]) [⟨2, 100, 3⟩, ⟨1, 100, 2⟩, ⟨1, 100, 2⟩] =
    .ok [⟨1, 100, 2⟩, ⟨1, 100, 3⟩, ⟨2, 100, 3⟩] := by decide +kernel

/-- The rule `?1 p ?0 :- ?0 p ?1` with room for a third variable. -/
def spareRule : Rule where
  name := "spare"
  body := [⟨.var 0, .const 5, .var 1⟩]
  head := ⟨.var 1, .const 5, .var 0⟩
  numVars := 3

theorem spareRule_safe : spareRule.Safe := by
  have hhead : ∀ u ∈ spareRule.head.vars, ∃ a ∈ spareRule.body, u ∈ a.vars := by decide
  have hbody : ∀ a ∈ spareRule.body, 0 ∈ a.vars ∧ a.vars.Nodup := by decide
  refine ⟨?_, fun a ha => ⟨0, RuleAtom.mem_vars.mp (hbody a ha).1⟩, ?_⟩
  · intro u hu
    rcases hhead u (RuleAtom.mem_vars.mpr hu) with ⟨a, ha, hau⟩
    exact ⟨a, ha, RuleAtom.mem_vars.mp hau⟩
  · exact fun a ha => RuleAtom.linear_of_nodup (hbody a ha).2

theorem spareRule_trapped {M : Set Row} (h : ⟨1, 5, 2⟩ ∈ M) : spareRule.Trapped M := by
  have hspare : ¬spareRule.Uses 2 := by
    rintro ⟨a, ha, hu⟩
    have hnot : ∀ a ∈ spareRule.body, 2 ∉ a.vars := by decide
    exact hnot a ha (RuleAtom.mem_vars.mpr hu)
  refine ⟨fun u => u + 1, 3, .inr ⟨rfl, cons_ne_nil _ _, 2, by decide, hspare⟩, ?_⟩
  intro a ha _
  refine ⟨⟨1, 5, 2⟩, h, ?_⟩
  rw [show (3 : Nat) = spareRule.numVars from rfl,
    spareRule.fits_iff (mem_cons_of_mem _ ha), mem_singleton.mp ha]
  rfl

/-- The rule is safe, and one edge makes its join panic: the third variable is never
bound. -/
theorem closure_spare_variable : spareRule.Safe ∧
    ¬∃ rows, Returns (fun fuel => closure fuel (RuleSet.new [spareRule]) [⟨1, 5, 2⟩]) rows := by
  refine ⟨spareRule_safe, ?_⟩
  rintro ⟨rows, hret⟩
  rcases runFixpoint_ok_inv scans_null_empty (forall_mem_singleton.mpr spareRule_safe)
    (fun r _ hne => seeded_of_rows hne _) hret with ⟨hfree, _⟩
  have hedge : (⟨1, 5, 2⟩ : Row) ∈ [(⟨1, 5, 2⟩ : Row)] := mem_singleton_self _
  exact hfree spareRule (mem_singleton_self _) ⟨_, .inl hedge, .inr (by decide)⟩
    (spareRule_trapped (.base (.inr hedge)))

/-! ## The closure over a store -/

/-- Some atom of the body has a constant predicate, and all facts of the store with
this predicate are in the seed. -/
def Rule.SeededByPredicate (r : Rule) (E : Finset Row) (seed : List Row) : Prop :=
  ∃ a ∈ r.body, ∃ p, a.p = .const p ∧ ∀ row ∈ E, row.p = p → row ∈ seed

/-- If every rule has a premise and the store holds the seed, traps are met among what
the rules derive from the store. -/
theorem derivations_over_store (hne : ∀ r ∈ rules, r.body ≠ []) {E : Finset Row}
    (hsub : ∀ row ∈ seed, row ∈ E) : Fired rules = Instance rules ∧ facts E seed = (E : Set Row) := by
  constructor
  · funext body a
    refine propext ⟨fun h => h.1, fun h => ⟨h, ?_⟩⟩
    rcases h with ⟨r, hr, b, rfl, _⟩
    exact fun hnil => hne r hr (map_eq_nil_iff.mp hnil)
  · ext row
    exact ⟨fun h => h.elim id (hsub row), fun h => .inl h⟩

/-- Over a store that holds the seed, the run returns the seed and all that the
rules derive from the store, each triple once, exactly if no rule that a triple of
the result activates has a trap among the derivable triples. -/
theorem closureOverStore_iff (hsafe : ∀ r ∈ rules, r.Safe) {store : AtomSource}
    {E : Finset Row} (hstore : Scans store (· ∈ E)) (hsub : ∀ row ∈ seed, row ∈ E)
    (hseed : ∀ r ∈ rules, r.SeededByPredicate E seed) :
    (∃ rows, Returns (fun fuel => closureOverStore fuel (RuleSet.new rules) store seed) rows ∧
      rows.Nodup ∧ ∀ row, row ∈ rows ↔ row ∈ seed ∨ Derived (Instance rules) E row) ↔
    ∀ r ∈ rules, (∃ row, (row ∈ seed ∨ Derived (Instance rules) E row) ∧ r.Activates row) →
      ¬r.Trapped {row | Derivable (Instance rules) E row} := by
  have hne : ∀ r ∈ rules, r.body ≠ [] := by
    intro r hr
    rcases hseed r hr with ⟨a, ha, _⟩
    exact ne_nil_of_mem ha
  rcases derivations_over_store hne hsub with ⟨hfired, hfacts⟩
  have hseeded : ∀ r ∈ rules, r.body ≠ [] → r.Seeded E seed := by
    intro r hr _
    rcases hseed r hr with ⟨a, ha, p, hp, hall⟩
    refine ⟨a, ha, fun row hrow hallows => ?_⟩
    rw [hfacts] at hrow
    exact hall row hrow (hallows p hp)
  rw [← hfired, ← hfacts]
  constructor
  · rintro ⟨rows, hret, _⟩
    exact (runFixpoint_ok_inv hstore hsafe hseeded hret).1
  · intro hfree
    rcases runFixpoint_ok hstore hsafe hseeded hfree with ⟨rows, hret⟩
    rcases runFixpoint_ok_inv hstore hsafe hseeded hret with ⟨_, hsorted, hmem⟩
    exact ⟨rows, hret, hsorted.imp ne_of_lt, hmem⟩

/-- A store that holds the edge, which is also the seed, makes the join panic. -/
theorem closureOverStore_spare_variable :
    ¬∀ (rules : List Rule) (store : AtomSource) (E : Finset Row) (seed : List Row),
      (∀ r ∈ rules, r.Safe) → Scans store (· ∈ E) → (∀ row ∈ seed, row ∈ E) →
      (∀ r ∈ rules, r.SeededByPredicate E seed) →
      ∃ rows, Returns (fun fuel => closureOverStore fuel (RuleSet.new rules) store seed) rows ∧
        rows.Nodup ∧ ∀ row, row ∈ rows ↔ row ∈ seed ∨ Derived (Instance rules) E row := by
  intro hclaim
  have hsafe := forall_mem_singleton.mpr spareRule_safe
  have hstore : Scans (sliceSource [⟨1, 5, 2⟩]) (· ∈ ({⟨1, 5, 2⟩} : Finset Row)) := by
    simpa using scans_sliceSource [⟨1, 5, 2⟩]
  have hsub : ∀ row ∈ [(⟨1, 5, 2⟩ : Row)], row ∈ ({⟨1, 5, 2⟩} : Finset Row) := by simp
  have hseed : ∀ r ∈ [spareRule], r.SeededByPredicate {⟨1, 5, 2⟩} [⟨1, 5, 2⟩] :=
    forall_mem_singleton.mpr ⟨_, mem_singleton_self _, 5, rfl, by simp⟩
  refine (closureOverStore_iff hsafe hstore hsub hseed).mp (hclaim _ _ _ _ hsafe hstore hsub hseed)
    spareRule (mem_singleton_self _) ⟨_, .inl (mem_singleton_self _), .inr (by decide)⟩
    (spareRule_trapped (.base (by simp)))

end Nova.Reasoning
