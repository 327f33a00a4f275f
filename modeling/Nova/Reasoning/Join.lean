import Nova.Lib.Leapfrog
import Nova.Lib.Returns
import Nova.Lib.Sorted
import Nova.Query.Dataset
import Mathlib.Data.Prod.Lex
import Mathlib.Data.Fintype.Basic
import Mathlib.Logic.Function.Basic
import Mathlib.Tactic.FinCases

/-!
# The join of a rule body

A rule body is joined variable by variable: the atoms that mention the next
variable are scanned under the bindings made so far, the scans are synchronised,
and every common key is tried. Each atom of one join may scan its own relation.

Two things can keep the join from returning. `advance` moves to the successor of
a key, which `u64::MAX` does not have, so that a join that meets this key stays
there for ever; and a variable of the rule that no atom mentions is left unbound,
on which a completed binding panics. `leapfrogJoin_ok` says that the join otherwise
returns exactly the bindings that match every atom, and `leapfrogJoin_ok_inv` that
it returns only then.

The loops run on `fuel`; a join that returns does so for all larger fuel.
-/

namespace Nova.Reasoning

open Nova.Lib Nova.Lib.Leapfrog List

/-! ## Rows and atoms -/

/-- `[u64; 3]`: a triple of term ids. -/
structure Row where
  s : Nat
  p : Nat
  o : Nat
deriving DecidableEq, Repr

def Row.get (row : Row) : Fin 3 → Nat
  | 0 => row.s
  | 1 => row.p
  | 2 => row.o

variable {row : Row}

theorem Row.ext_get {row' : Row} (h : ∀ i, row.get i = row'.get i) : row = row' := by
  rcases row with ⟨s, p, o⟩
  rcases row' with ⟨s', p', o'⟩
  have h0 := h 0
  have h1 := h 1
  have h2 := h 2
  simp only [Row.get] at h0 h1 h2
  rw [h0, h1, h2]

/-- The order of the arrays. -/
def Row.key (row : Row) : Nat ×ₗ Nat ×ₗ Nat := toLex (row.s, toLex (row.p, row.o))

theorem Row.key_injective : Function.Injective Row.key := by
  intro row row' h
  rcases row with ⟨s, p, o⟩
  rcases row' with ⟨s', p', o'⟩
  rcases h with ⟨rfl, rfl, rfl⟩
  rfl

instance : LinearOrder Row := LinearOrder.lift' Row.key Row.key_injective

/-- `AtomField`. -/
inductive AtomField where
  | const (id : Nat)
  | var (v : Nat)
deriving DecidableEq, Repr

/-- `RuleAtom`. -/
structure RuleAtom where
  s : AtomField
  p : AtomField
  o : AtomField
deriving DecidableEq, Repr

def RuleAtom.get (a : RuleAtom) : Fin 3 → AtomField
  | 0 => a.s
  | 1 => a.p
  | 2 => a.o

/-- `AtomSource::scan`: the keys of the target field under the bound fields. -/
abbrev AtomSource := (Fin 3 → Option Nat) → Fin 3 → Scan

/-- `Atom`: an atom and the relation that it scans. -/
structure Atom where
  fields : RuleAtom
  source : AtomSource

/-! ## Sources -/

/-- `join_scan` of a list of rows: the values are sorted, and each is kept once. -/
def joinScan (rows : List Row) : AtomSource := fun bound target =>
  Sorted.ofList ((rows.filter fun row => ∀ i, i = target ∨ (bound i).all fun v => v = row.get i).map
    fun row => row.get target)

/-- `SliceSource`. -/
def sliceSource (rows : List Row) : AtomSource := joinScan rows

/-- `NullSource`. -/
def nullSource : AtomSource := fun _ _ => []

/-- `UnionTrieIter`: the current key is the smaller one, and a seek goes to both
sides. -/
def unionTrieIter (a b : Scan) : Scan := Sorted.union a b

/-- `CombinedSource`. -/
def combinedSource (primary secondary : AtomSource) : AtomSource := fun bound target =>
  unionTrieIter (primary bound target) (secondary bound target)

/-- `advance` of every iterator of a join: `seek(key().saturating_add(1))`. -/
def advance : Scan → Scan
  | [] => []
  | k :: ks => seek (k :: ks) (min (k + 1) u64Max)

/-! ## The join -/

/-- Why a join does not return: it goes on for longer than the fuel, or the
`expect("fully bound")` panics. -/
inductive Stop where
  | outOfFuel
  | fullyBound
deriving DecidableEq, Repr

/-- `is_active_for_var`. -/
def RuleAtom.isActiveForVar (a : RuleAtom) (var : Nat) : Bool :=
  a.s = .var var || a.p = .var var || a.o = .var var

def AtomField.resolve (bindings : Nat → Option Nat) : AtomField → Option Nat
  | .const id => some id
  | .var v => bindings v

/-- The target of `resolve_for_var`: the first field that is the variable. -/
def RuleAtom.targetField (a : RuleAtom) (var : Nat) : Fin 3 :=
  if a.s = .var var then 0 else if a.p = .var var then 1 else 2

/-- The join scan that an atom asks a dataset for. -/
def fieldScan (ds : Dataset) (bound : Fin 3 → Option Nat) (target : Fin 3) (g : GraphSelector) : Option Scan :=
  ds.lftjJoinScan (bound 0) (bound 1) (bound 2) target g

/-- `resolve_for_var` and the scan it is made for. -/
def Atom.scan (a : Atom) (var : Nat) (bindings : Nat → Option Nat) : Scan :=
  a.source (fun i => (a.fields.get i).resolve bindings) (a.fields.targetField var)

/-- `join_step`: bind the first unbound variable, recurse over the rest. -/
def joinStep (atoms : List Atom) (numVars fuel : Nat) :
    List Nat → (Nat → Option Nat) → Except Stop (List (List Nat))
  | [], bindings =>
    match (List.range numVars).mapM bindings with
    | some binding => .ok [binding]
    | none => .error .fullyBound
  | var :: remaining, bindings =>
    let active := atoms.filter fun a => a.fields.isActiveForVar var
    if active.isEmpty then joinStep atoms numVars fuel remaining bindings
    else
      let scans := active.map fun a => a.scan var bindings
      if scans.any List.isEmpty then .ok []
      else
        leapfrogM .outOfFuel advance
          (fun val => joinStep atoms numVars fuel remaining (Function.update bindings var (some val)))
          fuel scans

/-- `leapfrog_join`. -/
def leapfrogJoin (atoms : List Atom) (numVars fuel : Nat) : Except Stop (List (List Nat)) :=
  joinStep atoms numVars fuel (List.range numVars) fun _ => none

/-! ## What a source holds -/

/-- The row stands in the bound fields. -/
def Row.Within (row : Row) (bound : Fin 3 → Option Nat) : Prop :=
  ∀ i v, bound i = some v → row.get i = v

/-- The source answers scans of a relation: an ascending scan of the values that
the target field takes. -/
structure Scans (source : AtomSource) (rel : Row → Prop) : Prop where
  ascending : ∀ bound target, (source bound target).Pairwise (· < ·)
  mem : ∀ bound target x, bound target = none →
    (x ∈ source bound target ↔ ∃ row, rel row ∧ row.get target = x ∧ row.Within bound)

theorem scans_sliceSource (rows : List Row) : Scans (sliceSource rows) (· ∈ rows) where
  ascending := by
    intro bound target
    exact Sorted.pairwise_ofList _
  mem := by
    intro bound target x hbound
    simp only [sliceSource, joinScan, Sorted.mem_ofList, mem_map, mem_filter,
      decide_eq_true_eq]
    constructor
    · rintro ⟨row, ⟨hrow, hall⟩, rfl⟩
      refine ⟨row, hrow, rfl, ?_⟩
      intro i v hv
      rcases hall i with rfl | hi
      · rw [hbound] at hv
        cases hv
      · rw [hv] at hi
        have hi' : v = row.get i := by simpa using hi
        exact hi'.symm
    · rintro ⟨row, hrow, rfl, hin⟩
      refine ⟨row, ⟨hrow, fun i => .inr ?_⟩, rfl⟩
      cases hv : bound i with
      | none => rfl
      | some v => simpa using (hin i v hv).symm

theorem scans_nullSource : Scans nullSource fun _ => False where
  ascending _ _ := .nil
  mem := by simp [nullSource]

variable {rel : Row → Prop}

theorem scans_combinedSource {primary secondary : AtomSource} {rel' : Row → Prop}
    (h : Scans primary rel) (h' : Scans secondary rel') :
    Scans (combinedSource primary secondary) fun row => rel row ∨ rel' row where
  ascending bound target := Sorted.pairwise_union (h'.ascending bound target)
  mem := by
    intro bound target x hbound
    rw [combinedSource, unionTrieIter, Sorted.mem_union, h.mem bound target x hbound,
      h'.mem bound target x hbound]
    constructor
    · rintro (⟨row, hrow, hx⟩ | ⟨row, hrow, hx⟩)
      · exact ⟨row, .inl hrow, hx⟩
      · exact ⟨row, .inr hrow, hx⟩
    · rintro ⟨row, hrow | hrow, hx⟩
      · exact .inl ⟨row, hrow, hx⟩
      · exact .inr ⟨row, hrow, hx⟩

/-- The rows of a source, read off its scans of the last field. -/
def AtomSource.rows (source : AtomSource) (row : Row) : Prop :=
  row.o ∈ source (fun i => if i = 2 then none else some (row.get i)) 2

theorem Scans.rows_iff {source : AtomSource} (h : Scans source rel) (row : Row) :
    source.rows row ↔ rel row := by
  rw [AtomSource.rows, h.mem _ _ _ (if_pos rfl)]
  constructor
  · rintro ⟨row', hrel, ho, hin⟩
    have heq : row' = row := by
      apply Row.ext_get
      intro i
      by_cases hi : i = 2
      · subst hi
        exact ho
      · exact hin i _ (if_neg hi)
    rwa [← heq]
  · intro hrel
    refine ⟨row, hrel, rfl, ?_⟩
    intro i v hv
    simp only at hv
    split at hv
    · cases hv
    · exact Option.some.inj hv

theorem Scans.scans_rows {source : AtomSource} (h : Scans source rel) : Scans source source.rows := by
  have heq : source.rows = rel := funext fun row => propext (h.rows_iff row)
  rwa [heq]

/-! ## Matches of a body -/

/-- The row is an instance of the atom as far as the variables below `v` go. -/
def RuleAtom.Fits (a : RuleAtom) (b : Nat → Nat) (v : Nat) (row : Row) : Prop :=
  ∀ i, (∀ c, a.get i = .const c → row.get i = c) ∧ ∀ u, a.get i = .var u → u < v → row.get i = b u

/-- The variable is in one of the fields. -/
def RuleAtom.Mentions (a : RuleAtom) (u : Nat) : Prop := ∃ i, a.get i = .var u

variable {a : RuleAtom}

theorem RuleAtom.isActiveForVar_iff {u : Nat} : a.isActiveForVar u = true ↔ a.Mentions u := by
  simp only [RuleAtom.isActiveForVar, Bool.or_eq_true, decide_eq_true_eq, RuleAtom.Mentions]
  constructor
  · rintro ((h | h) | h)
    · exact ⟨0, h⟩
    · exact ⟨1, h⟩
    · exact ⟨2, h⟩
  · rintro ⟨i, hi⟩
    fin_cases i
    · exact .inl (.inl hi)
    · exact .inl (.inr hi)
    · exact .inr hi

/-- No variable is in two fields. -/
def RuleAtom.Linear (a : RuleAtom) : Prop :=
  ∀ i j u, a.get i = .var u → a.get j = .var u → i = j

theorem RuleAtom.get_targetField {u : Nat} (h : a.Mentions u) : a.get (a.targetField u) = .var u := by
  unfold RuleAtom.targetField
  by_cases hs : a.s = .var u
  · rw [if_pos hs]
    exact hs
  · rw [if_neg hs]
    by_cases hp : a.p = .var u
    · rw [if_pos hp]
      exact hp
    · rw [if_neg hp]
      rcases h with ⟨i, hi⟩
      fin_cases i
      · exact absurd hi hs
      · exact absurd hi hp
      · exact hi

variable {b : Nat → Nat} {v : Nat}

theorem RuleAtom.Fits.mono {w : Nat} (h : a.Fits b w row) (hle : v ≤ w) : a.Fits b v row :=
  fun i => ⟨(h i).1, fun u hu hlt => (h i).2 u hu (Nat.lt_of_lt_of_le hlt hle)⟩

variable {b' : Nat → Nat}

/-- Only the variables of the atom that are below `v` matter. -/
theorem RuleAtom.Fits.congr
    (h : a.Fits b v row) (heq : ∀ u < v, a.Mentions u → b' u = b u) : a.Fits b' v row := by
  refine fun i => ⟨(h i).1, fun u hu hlt => ?_⟩
  rw [heq u hlt ⟨i, hu⟩]
  exact (h i).2 u hu hlt

theorem RuleAtom.Fits.succ (h : a.Fits b v row) (hv : ¬a.Mentions v) : a.Fits b (v + 1) row := by
  refine fun i => ⟨(h i).1, fun u hu hlt => (h i).2 u hu ?_⟩
  have hne : u ≠ v := fun heq => hv ⟨i, heq ▸ hu⟩
  omega

/-- Some atom mentions the variable. -/
def Used (atoms : List Atom) (u : Nat) : Prop := ∃ a ∈ atoms, a.fields.Mentions u

/-- The atoms that mention a variable below `v` all have a row that fits. -/
def MatchesUpTo (atoms : List Atom) (b : Nat → Nat) (v : Nat) : Prop :=
  ∀ a ∈ atoms, (∃ u < v, a.fields.Mentions u) → ∃ row, a.source.rows row ∧ a.fields.Fits b v row

variable {atoms : List Atom}

theorem MatchesUpTo.congr
    (h : MatchesUpTo atoms b v) (heq : ∀ u < v, Used atoms u → b' u = b u) : MatchesUpTo atoms b' v := by
  intro a ha hm
  rcases h a ha hm with ⟨row, hrow, hfit⟩
  exact ⟨row, hrow, hfit.congr fun u hu hmu => heq u hu ⟨a, ha, hmu⟩⟩

theorem MatchesUpTo.mono {w : Nat} (h : MatchesUpTo atoms b w) (hle : v ≤ w) : MatchesUpTo atoms b v := by
  intro a ha hm
  rcases hm with ⟨u, hu, hmu⟩
  rcases h a ha ⟨u, Nat.lt_of_lt_of_le hu hle, hmu⟩ with ⟨row, hrow, hfit⟩
  exact ⟨row, hrow, hfit.mono hle⟩

theorem matchesUpTo_succ : MatchesUpTo atoms b (v + 1) ↔ MatchesUpTo atoms b v ∧
      ∀ a ∈ atoms, a.fields.Mentions v → ∃ row, a.source.rows row ∧ a.fields.Fits b (v + 1) row := by
  constructor
  · intro h
    exact ⟨h.mono (Nat.le_succ v), fun a ha hv => h a ha ⟨v, Nat.lt_succ_self v, hv⟩⟩
  · rintro ⟨hold, hnew⟩ a ha ⟨u, hu, hmu⟩
    by_cases hv : a.fields.Mentions v
    · exact hnew a ha hv
    · have hlt : u < v := by
        have hne : u ≠ v := fun heq => hv (heq ▸ hmu)
        omega
      rcases hold a ha ⟨u, hlt, hmu⟩ with ⟨row, hrow, hfit⟩
      exact ⟨row, hrow, hfit.succ hv⟩

/-! ## The scans of one variable -/

/-- The bindings made before the variable `v`. -/
def bindUpTo (atoms : List Atom) (b : Nat → Nat) (v : Nat) : Nat → Option Nat := fun u =>
  if u < v ∧ atoms.any (fun a => a.fields.isActiveForVar u) then some (b u) else none

theorem used_iff {u : Nat} : atoms.any (fun a => a.fields.isActiveForVar u) = true ↔ Used atoms u := by
  simp only [any_eq_true, RuleAtom.isActiveForVar_iff, Used]

theorem bindUpTo_eq_some {u c : Nat} : bindUpTo atoms b v u = some c ↔ u < v ∧ Used atoms u ∧ c = b u := by
  rw [bindUpTo, ← used_iff]
  split
  · next h => simp only [h.1, h.2, true_and, Option.some.injEq, eq_comm]
  · next h =>
    constructor
    · intro h'
      cases h'
    · rintro ⟨hlt, hu, _⟩
      exact absurd ⟨hlt, hu⟩ h

theorem bindUpTo_zero (atoms : List Atom) (b : Nat → Nat) : bindUpTo atoms b 0 = fun _ => none := by
  funext u
  simp [bindUpTo]

theorem update_bindUpTo (hv : Used atoms v) (x : Nat) : Function.update (bindUpTo atoms b v) v (some x) =
      bindUpTo atoms (Function.update b v x) (v + 1) := by
  funext u
  by_cases huv : u = v
  · subst huv
    rw [Function.update_self]
    symm
    rw [bindUpTo_eq_some, Function.update_self]
    exact ⟨Nat.lt_succ_self u, hv, rfl⟩
  · rw [Function.update_of_ne huv]
    have hlt : u < v + 1 ↔ u < v := by omega
    simp only [bindUpTo, hlt, Function.update_of_ne huv]

theorem bindUpTo_succ (hv : ¬Used atoms v) : bindUpTo atoms b (v + 1) = bindUpTo atoms b v := by
  funext u
  by_cases huv : u = v
  · subst huv
    rw [← used_iff] at hv
    simp only [bindUpTo, hv, Bool.false_eq_true, and_false, if_false]
  · have hlt : u < v + 1 ↔ u < v := by omega
    simp only [bindUpTo, hlt]

/-- The keys of an atom's scan are the values of the variable for which a row of
the atom fits. -/
theorem mem_scan {a : Atom} (ha : a ∈ atoms) (hs : Scans a.source a.source.rows)
    (hlin : a.fields.Linear) (hv : a.fields.Mentions v) {x : Nat} : x ∈ a.scan v (bindUpTo atoms b v) ↔
      ∃ row, a.source.rows row ∧ a.fields.Fits (Function.update b v x) (v + 1) row := by
  have htarget := RuleAtom.get_targetField hv
  have hnone : (a.fields.get (a.fields.targetField v)).resolve (bindUpTo atoms b v) = none := by
    rw [htarget]
    simp [AtomField.resolve, bindUpTo]
  rw [Atom.scan, hs.mem _ _ _ hnone]
  refine exists_congr fun row => and_congr_right fun _ => ?_
  constructor
  · rintro ⟨hx, hin⟩ i
    constructor
    · intro c hc
      refine hin i c ?_
      simp only [hc, AtomField.resolve]
    · intro u hu hlt
      by_cases huv : u = v
      · subst huv
        rw [hlin i _ u hu htarget, Function.update_self]
        exact hx
      · rw [Function.update_of_ne huv]
        refine hin i (b u) ?_
        simp only [hu, AtomField.resolve]
        exact bindUpTo_eq_some.mpr ⟨by omega, ⟨a, ha, i, hu⟩, rfl⟩
  · intro hfit
    constructor
    · rw [(hfit _).2 v htarget (Nat.lt_succ_self v), Function.update_self]
    · intro i c hc
      cases hi : a.fields.get i with
      | const id =>
        simp only [hi, AtomField.resolve, Option.some.injEq] at hc
        rw [(hfit i).1 id hi, hc]
      | var u =>
        simp only [hi, AtomField.resolve] at hc
        rcases bindUpTo_eq_some.mp hc with ⟨hlt, _, rfl⟩
        rw [(hfit i).2 u hi (by omega), Function.update_of_ne (by omega)]

theorem advance_of_lt {k : Nat} {ks : Scan} (hk : k < u64Max) (h : (k :: ks).Pairwise (· < ·)) :
    advance (k :: ks) = ks := by
  rcases pairwise_cons.mp h with ⟨hall, hks⟩
  have hmin : min (k + 1) u64Max = k + 1 := by omega
  rw [advance, hmin, seek, dropWhile_cons_of_pos (by simp)]
  cases ks with
  | nil => rfl
  | cons k' ks' =>
    have hk' : k < k' := hall k' mem_cons_self
    rw [dropWhile_cons_of_neg (by simpa using Nat.succ_le_of_lt hk')]

/-- `u64::MAX` has no successor to move to. -/
theorem advance_of_ge {k : Nat} {ks : Scan} (hk : u64Max ≤ k) : advance (k :: ks) = k :: ks := by
  have hmin : min (k + 1) u64Max = u64Max := by omega
  rw [advance, hmin, seek, dropWhile_cons_of_neg (by simpa using hk)]

theorem advance_moves (k : Nat) (ks : Scan) (h : (k :: ks).Pairwise (· < ·)) :
    advance (k :: ks) = ks ∨ advance (k :: ks) = k :: ks := by
  by_cases hk : k < u64Max
  · exact .inl (advance_of_lt hk h)
  · exact .inr (advance_of_ge (by omega))

/-! ## The join returns -/

/-- A match of the variables before `v` that goes wrong later: a variable takes
the value `u64::MAX`, or all atoms are matched and a variable is left over. -/
def Blocked (atoms : List Atom) (n : Nat) (b : Nat → Nat) (v : Nat) : Prop :=
  ∃ b', (∀ u < v, b' u = b u) ∧
    ((∃ w, v ≤ w ∧ w < n ∧ Used atoms w ∧ MatchesUpTo atoms b' (w + 1) ∧ u64Max ≤ b' w) ∨
      ((∃ w < n, ¬Used atoms w) ∧ MatchesUpTo atoms b' n))

theorem Blocked.of_succ {n : Nat}
    (h : Blocked atoms n b' (v + 1)) (heq : ∀ u < v, b' u = b u) : Blocked atoms n b v := by
  rcases h with ⟨b'', hagree, hbad⟩
  refine ⟨b'', fun u hu => (hagree u (by omega)).trans (heq u hu), ?_⟩
  rcases hbad with ⟨w, hw, hrest⟩ | hbad
  · exact .inl ⟨w, by omega, hrest⟩
  · exact .inr hbad

/-- An assignment that agrees before `v` agrees up to it with the value it has
there. -/
theorem agree_update (h : ∀ u < v, b' u = b u) : ∀ u < v + 1, b' u = Function.update b v (b' v) u := by
  intro u hu
  by_cases huv : u = v
  · rw [huv, Function.update_self]
  · rw [Function.update_of_ne huv]
    exact h u (by omega)

theorem update_agree (b : Nat → Nat) (v x : Nat) : ∀ u < v, Function.update b v x u = b u :=
  fun u hu => Function.update_of_ne (by omega) _ _

section Spec

variable {atoms : List Atom} {n : Nat} (hscans : ∀ a ∈ atoms, Scans a.source a.source.rows)
  (hlin : ∀ a ∈ atoms, a.fields.Linear)

/-- The scans of one variable. -/
def scansOf (atoms : List Atom) (b : Nat → Nat) (v : Nat) : List Scan :=
  (atoms.filter fun a => a.fields.isActiveForVar v).map fun a => a.scan v (bindUpTo atoms b v)

theorem scansOf_ne_nil : scansOf atoms b v ≠ [] ↔ Used atoms v := by
  rw [scansOf, Ne, map_eq_nil_iff, filter_eq_nil_iff]
  simp only [RuleAtom.isActiveForVar_iff, not_forall, not_not, Used, exists_prop]

include hscans in
theorem scansOf_ascending (b : Nat → Nat) (v : Nat) : Ascending (scansOf atoms b v) := by
  intro scan hscan
  rcases mem_map.mp hscan with ⟨a, ha, rfl⟩
  exact (hscans a (mem_filter.mp ha).1).ascending _ _

include hscans hlin in
theorem mem_inter_scansOf (hv : Used atoms v) (hm : MatchesUpTo atoms b v) {x : Nat} :
    x ∈ inter (scansOf atoms b v) ↔ MatchesUpTo atoms (Function.update b v x) (v + 1) := by
  have hcommon : x ∈ inter (scansOf atoms b v) ↔ Common (scansOf atoms b v) x := by
    have hne : scansOf atoms b v ≠ [] := scansOf_ne_nil.mpr hv
    cases hs : scansOf atoms b v with
    | nil => exact absurd hs hne
    | cons scan rest => exact mem_inter
  rw [hcommon, matchesUpTo_succ]
  have hold : MatchesUpTo atoms (Function.update b v x) v := hm.congr fun u hu _ => update_agree b v x u hu
  constructor
  · intro hc
    refine ⟨hold, ?_⟩
    intro a ha hmv
    refine (mem_scan ha (hscans a ha) (hlin a ha) hmv).mp ?_
    exact hc _ (mem_map.mpr ⟨a, mem_filter.mpr ⟨ha, RuleAtom.isActiveForVar_iff.mpr hmv⟩, rfl⟩)
  · rintro ⟨_, hnew⟩ scan hscan
    rcases mem_map.mp hscan with ⟨a, hmem, rfl⟩
    rcases mem_filter.mp hmem with ⟨ha, hact⟩
    have hmv := RuleAtom.isActiveForVar_iff.mp hact
    exact (mem_scan ha (hscans a ha) (hlin a ha) hmv).mpr (hnew a ha hmv)

variable {fuel : Nat}

/-- A step that binds a variable: the join over its scans. -/
theorem joinStep_cons_of_used {rest : List Nat} (hv : Used atoms v) :
    joinStep atoms n fuel (v :: rest) (bindUpTo atoms b v) =
      if (scansOf atoms b v).any List.isEmpty then .ok [] else leapfrogM .outOfFuel advance
        (fun x => joinStep atoms n fuel rest (bindUpTo atoms (Function.update b v x) (v + 1)))
        fuel (scansOf atoms b v) := by
  have hne : (atoms.filter fun a => a.fields.isActiveForVar v) ≠ [] := by
    intro h
    have hscan : scansOf atoms b v ≠ [] := scansOf_ne_nil.mpr hv
    rw [scansOf, h] at hscan
    exact hscan rfl
  rw [joinStep]
  simp only [List.isEmpty_iff, hne, if_false, update_bindUpTo hv]
  rfl

theorem joinStep_cons_of_not_used {rest : List Nat}
    (hv : ¬Used atoms v) : joinStep atoms n fuel (v :: rest) (bindUpTo atoms b v) =
      joinStep atoms n fuel rest (bindUpTo atoms b (v + 1)) := by
  have hnil : (atoms.filter fun a => a.fields.isActiveForVar v) = [] := by
    rw [filter_eq_nil_iff]
    intro a ha hact
    exact hv ⟨a, ha, RuleAtom.isActiveForVar_iff.mp hact⟩
  rw [joinStep, bindUpTo_succ hv]
  simp only [hnil, isEmpty_nil, if_true]

theorem mapM_eq_some {α β : Type} {f : α → Option β} {g : α → β} :
    ∀ {l : List α}, (∀ x ∈ l, f x = some (g x)) → l.mapM f = some (l.map g) := by
  intro l
  induction l with
  | nil => exact fun _ => rfl
  | cons x xs ih =>
    intro h
    rcases forall_mem_cons.mp h with ⟨hx, hxs⟩
    rw [mapM_cons, hx, ih hxs]
    rfl

theorem mapM_eq_none {α β : Type} {f : α → Option β} {x : α} (hx : f x = none) :
    ∀ {l : List α}, x ∈ l → l.mapM f = none := by
  intro l
  induction l with
  | nil => exact nofun
  | cons y ys ih =>
    intro h
    rw [mapM_cons]
    rcases mem_cons.mp h with rfl | h
    · rw [hx]
      rfl
    · rw [ih h]
      cases f y <;> rfl

theorem joinStep_nil_of_used (h : ∀ w < n, Used atoms w) :
    joinStep atoms n fuel [] (bindUpTo atoms b n) = .ok [(List.range n).map b] := by
  have hall : (List.range n).mapM (bindUpTo atoms b n) = some ((List.range n).map b) := by
    apply mapM_eq_some
    intro w hw
    rw [mem_range] at hw
    exact bindUpTo_eq_some.mpr ⟨hw, h w hw, rfl⟩
  rw [joinStep, hall]

theorem joinStep_nil_of_not_used {w : Nat} (hw : w < n)
    (h : ¬Used atoms w) : joinStep atoms n fuel [] (bindUpTo atoms b n) = .error .fullyBound := by
  have hnone : bindUpTo atoms b n w = none := by
    rw [Option.eq_none_iff_forall_ne_some]
    intro c hc
    exact h (bindUpTo_eq_some.mp hc).2.1
  rw [joinStep, mapM_eq_none hnone (mem_range.mpr hw)]

include hscans hlin in
/-- A join that nothing blocks returns, for all fuel that is large enough, the
bindings that match every atom, each once. -/
theorem joinStep_ok (m : Nat) : ∀ (v : Nat) (b : Nat → Nat), v + m = n → MatchesUpTo atoms b v →
    ¬Blocked atoms n b v →
    ∃ out, Returns (fun fuel => joinStep atoms n fuel (List.range' v m) (bindUpTo atoms b v)) out ∧ out.Nodup ∧
      ∀ l, l ∈ out ↔ ∃ b', (∀ u < v, b' u = b u) ∧ MatchesUpTo atoms b' n ∧ l = (List.range n).map b' := by
  induction m with
  | zero =>
    intro v b hvn hm hfree
    obtain rfl : v = n := by omega
    have hused : ∀ w < v, Used atoms w := by
      intro w hw
      by_contra hu
      exact hfree ⟨b, fun _ _ => rfl, .inr ⟨⟨w, hw, hu⟩, hm⟩⟩
    refine ⟨[(List.range v).map b], ⟨0, fun fuel _ => joinStep_nil_of_used hused⟩, nodup_singleton _, ?_⟩
    intro l
    rw [mem_singleton]
    constructor
    · intro hl
      exact ⟨b, fun _ _ => rfl, hm, hl⟩
    · rintro ⟨b', hagree, _, rfl⟩
      apply map_congr_left
      intro w hw
      exact hagree w (mem_range.mp hw)
  | succ m ih =>
    intro v b hvn hm hfree
    rw [range'_succ]
    by_cases hv : Used atoms v
    · -- the values that the variable can take, and for each of them the rest of the join
      have hstep : ∀ x, ∃ out, x ∈ inter (scansOf atoms b v) →
          x < u64Max ∧ Returns (fun fuel => joinStep atoms n fuel (List.range' (v + 1) m)
              (bindUpTo atoms (Function.update b v x) (v + 1))) out ∧ out.Nodup ∧
            ∀ l, l ∈ out ↔ ∃ b', (∀ u < v + 1, b' u = Function.update b v x u) ∧
              MatchesUpTo atoms b' n ∧ l = (List.range n).map b' := by
        intro x
        by_cases hx : x ∈ inter (scansOf atoms b v)
        · have hmx := (mem_inter_scansOf hscans hlin hv hm).mp hx
          have hlt : x < u64Max := by
            by_contra hge
            refine hfree ⟨Function.update b v x, update_agree b v x,
              .inl ⟨v, Nat.le_refl v, by omega, hv, hmx, ?_⟩⟩
            rw [Function.update_self]
            omega
          have hfree' : ¬Blocked atoms n (Function.update b v x) (v + 1) :=
            fun h => hfree (h.of_succ (update_agree b v x))
          rcases ih (v + 1) _ (by omega) hmx hfree' with ⟨out, hout, hnodup, hmem⟩
          exact ⟨out, fun _ => ⟨hlt, hout, hnodup, hmem⟩⟩
        · exact ⟨[], fun h => absurd h hx⟩
      choose found hfound using hstep
      rcases Returns.uniform fun x hx => (hfound x hx).2.1 with ⟨k, hk⟩
      refine ⟨(inter (scansOf atoms b v)).flatMap found,
        ⟨max k (remaining (scansOf atoms b v) + 1), ?_⟩, ?_, ?_⟩
      · intro fuel hfuel
        simp only [joinStep_cons_of_used hv]
        have hne : scansOf atoms b v ≠ [] := scansOf_ne_nil.mpr hv
        have hasc := scansOf_ascending hscans b v
        by_cases hend : (scansOf atoms b v).any List.isEmpty = true
        · rw [if_pos hend, inter_eq_nil_of_any_isEmpty hne hasc hend]
          rfl
        · rw [if_neg hend]
          exact leapfrogM_ok hne hasc (by omega) (fun x hx => hk x hx fuel (by omega))
            fun x hx ks hks => advance_of_lt (hfound x hx).1 hks
      · -- different values give different bindings
        refine nodup_flatMap.mpr ⟨fun x hx => (hfound x hx).2.2.1, ?_⟩
        refine (inter_pairwise (scansOf_ascending hscans b v)).imp_of_mem fun hx hy hlt => ?_
        refine disjoint_left.mpr fun l hl hl' => ?_
        rcases ((hfound _ hx).2.2.2 l).mp hl with ⟨b₁, h₁, _, rfl⟩
        rcases ((hfound _ hy).2.2.2 _).mp hl' with ⟨b₂, h₂, _, heq⟩
        have hval := map_inj_left.mp heq v (mem_range.mpr (by omega))
        rw [h₁ v (Nat.lt_succ_self v), h₂ v (Nat.lt_succ_self v), Function.update_self,
          Function.update_self] at hval
        omega
      · intro l
        rw [mem_flatMap]
        constructor
        · rintro ⟨x, hx, hl⟩
          rcases ((hfound x hx).2.2.2 l).mp hl with ⟨b', hagree, hmb, rfl⟩
          refine ⟨b', ?_, hmb, rfl⟩
          intro u hu
          rw [hagree u (by omega), update_agree b v x u hu]
        · rintro ⟨b', hagree, hmb, rfl⟩
          have hx : b' v ∈ inter (scansOf atoms b v) := by
            rw [mem_inter_scansOf hscans hlin hv hm]
            exact (hmb.mono (by omega)).congr fun u hu _ => (agree_update hagree u hu).symm
          exact ⟨b' v, hx, ((hfound _ hx).2.2.2 _).mpr ⟨b', agree_update hagree, hmb, rfl⟩⟩
    · have hm' : MatchesUpTo atoms b (v + 1) :=
        matchesUpTo_succ.mpr ⟨hm, fun a ha hmv => absurd ⟨a, ha, hmv⟩ hv⟩
      -- a complete match would be blocked by this variable
      have hnone : ∀ b', (∀ u < v, b' u = b u) → ¬MatchesUpTo atoms b' n :=
        fun b' hagree hmb => hfree ⟨b', hagree, .inr ⟨⟨v, by omega, hv⟩, hmb⟩⟩
      rcases ih (v + 1) b (by omega) hm' fun h => hfree (h.of_succ fun _ _ => rfl) with
        ⟨out, hout, hnodup, hmem⟩
      refine ⟨out, ?_, hnodup, ?_⟩
      · simp only [joinStep_cons_of_not_used hv]
        exact hout
      · intro l
        rw [hmem]
        constructor
        · rintro ⟨b', hagree, hmb, _⟩
          exact absurd hmb (hnone b' fun u hu => hagree u (by omega))
        · rintro ⟨b', hagree, hmb, _⟩
          exact absurd hmb (hnone b' hagree)

include hscans hlin in
/-- By induction on the variables left: a join that returns was blocked nowhere. -/
theorem joinStep_ok_inv (m : Nat) : ∀ (v : Nat) (b : Nat → Nat) (out : List (List Nat)),
    v + m = n → MatchesUpTo atoms b v →
    joinStep atoms n fuel (List.range' v m) (bindUpTo atoms b v) = .ok out → ¬Blocked atoms n b v := by
  induction m with
  | zero =>
    rintro v b out hvn hm hout ⟨b', hagree, ⟨w, hle, hlt, _⟩ | ⟨⟨w, hw, hu⟩, _⟩⟩
    · omega
    · obtain rfl : v = n := by omega
      rw [show List.range' v 0 = [] from rfl, joinStep_nil_of_not_used hw hu] at hout
      cases hout
  | succ m ih =>
    rintro v b out hvn hm hout ⟨b', hagree, hbad⟩
    rw [range'_succ] at hout
    have hmv : MatchesUpTo atoms b' (v + 1) := by
      rcases hbad with ⟨w, hle, hlt, _, hmw, _⟩ | ⟨_, hmn⟩
      · exact hmw.mono (by omega)
      · exact hmn.mono (by omega)
    by_cases hv : Used atoms v
    · have hm' : MatchesUpTo atoms (Function.update b v (b' v)) (v + 1) :=
        hmv.congr fun u hu _ => (agree_update hagree u hu).symm
      have hx : b' v ∈ inter (scansOf atoms b v) := (mem_inter_scansOf hscans hlin hv hm).mpr hm'
      have hne : scansOf atoms b v ≠ [] := scansOf_ne_nil.mpr hv
      have hasc := scansOf_ascending hscans b v
      rw [joinStep_cons_of_used hv] at hout
      by_cases hend : (scansOf atoms b v).any List.isEmpty = true
      · rw [inter_eq_nil_of_any_isEmpty hne hasc hend] at hx
        cases hx
      · rw [if_neg hend] at hout
        rcases leapfrogM_ok_inv advance_moves hne hasc hout _ hx with ⟨⟨found, hvisit⟩, ks, hmove⟩
        have hlt : b' v < u64Max := by
          by_contra hge
          rw [advance_of_ge (by omega)] at hmove
          exact absurd hmove (cons_ne_self _ _)
        -- the value is fine, so that it is a later variable that goes wrong
        refine ih (v + 1) _ _ (by omega) hm' hvisit ⟨b', agree_update hagree, ?_⟩
        rcases hbad with ⟨w, hle, hwn, huw, hmw, hmax⟩ | hbad
        · refine .inl ⟨w, ?_, hwn, huw, hmw, hmax⟩
          have hne : w ≠ v := by
            rintro rfl
            omega
          omega
        · exact .inr hbad
    · rw [joinStep_cons_of_not_used hv] at hout
      have hm' : MatchesUpTo atoms b (v + 1) :=
        matchesUpTo_succ.mpr ⟨hm, fun a ha hmv => absurd ⟨a, ha, hmv⟩ hv⟩
      -- the value of an unused variable does not matter
      have hsame : ∀ u, Used atoms u → Function.update b' v (b v) u = b' u := by
        intro u hu
        apply Function.update_of_ne
        rintro rfl
        exact hv hu
      refine ih (v + 1) b out (by omega) hm' hout ⟨Function.update b' v (b v), ?_, ?_⟩
      · intro u hu
        by_cases huv : u = v
        · rw [huv, Function.update_self]
        · rw [Function.update_of_ne huv]
          exact hagree u (by omega)
      · rcases hbad with ⟨w, hle, hwn, huw, hmw, hmax⟩ | ⟨hgap, hmn⟩
        · have hne : w ≠ v := by
            rintro rfl
            exact hv huw
          refine .inl ⟨w, by omega, hwn, huw, hmw.congr fun u _ hu => hsame u hu, ?_⟩
          rw [hsame w huw]
          exact hmax
        · exact .inr ⟨hgap, hmn.congr fun u _ hu => hsame u hu⟩

include hscans hlin in
theorem leapfrogJoin_lists (hfree : ∀ b, ¬Blocked atoms n b 0) :
    ∃ out, Returns (fun fuel => leapfrogJoin atoms n fuel) out ∧ out.Nodup ∧
      ∀ l, l ∈ out ↔ ∃ b, MatchesUpTo atoms b n ∧ l = (List.range n).map b := by
  have hm : MatchesUpTo atoms (fun _ => 0) 0 := by
    rintro a ha ⟨u, hu, _⟩
    omega
  rcases joinStep_ok hscans hlin n 0 (fun _ => 0) (Nat.zero_add n) hm (hfree _) with ⟨out, hout, hnodup, hmem⟩
  simp only [bindUpTo_zero, ← range_eq_range'] at hout
  refine ⟨out, hout, hnodup, fun l => (hmem l).trans (exists_congr fun b' => ?_)⟩
  exact and_iff_right fun u hu => absurd hu (Nat.not_lt_zero u)

include hscans hlin in
/-- The join of all variables. -/
theorem leapfrogJoin_ok (hfree : ∀ b, ¬Blocked atoms n b 0) :
    ∃ out, Returns (fun fuel => leapfrogJoin atoms n fuel) out ∧
      ∀ l, l ∈ out ↔ ∃ b, MatchesUpTo atoms b n ∧ l = (List.range n).map b := by
  rcases leapfrogJoin_lists hscans hlin hfree with ⟨out, hout, _, hmem⟩
  exact ⟨out, hout, hmem⟩

include hscans hlin in
theorem leapfrogJoin_ok_inv {out : List (List Nat)}
    (h : leapfrogJoin atoms n fuel = .ok out) (b : Nat → Nat) : ¬Blocked atoms n b 0 := by
  have hm : MatchesUpTo atoms b 0 := by
    rintro a ha ⟨u, hu, _⟩
    omega
  rw [leapfrogJoin, range_eq_range', ← bindUpTo_zero atoms b] at h
  exact joinStep_ok_inv hscans hlin n 0 b out (Nat.zero_add n) hm h

end Spec

end Nova.Reasoning
