import Nova.Core.Term
import Mathlib.Data.List.Nodup

/-!
# Solution mappings

A `Solution` is a partial map from variables to terms, kept as a header of
variables and a row of values of the same length. What a reader sees of it is
`get`; two solutions are the same mapping when they `get` the same.

The per-row cache of `BNODE()` is bookkeeping outside the mapping and is left
out.
-/

namespace Nova

open List

structure Variable where
  name : String
deriving DecidableEq, Repr

/-- What a solution says: the term of each bound variable. -/
abbrev Mapping := Variable → Option Term

structure Solution where
  vars : List Variable
  values : List (Option Term)
  length_eq : vars.length = values.length
deriving DecidableEq, Repr

namespace Solution

def new : Solution := ⟨[], [], rfl⟩

/-- `Solution::positional`: a shared header and the values of one row. -/
def positional (vars : List Variable) (values : List (Option Term))
    (h : vars.length = values.length) : Solution :=
  ⟨vars, values, h⟩

/-- `position_of`: the place of `v` in a header. -/
def positionIn (vars : List Variable) (v : Variable) : Option Nat :=
  vars.findIdx? fun w => w = v

/-- `get` / `get_arc`. -/
def get (sol : Solution) (v : Variable) : Option Term :=
  match positionIn sol.vars v with
  | none => none
  | some i => (sol.values[i]?).join

/-- Binds `v`, overwriting what it was bound to. -/
def insert (sol : Solution) (v : Variable) (t : Term) : Solution :=
  match positionIn sol.vars v with
  | some i =>
    { vars := sol.vars
      values := sol.values.set i (some t)
      length_eq := by rw [List.length_set]; exact sol.length_eq }
  | none =>
    { vars := sol.vars ++ [v]
      values := sol.values ++ [some t]
      length_eq := by simp [sol.length_eq] }

def contains (sol : Solution) (v : Variable) : Bool := (sol.get v).isSome

/-- The bindings, in the order of the header. -/
def iter (sol : Solution) : List (Variable × Term) :=
  (sol.vars.zip sol.values).filterMap fun cell => cell.2.map fun t => (cell.1, t)

/-- `merge_compatible`: both solutions, if they agree where both are bound. -/
def mergeCompatible (sol other : Solution) : Option Solution :=
  if other.iter.all fun cell => (sol.get cell.1).all fun t => t = cell.2 then
    some (other.iter.foldl (fun merged cell => merged.insert cell.1 cell.2) sol)
  else none

/-- `project`: unbound variables leave the header. -/
def project (sol : Solution) (vars : List Variable) : Solution :=
  let kept := vars.filterMap fun v => (sol.get v).map fun t => (v, t)
  { vars := kept.map Prod.fst
    values := kept.map fun cell => some cell.2
    length_eq := by simp }

end Solution

/-! ## What a reader sees -/

namespace Solution

theorem positionIn_eq_some {vars : List Variable} {v : Variable} {i : Nat}
    (h : positionIn vars v = some i) : vars[i]? = some v := by
  rw [positionIn, findIdx?_eq_some_iff_getElem] at h
  rcases h with ⟨hlt, hv, -⟩
  rw [getElem?_eq_getElem hlt]
  simpa using hv

theorem positionIn_eq_none {vars : List Variable} {v : Variable} :
    positionIn vars v = none ↔ v ∉ vars := by
  rw [positionIn, findIdx?_eq_none_iff]
  constructor
  · intro h hmem
    simpa using h v hmem
  · intro h w hw
    have hne : w ≠ v := fun heq => h (heq ▸ hw)
    simpa using hne

@[simp] theorem get_new (v : Variable) : new.get v = none := rfl

/-- A binding is read back, and the other variables are as before. -/
@[simp] theorem get_insert (sol : Solution) (v w : Variable) (t : Term) :
    (sol.insert v t).get w = if w = v then some t else sol.get w := by
  unfold insert
  cases hv : positionIn sol.vars v with
  | some i =>
    simp only [get]
    have hi := positionIn_eq_some hv
    by_cases hw : w = v
    · rw [hw, hv, if_pos rfl]
      have hlt : i < sol.values.length := by
        rw [← sol.length_eq]
        exact (List.getElem?_eq_some_iff.mp hi).1
      simp [hlt]
    · rw [if_neg hw]
      cases hpos : positionIn sol.vars w with
      | none => rfl
      | some j =>
        -- different variables stand at different places
        have hj := positionIn_eq_some hpos
        have hij : i ≠ j := by
          intro heq
          rw [heq, hj] at hi
          exact hw (Option.some.inj hi)
        simp only [getElem?_set_ne hij]
  | none =>
    simp only [get]
    have happ : positionIn (sol.vars ++ [v]) w =
        (positionIn sol.vars w).or (if w = v then some sol.vars.length else none) := by
      unfold positionIn
      by_cases hw : w = v
      · simp [hw]
      · have hne : v ≠ w := fun heq => hw heq.symm
        simp [hw, hne]
    rw [happ]
    by_cases hw : w = v
    · rw [hw, hv]
      simp [sol.length_eq]
    · rw [if_neg hw, if_neg hw]
      cases hpos : positionIn sol.vars w with
      | none => rfl
      | some j =>
        have hlt : j < sol.values.length := by
          rw [← sol.length_eq]
          exact (List.getElem?_eq_some_iff.mp (positionIn_eq_some hpos)).1
        simp only [Option.some_or, getElem?_append_left hlt]

theorem get_positional {vars : List Variable} {values : List (Option Term)}
    (h : vars.length = values.length) (hnodup : vars.Nodup) {i : Nat} {v : Variable}
    (hi : vars[i]? = some v) : (positional vars values h).get v = (values[i]?).join := by
  unfold get positional
  rcases List.getElem?_eq_some_iff.mp hi with ⟨hlt, hv⟩
  cases hpos : positionIn vars v with
  | none =>
    have hmem : v ∈ vars := mem_of_getElem? hi
    exact absurd hmem (positionIn_eq_none.mp hpos)
  | some j =>
    have hj := positionIn_eq_some hpos
    have hij : j = i := by
      rcases List.getElem?_eq_some_iff.mp hj with ⟨hlt', hv'⟩
      exact (hnodup.getElem_inj_iff).mp (hv'.trans hv.symm)
    rw [hij]

end Solution

end Nova
