import Nova.Louds.Ring

/-!
# Join scans of a ring

What the joins see of a ring. A scan seeks the bound columns in an order that
starts with them and goes on with the target column, and has the keys of the level
it reaches in front of it. `mem_joinScan`: these are the values that the target
takes in the triples with the bound values; `joinScan_ascending`: in ascending
order.
-/

namespace Nova

open Nova.Lib List

namespace GraphRing

/-- `[s, p, o][field]`. -/
def fieldVal (s p o : Option Nat) : Nat → Option Nat
  | 0 => s
  | 1 => p
  | 2 => o
  | _ => none

/-- `bound_fields_excluding`: the bound fields other than the target, ascending. -/
def boundFieldsExcluding (s p o : Option Nat) (target : Nat) : List Nat :=
  (List.range 3).filter fun f => (fieldVal s p o f).isSome && f != target

/-- `choose_array_for_lftj`: bound fields first, then the target. `none` stands for
its `unreachable!`. -/
def chooseArrayForLftj (bound : List Nat) (target : Nat) : Option SortOrder :=
  let ignored := (List.range 3).filter fun f => f != target && !bound.contains f
  match bound ++ target :: ignored with
  | [0, 1, 2] => some .spo
  | [0, 2, 1] => some .sop
  | [1, 0, 2] => some .pso
  | [1, 2, 0] => some .pos
  | [2, 1, 0] => some .ops
  | [2, 0, 1] => some .osp
  | _ => none

/-- `join_scan`: the keys that the returned iterator has in front of it. -/
def joinScan (r : GraphRing) (s p o : Option Nat) (target : Nat) : List Nat :=
  match r.data with
  | none => []
  | some data =>
    let bound := boundFieldsExcluding s p o target
    match chooseArrayForLftj bound target with
    | none => []
    | some order =>
      match bound.filterMap (fieldVal s p o) with
      | [] => (data.tries order).keys
      | [v] => ((data.tries order).find v).elim [] Level.keys
      | v :: w :: _ => (((data.tries order).find v).bind fun it => it.find w).elim [] Level.keys

/-- A column of a triple. -/
def column (t : Row) : Nat → Nat
  | 0 => t.1
  | 1 => t.2.1
  | _ => t.2.2

theorem exists_row_iff {data : RingData} (ord : SortOrder) {P : Row → Prop} :
    (∃ row ∈ (data.tries ord).rows, P row) ↔ ∃ t ∈ (data.tries .spo).rows, P (ord.ofSpo t) := by
  constructor
  · rintro ⟨row, hrow, hP⟩
    refine ⟨ord.toSpo row, (mem_rows_iff ord).mp hrow, ?_⟩
    rwa [ord.ofSpo_toSpo]
  · rintro ⟨t, ht, hP⟩
    refine ⟨ord.ofSpo t, (mem_rows_iff ord).mpr ?_, hP⟩
    rwa [ord.toSpo_ofSpo]

variable {r : GraphRing} {s p o : Option Nat} {target : Nat}

/-- A scan yields the values of the target in the triples with the bound values. -/
theorem mem_joinScan (htarget : target < 3) (hfree : fieldVal s p o target = none) {x : Nat} :
    x ∈ r.joinScan s p o target ↔ ∃ t ∈ r.triples, column t target = x ∧ Matches s p o t := by
  simp only [mem_triples, spoTriples_eq]
  unfold joinScan
  cases r.data with
  | none => simp
  | some data =>
    have hkeys₀ := fun ord => (Trie3.mem_keys₀ (data.noStub ord)).trans
      (exists_row_iff ord (P := fun row => row.1 = x))
    have hkeys₁ := fun ord v => (Trie3.mem_keys₁ (data.sorted ord) (data.noStub ord)).trans
      (exists_row_iff ord (P := fun row => row.1 = v ∧ row.2.1 = x))
    have hkeys₂ := fun ord v w => (Trie3.mem_keys₂ (data.sorted ord)).trans
      (exists_row_iff ord (P := fun row => row.1 = v ∧ row.2.1 = w ∧ row.2.2 = x))
    have hcases : target = 0 ∨ target = 1 ∨ target = 2 := by omega
    rcases hcases with rfl | rfl | rfl
    all_goals
      subst hfree
    -- the other two columns are bound or not, and the order follows from that
    · cases p <;> cases o <;>
        simp [boundFieldsExcluding, chooseArrayForLftj, range_succ, fieldVal, hkeys₀, hkeys₁, hkeys₂,
          SortOrder.ofSpo, column, Matches, and_comm, and_left_comm]
    · cases s <;> cases o <;>
        simp [boundFieldsExcluding, chooseArrayForLftj, range_succ, fieldVal, hkeys₀, hkeys₁, hkeys₂,
          SortOrder.ofSpo, column, Matches, and_comm, and_left_comm]
    · cases s <;> cases p <;>
        simp [boundFieldsExcluding, chooseArrayForLftj, range_succ, fieldVal, hkeys₀, hkeys₁, hkeys₂,
          SortOrder.ofSpo, column, Matches, and_comm]

theorem joinScan_ascending : (r.joinScan s p o target).Pairwise (· < ·) := by
  have hlevel : ∀ {α : Type} {l : Level α}, l.Increasing → l.keys.Pairwise (· < ·) :=
    fun h => pairwise_map.mpr h
  unfold joinScan
  split
  · exact .nil
  · next data _ =>
    dsimp only
    split
    · exact .nil
    · next ord _ =>
      have hsorted := data.sorted ord
      split
      · exact hlevel hsorted.top
      · next v _ =>
        cases hfind : (data.tries ord).find v with
        | none => exact .nil
        | some l => exact hlevel (hsorted.mid _ ((Level.find_eq_some hsorted.top).mp hfind))
      · next v w _ _ =>
        cases hfind : (data.tries ord).find v with
        | none => exact .nil
        | some l =>
          have hl := (Level.find_eq_some hsorted.top).mp hfind
          rw [Option.bind_some]
          cases hfind' : l.find w with
          | none => exact .nil
          | some l' =>
            exact hlevel (hsorted.bottom _ hl _ ((Level.find_eq_some (hsorted.mid _ hl)).mp hfind'))

end GraphRing

end Nova
