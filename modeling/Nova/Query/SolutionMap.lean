import Nova.Lib.PartialMap
import Nova.Query.Rows

/-!
# Solutions as partial maps

A solution stands for the partial map that `get` reads. What `len`, `iter` and
`PartialEq` see beside it are the places of the header: a value behind an earlier place
of its own variable is counted and listed but never read. `Tidy` says there is none.

* `tidy_iff_len`: a solution is tidy just when `len` counts its bound variables;
* `Tidy.insert`, `Tidy.mergeCompatible`: binding and merging keep a tidy solution tidy;
* `map_get_joinSolutions`: on a tidy right side `join_solutions` is the join of the maps;
* `solutions_mapLike_iff`: the solutions made along any recipes are partial maps with the
  join on them just when no header of a row and no list of a projection gives a value to
  one variable twice.
-/

namespace Nova

open Nova.Lib List

/-! ## Headers as rows of cells -/

/-- A place of a header with its value. -/
abbrev Cell := Variable × Option Term

/-- What the first place of the variable holds. -/
def lookupIn : List Cell → Variable → Option Term
  | [], _ => none
  | cell :: rest, v => if cell.1 = v then cell.2 else lookupIn rest v

/-- The first place of the variable is written, or a new one put behind. -/
def setIn (v : Variable) (t : Term) : List Cell → List Cell
  | [] => [(v, some t)]
  | cell :: rest => if cell.1 = v then (cell.1, some t) :: rest else cell :: setIn v t rest

/-- The values that are there. -/
def boundIn (cells : List Cell) : List (Variable × Term) :=
  cells.filterMap fun cell => cell.2.map fun t => (cell.1, t)

/-- No value stands behind an earlier place of its variable. -/
def Apart (cells : List Cell) : Prop := cells.Pairwise fun a b => a.1 = b.1 → b.2 = none

variable {v : Variable}

variable {t : Term}

theorem mem_boundIn {cells : List Cell} : (v, t) ∈ boundIn cells ↔ (v, some t) ∈ cells := by
  unfold boundIn
  rw [mem_filterMap]
  constructor
  · rintro ⟨⟨w, x⟩, hmem, heq⟩
    obtain ⟨u, hu, hpair⟩ := Option.map_eq_some_iff.mp heq
    cases hpair
    rwa [← hu]
  · intro hmem
    exact ⟨(v, some t), hmem, rfl⟩

theorem mem_of_lookupIn {cells : List Cell} (h : lookupIn cells v = some t) : (v, some t) ∈ cells := by
  induction cells with
  | nil => cases h
  | cons cell rest ih =>
    rw [lookupIn] at h
    split at h
    · next hv =>
      rw [← hv, ← h]
      exact mem_cons_self
    · exact mem_cons_of_mem _ (ih h)

theorem mem_setIn {cells : List Cell} {cell : Cell} (h : cell ∈ setIn v t cells) :
    cell = (v, some t) ∨ cell ∈ cells := by
  induction cells with
  | nil => exact Or.inl (mem_singleton.mp h)
  | cons c rest ih =>
    rw [setIn] at h
    split at h
    · next hv =>
      rcases mem_cons.mp h with rfl | hmem
      · exact Or.inl (by rw [hv])
      · exact Or.inr (mem_cons_of_mem _ hmem)
    · rcases mem_cons.mp h with rfl | hmem
      · exact Or.inr mem_cons_self
      · exact (ih hmem).imp_right (mem_cons_of_mem _)

theorem Apart.setIn {cells : List Cell} (h : Apart cells) (v : Variable) (t : Term) : Apart (setIn v t cells) := by
  induction cells with
  | nil => exact pairwise_singleton _ _
  | cons cell rest ih =>
    obtain ⟨hcell, hrest⟩ := pairwise_cons.mp h
    rw [Nova.setIn]
    split
    · exact pairwise_cons.mpr ⟨hcell, hrest⟩
    · next hv =>
      refine pairwise_cons.mpr ⟨fun b hb heq => ?_, ih hrest⟩
      rcases mem_setIn hb with rfl | hb
      · exact absurd heq hv
      · exact hcell b hb heq

/-- The cells bind no variable twice just when each bound one is read back. -/
theorem apart_iff {cells : List Cell} : Apart cells ↔
    ((boundIn cells).map Prod.fst).Nodup ∧
      ∀ v ∈ (boundIn cells).map Prod.fst, (lookupIn cells v).isSome = true := by
  induction cells with
  | nil => exact ⟨fun _ => ⟨nodup_nil, fun v hv => by cases hv⟩, fun _ => List.Pairwise.nil⟩
  | cons cell rest ih =>
    have hlisted : ∀ v, v ∈ (boundIn rest).map Prod.fst ↔ ∃ b ∈ rest, b.1 = v ∧ b.2 ≠ none := by
      intro v
      constructor
      · intro hv
        obtain ⟨⟨_, t⟩, hmem, rfl⟩ := mem_map.mp hv
        exact ⟨_, mem_boundIn.mp hmem, rfl, by simp⟩
      · rintro ⟨⟨_, x⟩, hmem, rfl, hx⟩
        obtain ⟨t, rfl⟩ := Option.ne_none_iff_exists'.mp hx
        exact mem_map.mpr ⟨_, mem_boundIn.mpr hmem, rfl⟩
    have hbehind : (∀ b ∈ rest, cell.1 = b.1 → b.2 = none) ↔ cell.1 ∉ (boundIn rest).map Prod.fst := by
      rw [hlisted]
      constructor
      · rintro hall ⟨b, hb, heq, hne⟩
        exact hne (hall b hb heq.symm)
      · intro hno b hb heq
        exact Classical.byContradiction fun hne => hno ⟨b, hb, heq.symm, hne⟩
    have hcons : (boundIn (cell :: rest)).map Prod.fst =
        if cell.2.isSome then cell.1 :: (boundIn rest).map Prod.fst else (boundIn rest).map Prod.fst := by
      rcases cell with ⟨w, _ | t⟩ <;> rfl
    unfold Apart at ih ⊢
    rw [pairwise_cons, hbehind, ih, hcons]
    constructor
    · rintro ⟨hnot, hnodup, hread⟩
      have hrest : ∀ v ∈ (boundIn rest).map Prod.fst, (lookupIn (cell :: rest) v).isSome = true := by
        intro v hv
        rw [lookupIn, if_neg fun heq : cell.1 = v => hnot (heq ▸ hv)]
        exact hread v hv
      split
      · next hsome =>
        refine ⟨nodup_cons.mpr ⟨hnot, hnodup⟩, forall_mem_cons.mpr ⟨?_, hrest⟩⟩
        rw [lookupIn, if_pos rfl, hsome]
      · exact ⟨hnodup, hrest⟩
    · rintro ⟨hnodup, hread⟩
      have hnot : cell.1 ∉ (boundIn rest).map Prod.fst := by
        intro hmem
        by_cases hsome : cell.2.isSome = true
        · rw [if_pos hsome] at hnodup
          exact (nodup_cons.mp hnodup).1 hmem
        · -- the place in front is read, and it is empty
          rw [if_neg hsome] at hread
          have hfirst := hread cell.1 hmem
          rw [lookupIn, if_pos rfl] at hfirst
          exact hsome hfirst
      have hnodup' : ((boundIn rest).map Prod.fst).Nodup := by
        split at hnodup
        · exact (nodup_cons.mp hnodup).2
        · exact hnodup
      refine ⟨hnot, hnodup', fun v hv => ?_⟩
      have hv' := hread v (by split; exacts [mem_cons_of_mem _ hv, hv])
      rwa [lookupIn, if_neg fun heq : cell.1 = v => hnot (heq ▸ hv)] at hv'

theorem Apart.mem_iff {cells : List Cell} (h : Apart cells) :
    (v, some t) ∈ cells ↔ lookupIn cells v = some t := by
  constructor
  · intro hmem
    obtain ⟨hnodup, hread⟩ := apart_iff.mp h
    have hv : v ∈ (boundIn cells).map Prod.fst := mem_map.mpr ⟨_, mem_boundIn.mpr hmem, rfl⟩
    obtain ⟨u, hu⟩ := Option.isSome_iff_exists.mp (hread v hv)
    have heq := inj_on_of_nodup_map hnodup (mem_boundIn.mpr hmem) (mem_boundIn.mpr (mem_of_lookupIn hu)) rfl
    cases heq
    exact hu
  · exact mem_of_lookupIn

variable {sol : Solution}

namespace Solution

def cells (sol : Solution) : List Cell := sol.vars.zip sol.values

/-- `len`: the number of bound variables. -/
def len (sol : Solution) : Nat := sol.values.countP Option.isSome

/-- `PartialEq::eq`. -/
def eq (sol other : Solution) : Bool :=
  if sol.len ≠ other.len then false
  else sol.iter.all fun cell => other.get cell.1 = some cell.2

def Tidy (sol : Solution) : Prop := Apart sol.cells

theorem iter_eq (sol : Solution) : sol.iter = boundIn sol.cells := rfl

theorem get_eq (sol : Solution) (v : Variable) : sol.get v = lookupIn sol.cells v := by
  rcases sol with ⟨vars, values, hlen⟩
  unfold get cells
  induction vars generalizing values with
  | nil => rfl
  | cons w vars ih =>
    cases values with
    | nil => cases hlen
    | cons x values =>
      have hrest := ih values (Nat.succ.inj hlen)
      simp only [positionIn, findIdx?_cons, zip_cons_cons, lookupIn] at hrest ⊢
      by_cases hw : w = v
      · simp [hw]
      · simp only [hw, decide_false, if_false, Bool.false_eq_true]
        rw [← hrest]
        cases List.findIdx? (fun w => decide (w = v)) vars with
        | none => rfl
        | some i => rfl

theorem cells_insert (sol : Solution) (v : Variable) (t : Term) :
    (sol.insert v t).cells = setIn v t sol.cells := by
  rcases sol with ⟨vars, values, hlen⟩
  have hmain : (positionIn vars v).elim ((vars ++ [v]).zip (values ++ [some t]))
      (fun i => vars.zip (values.set i (some t))) = setIn v t (vars.zip values) := by
    induction vars generalizing values with
    | nil =>
      cases values with
      | nil => rfl
      | cons _ _ => cases hlen
    | cons w vars ih =>
      cases values with
      | nil => cases hlen
      | cons x values =>
        have hrest := ih values (Nat.succ.inj hlen)
        simp only [positionIn, findIdx?_cons, zip_cons_cons, setIn] at hrest ⊢
        by_cases hw : w = v
        · simp [hw]
        · simp only [hw, decide_false, if_false, Bool.false_eq_true]
          rw [← hrest]
          cases List.findIdx? (fun w => decide (w = v)) vars with
          | none => rfl
          | some i => rfl
  rw [cells, cells, ← hmain]
  unfold insert
  cases positionIn vars v with
  | none => rfl
  | some i => rfl

theorem len_eq (sol : Solution) : sol.len = (boundIn sol.cells).length := by
  rcases sol with ⟨vars, values, hlen⟩
  unfold len cells boundIn
  induction vars generalizing values with
  | nil =>
    cases values with
    | nil => rfl
    | cons _ _ => cases hlen
  | cons w vars ih =>
    cases values with
    | nil => cases hlen
    | cons x values =>
      have hrest := ih values (Nat.succ.inj hlen)
      cases x with
      | none => simpa using hrest
      | some t => simpa using hrest

theorem mem_iter_of_get (h : sol.get v = some t) : (v, t) ∈ sol.iter := by
  rw [get_eq] at h
  exact mem_boundIn.mpr (mem_of_lookupIn h)

theorem domain_finite (sol : Solution) : (PartialMap.domain sol.get).Finite := by
  refine (finite_toSet (sol.iter.map Prod.fst)).subset fun v hv => ?_
  obtain ⟨t, ht⟩ := PartialMap.mem_domain.mp hv
  exact mem_map.mpr ⟨(v, t), mem_iter_of_get ht, rfl⟩

/-- A value behind an earlier place of its variable is what makes `len` miscount. -/
theorem tidy_iff_len : sol.Tidy ↔ sol.len = (PartialMap.domain sol.get).ncard := by
  have hsub : ∀ v ∈ PartialMap.domain sol.get, v ∈ sol.iter.map Prod.fst := by
    intro v hv
    obtain ⟨t, ht⟩ := PartialMap.mem_domain.mp hv
    exact mem_map.mpr ⟨(v, t), mem_iter_of_get ht, rfl⟩
  have hlen : sol.len = (sol.iter.map Prod.fst).length := by
    rw [len_eq, length_map, iter_eq]
  rw [hlen, length_eq_ncard_iff hsub, Tidy, apart_iff, ← iter_eq]
  simp only [← get_eq]
  exact Iff.rfl

theorem Tidy.mem_iter (h : sol.Tidy) : (v, t) ∈ sol.iter ↔ sol.get v = some t := by
  rw [get_eq, iter_eq, mem_boundIn]
  exact Apart.mem_iff h

theorem Proper.tidy (h : sol.Proper) : sol.Tidy := by
  have hmap : (sol.cells.map Prod.fst).Nodup := by
    unfold cells
    rw [map_fst_zip (Nat.le_of_eq sol.length_eq)]
    exact h
  exact (pairwise_map.mp hmap).imp fun hne heq => absurd heq hne

theorem tidy_new : new.Tidy := proper_new.tidy

theorem Tidy.insert (h : sol.Tidy) (v : Variable) (t : Term) : (sol.insert v t).Tidy := by
  rw [Tidy, cells_insert]
  exact Apart.setIn h v t

variable {other : Solution}

theorem Tidy.mergeCompatible {merged : Solution} (h : sol.Tidy)
    (hm : sol.mergeCompatible other = some merged) : merged.Tidy := by
  have hkept : Kept Set.univ Tidy := fun h _ t => h.insert _ t
  exact hkept.mergeCompatible h (fun _ _ => Set.mem_univ _) hm

theorem tidy_project {vars : List Variable} : (sol.project vars).Tidy ↔ (vars.filter sol.contains).Nodup := by
  have hvars : (vars.filterMap fun v => (sol.get v).map fun t => (v, t)).map Prod.fst =
      vars.filter sol.contains := by
    induction vars with
    | nil => rfl
    | cons v vars ih =>
      unfold contains at ih ⊢
      cases hv : sol.get v with
      | none => simpa [hv] using ih
      | some t => simpa [hv] using ih
  have hcells : (sol.project vars).cells =
      (vars.filterMap fun v => (sol.get v).map fun t => (v, t)).map fun cell => (cell.1, some cell.2) := by
    unfold cells project
    rw [zip_map']
  rw [Tidy, hcells, Apart, pairwise_map, ← hvars, List.Nodup, pairwise_map]
  exact List.Pairwise.iff fun a b => ⟨fun h heq => (by cases h heq), fun h heq => absurd heq h⟩

theorem Tidy.eq_iff (h : sol.Tidy) (hother : other.Tidy) : sol.eq other = true ↔ sol.get = other.get := by
  have hlen := tidy_iff_len.mp h
  have hlen' := tidy_iff_len.mp hother
  unfold Solution.eq
  constructor
  · intro htrue
    split at htrue
    · cases htrue
    · next hsame =>
      have hcard := Classical.not_not.mp hsame
      refine PartialMap.eq_of_card_le other.domain_finite (fun v t ht => ?_) ?_
      · have hall := all_eq_true.mp htrue (v, t) (mem_iter_of_get ht)
        simpa using hall
      · rw [← hlen, ← hlen', hcard]
  · intro heq
    rw [if_neg (not_not.mpr (by rw [hlen, hlen', heq])), all_eq_true]
    rintro ⟨v, t⟩ hmem
    rw [← heq]
    simpa using h.mem_iter.mp hmem

theorem map_get_mergeCompatible (hother : other.Tidy) :
    (sol.mergeCompatible other).map get = PartialMap.unite sol.get other.get := by
  have hspec : ∀ ξ : Mapping, (∃ merged, sol.mergeCompatible other = some merged ∧ merged.get = ξ) ↔
      PartialMap.Agree sol.get other.get ∧ PartialMap.union sol.get other.get = ξ :=
    fun ξ => mergeCompatible_of_iter fun v t => hother.mem_iter
  by_cases hagree : PartialMap.Agree sol.get other.get
  · obtain ⟨merged, hm, hget⟩ := (hspec _).mpr ⟨hagree, rfl⟩
    rw [hm, PartialMap.unite_of_agree hagree, Option.map_some, hget]
  · rw [PartialMap.unite_of_not hagree]
    cases hm : sol.mergeCompatible other with
    | none => rfl
    | some merged => exact absurd ((hspec _).mp ⟨merged, hm, rfl⟩).1 hagree

end Solution

/-! ## The join of solutions -/

open Solution

/-- `join_solutions` joins the maps. -/
theorem map_get_joinSolutions {left right : List Solution} (hright : ∀ r ∈ right, r.Tidy) :
    (Eval.joinSolutions left right).map get = joinWith PartialMap.unite (left.map get) (right.map get) :=
  map_joinWith get fun _ _ r hr => map_get_mergeCompatible (hright r hr)

theorem tidy_joinSolutions {left right : List Solution} (hleft : ∀ l ∈ left, l.Tidy) :
    ∀ sol ∈ Eval.joinSolutions left right, sol.Tidy := by
  intro sol hsol
  obtain ⟨l, hl, r, _, hm⟩ := mem_joinWith.mp hsol
  exact (hleft l hl).mergeCompatible hm

/-- The solutions are partial maps, and `join_solutions` is the join on them: what is listed,
counted and compared is what is read, merging unites, and joining is commutative and
associative up to the order of the rows, with the empty solution as unit. -/
structure MapLike (S : Set Solution) : Prop where
  iter_iff : ∀ sol ∈ S, ∀ v t, (v, t) ∈ sol.iter ↔ sol.get v = some t
  contains_iff : ∀ sol ∈ S, ∀ v, sol.contains v = true ↔ v ∈ PartialMap.domain sol.get
  len_eq : ∀ sol ∈ S, sol.len = (PartialMap.domain sol.get).ncard
  eq_iff : ∀ sol ∈ S, ∀ other ∈ S, sol.eq other = true ↔ sol.get = other.get
  merge_eq : ∀ sol ∈ S, ∀ other ∈ S, (sol.mergeCompatible other).map get = PartialMap.unite sol.get other.get
  join_comm : ∀ A B : List Solution, (∀ a ∈ A, a ∈ S) → (∀ b ∈ B, b ∈ S) →
    ((Eval.joinSolutions A B).map get).Perm ((Eval.joinSolutions B A).map get)
  join_assoc : ∀ A B C : List Solution, (∀ a ∈ A, a ∈ S) → (∀ b ∈ B, b ∈ S) → (∀ c ∈ C, c ∈ S) →
    ((Eval.joinSolutions (Eval.joinSolutions A B) C).map get).Perm
      ((Eval.joinSolutions A (Eval.joinSolutions B C)).map get)
  join_new : ∀ A : List Solution, (∀ a ∈ A, a ∈ S) →
    ((Eval.joinSolutions [.new] A).map get).Perm (A.map get) ∧
      ((Eval.joinSolutions A [.new]).map get).Perm (A.map get)

theorem mapLike_iff {S : Set Solution} : MapLike S ↔ ∀ sol ∈ S, sol.Tidy := by
  constructor
  · exact fun h sol hsol => tidy_iff_len.mpr (h.len_eq sol hsol)
  · intro h
    have hall : ∀ {A : List Solution}, (∀ a ∈ A, a ∈ S) → ∀ a ∈ A, a.Tidy := fun hA a ha => h a (hA a ha)
    have hnew : ∀ sol ∈ [Solution.new], sol.Tidy := fun sol hsol => mem_singleton.mp hsol ▸ tidy_new
    have hempty : Solution.new.get = PartialMap.empty := rfl
    refine ⟨fun sol hsol v t => (h sol hsol).mem_iter, fun sol _ v => Iff.rfl,
      fun sol hsol => tidy_iff_len.mp (h sol hsol),
        fun sol hsol other hother => (h sol hsol).eq_iff (h other hother),
      fun sol _ other hother => map_get_mergeCompatible (h other hother), ?_, ?_, ?_⟩
    · intro A B hA hB
      rw [map_get_joinSolutions (hall hB), map_get_joinSolutions (hall hA)]
      exact joinWith_perm PartialMap.unite_comm _ _
    · intro A B C hA hB hC
      have hBC : ∀ sol ∈ Eval.joinSolutions B C, sol.Tidy := tidy_joinSolutions (hall hB)
      rw [map_get_joinSolutions (hall hC), map_get_joinSolutions (hall hB), map_get_joinSolutions hBC,
        map_get_joinSolutions (hall hC), joinWith_assoc PartialMap.unite_assoc]
    · intro A hA
      rw [map_get_joinSolutions (hall hA), map_get_joinSolutions hnew, map_singleton, hempty,
        joinWith_unit_left PartialMap.unite_empty_left, joinWith_unit_right PartialMap.unite_empty_right]
      exact ⟨List.Perm.refl _, List.Perm.refl _⟩

/-! ## Recipes -/

/-- How a solution is built. -/
inductive Recipe
  | new
  | positional (vars : List Variable) (values : List (Option Term)) (h : vars.length = values.length)
  | insert (base : Recipe) (v : Variable) (t : Term)
  | merge (left right : Recipe)
  | project (base : Recipe) (vars : List Variable)

namespace Recipe

def build : Recipe → Option Solution
  | .new => some .new
  | .positional vars values h => some (.positional vars values h)
  | .insert base v t => base.build.map fun sol => sol.insert v t
  | .merge left right => left.build.bind fun l => right.build.bind l.mergeCompatible
  | .project base vars => base.build.map fun sol => sol.project vars

/-- Every solution that is made on the way, the last one with it. -/
def Makes : Recipe → Solution → Prop
  | .insert base v t, sol => (insert base v t).build = some sol ∨ base.Makes sol
  | .merge left right, sol => (merge left right).build = some sol ∨ left.Makes sol ∨ right.Makes sol
  | .project base vars, sol => (project base vars).build = some sol ∨ base.Makes sol
  | recipe, sol => recipe.build = some sol

/-- No row gives a value to a variable that stands earlier in its header, and no projection
lists a variable twice that is bound. -/
def Clean : Recipe → Prop
  | .new => True
  | .positional vars values _ => Apart (vars.zip values)
  | .insert base _ _ => base.Clean
  | .merge left right => left.Clean ∧ right.Clean
  | .project base vars => base.Clean ∧ ∀ sol, base.build = some sol → (vars.filter sol.contains).Nodup

theorem makes_build {recipe : Recipe} (h : recipe.build = some sol) : recipe.Makes sol := by
  cases recipe with
  | new => exact h
  | positional vars values hlen => exact h
  | insert base v t => exact Or.inl h
  | merge left right => exact Or.inl h
  | project base vars => exact Or.inl h

/-- Each step of a recipe makes a tidy solution just when the step is clean. -/
theorem tidy_iff (recipe : Recipe) : (∀ sol, recipe.Makes sol → sol.Tidy) ↔ recipe.Clean := by
  induction recipe with
  | new =>
    refine ⟨fun _ => trivial, fun _ sol hsol => ?_⟩
    cases hsol
    exact tidy_new
  | positional vars values hlen =>
    constructor
    · exact fun h => h _ rfl
    · intro h sol hsol
      cases hsol
      exact h
  | insert base v t ih =>
    rw [Clean, ← ih]
    constructor
    · exact fun h sol hsol => h sol (Or.inr hsol)
    · rintro h sol (hsol | hsol)
      · obtain ⟨old, hold, rfl⟩ := Option.map_eq_some_iff.mp hsol
        exact (h old (makes_build hold)).insert v t
      · exact h sol hsol
  | merge left right ihl ihr =>
    rw [Clean, ← ihl, ← ihr]
    constructor
    · exact fun h => ⟨fun sol hsol => h sol (Or.inr (Or.inl hsol)), fun sol hsol => h sol (Or.inr (Or.inr hsol))⟩
    · rintro ⟨hl, hr⟩ sol (hsol | hsol | hsol)
      · obtain ⟨l, hbuild, hm⟩ := Option.bind_eq_some_iff.mp hsol
        obtain ⟨r, _, hm⟩ := Option.bind_eq_some_iff.mp hm
        exact (hl l (makes_build hbuild)).mergeCompatible hm
      · exact hl sol hsol
      · exact hr sol hsol
  | project base vars ih =>
    rw [Clean, ← ih]
    constructor
    · intro h
      refine ⟨fun sol hsol => h sol (Or.inr hsol), fun sol hsol => tidy_project.mp (h _ (Or.inl ?_))⟩
      rw [build, hsol, Option.map_some]
    · rintro ⟨hbase, hproject⟩ sol (hsol | hsol)
      · obtain ⟨old, hold, rfl⟩ := Option.map_eq_some_iff.mp hsol
        exact tidy_project.mpr (hproject old hold)
      · exact hbase sol hsol

end Recipe

/-- The solutions made along some recipes. -/
def madeBy (recipes : Set Recipe) : Set Solution := {sol | ∃ recipe ∈ recipes, recipe.Makes sol}

/-- Whatever is built, the solutions made on the way are partial maps with the join on them
just when no step gives a value to one variable twice. -/
theorem solutions_mapLike_iff (recipes : Set Recipe) :
    MapLike (madeBy recipes) ↔ ∀ recipe ∈ recipes, recipe.Clean := by
  rw [mapLike_iff]
  constructor
  · exact fun h recipe hrecipe => recipe.tidy_iff.mp fun sol hsol => h sol ⟨recipe, hrecipe, hsol⟩
  · rintro h sol ⟨recipe, hrecipe, hsol⟩
    exact recipe.tidy_iff.mpr (h recipe hrecipe) sol hsol

/-- `SELECT ?x ?x` over one binding. -/
def selectTwice : Recipe :=
  .project (.insert .new ⟨"x"⟩ (.namedNode ⟨"http://ex/A"⟩)) [⟨"x"⟩, ⟨"x"⟩]

/-- The projected row reads as the row it is made of, and is not equal to it: it counts two
bound variables. -/
theorem repeated_projection_not_mapLike : ¬MapLike (madeBy {selectTwice}) := by
  intro h
  let row : Solution := Solution.new.insert ⟨"x"⟩ (.namedNode ⟨"http://ex/A"⟩)
  let projected : Solution := row.project [⟨"x"⟩, ⟨"x"⟩]
  have hrow : row ∈ madeBy {selectTwice} := ⟨_, rfl, Or.inr (Or.inl rfl)⟩
  have hprojected : projected ∈ madeBy {selectTwice} := ⟨_, rfl, Or.inl rfl⟩
  have hread : row.get = projected.get := by
    funext v
    by_cases hv : v = ⟨"x"⟩
    · rw [hv]
      decide
    · have hne : (⟨"x"⟩ : Variable) ≠ v := fun heq => hv heq.symm
      rw [get_eq, get_eq]
      simp [row, projected, Solution.cells, Solution.new, Solution.insert, Solution.project, positionIn,
        Solution.get, lookupIn, hne]
  have heq : row.eq projected = true := (h.eq_iff row hrow projected hprojected).mpr hread
  revert heq
  decide

end Nova
