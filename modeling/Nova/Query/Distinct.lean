import Mathlib.Data.Fintype.Pigeonhole
import Mathlib.Data.String.Basic
import Nova.Query.Labels
import Nova.Query.SolutionMap

/-!
# DISTINCT

The rows of a `DISTINCT` are the first ones of each `solution_key`, and the key is a
64-bit hash of the bindings, sorted by the name of the variable. Tidy rows with one
mapping have one key; whether rows with one key have one mapping is up to the hash.

* `firstsBy_once_iff`: keeping the first element of each key keeps each class of elements
  once just when no key is shared by two classes;
* `distinct_once_iff`: a `DISTINCT` returns every mapping of its rows once just when no
  two rows with different mappings collide;
* `no_hash_keeps_all_mappings`: for every hash into 64 bits some rows do.
-/

namespace Nova

open Nova.Lib List

/-! ## The first element of each key -/

section Firsts

variable {α κ γ : Type} [DecidableEq κ] {key : α → κ} {cls : α → γ}

theorem firstsBy_covers : ∀ {xs : List α} {seen : List κ} {x : α}, x ∈ xs →
    key x ∈ seen ∨ ∃ y ∈ firstsBy key seen xs, key y = key x := by
  intro xs
  induction xs with
  | nil => exact fun h => by cases h
  | cons z zs ih =>
    intro seen x hx
    rw [firstsBy]
    by_cases hz : key z ∈ seen
    · rw [if_pos hz]
      rcases mem_cons.mp hx with rfl | hx
      · exact Or.inl hz
      · exact ih hx
    · rw [if_neg hz]
      rcases mem_cons.mp hx with rfl | hx
      · exact Or.inr ⟨x, mem_cons_self, rfl⟩
      · rcases @ih (key z :: seen) x hx with hseen | ⟨y, hy, heq⟩
        · rcases mem_cons.mp hseen with heq | hseen
          · exact Or.inr ⟨z, mem_cons_self, heq.symm⟩
          · exact Or.inl hseen
        · exact Or.inr ⟨y, mem_cons_of_mem _ hy, heq⟩

theorem nodup_keys_firstsBy : ∀ {xs : List α} {seen : List κ}, ((firstsBy key seen xs).map key).Nodup := by
  intro xs
  induction xs with
  | nil => exact nodup_nil
  | cons z zs ih =>
    intro seen
    rw [firstsBy]
    split
    · exact ih
    · refine nodup_cons.mpr ⟨fun hmem => ?_, ih⟩
      obtain ⟨y, hy, heq⟩ := mem_map.mp hmem
      exact (mem_of_mem_firstsBy hy).2 (heq ▸ mem_cons_self)

/-- Elements of one class have one key; then each class is kept once just when elements of
one key are of one class. -/
theorem firstsBy_once_iff [DecidableEq γ] {xs : List α}
    (hkey : ∀ a ∈ xs, ∀ b ∈ xs, cls a = cls b → key a = key b) :
    (∀ c ∈ xs.map cls, ((firstsBy key [] xs).map cls).count c = 1) ↔
      ∀ a ∈ xs, ∀ b ∈ xs, key a = key b → cls a = cls b := by
  have hcover : ∀ a ∈ xs, ∃ y ∈ firstsBy key [] xs, key y = key a :=
    fun a ha => (firstsBy_covers ha).resolve_left not_mem_nil
  have hkept : ∀ {y : α}, y ∈ firstsBy key [] xs → y ∈ xs := fun hy => (mem_of_mem_firstsBy hy).1
  constructor
  · intro honce a ha b hb heq
    have hfind : ∀ x ∈ xs, ∃ y ∈ firstsBy key [] xs, cls y = cls x := by
      intro x hx
      have hpos : 0 < ((firstsBy key [] xs).map cls).count (cls x) := by
        rw [honce _ (mem_map_of_mem hx)]
        exact Nat.one_pos
      exact mem_map.mp (count_pos_iff.mp hpos)
    obtain ⟨y, hy, hya⟩ := hfind a ha
    obtain ⟨z, hz, hzb⟩ := hfind b hb
    have hkeys : key y = key z := by
      rw [hkey y (hkept hy) a ha hya, hkey z (hkept hz) b hb hzb, heq]
    have hsame := inj_on_of_nodup_map nodup_keys_firstsBy hy hz hkeys
    rw [← hya, ← hzb, hsame]
  · intro hcls c hc
    obtain ⟨a, ha, rfl⟩ := mem_map.mp hc
    have hnodup : ((firstsBy key [] xs).map cls).Nodup := by
      have hkeys : ((firstsBy key [] xs).map key).Nodup := nodup_keys_firstsBy
      rw [List.Nodup, pairwise_map] at hkeys ⊢
      refine hkeys.imp_of_mem fun hy hz hne heq => hne ?_
      exact hkey _ (hkept hy) _ (hkept hz) heq
    obtain ⟨y, hy, heq⟩ := hcover a ha
    refine count_eq_one_of_mem hnodup ?_
    rw [← hcls y (hkept hy) a ha heq]
    exact mem_map_of_mem hy

end Firsts

/-! ## The key of a row -/

namespace Eval

/-- The bindings of a row, sorted by the names of the variables. -/
def sortedBindings (sol : Solution) : List (String × Term) :=
  (sol.iter.map fun cell => (cell.1.name, cell.2)).mergeSort fun a b => a.1 ≤ b.1

/-- `solution_key`, where `hash` is what the hasher makes of the bindings. -/
def solutionKey (hash : List (String × Term) → UInt64) (sol : Solution) : Nat :=
  (hash (sortedBindings sol)).toNat

end Eval

open Eval (sortedBindings solutionKey)

namespace Solution

variable {sol other : Solution}

theorem Tidy.names_nodup (h : sol.Tidy) :
    ((sol.iter.map fun cell => (cell.1.name, cell.2)).map Prod.fst).Nodup := by
  have hvars : (sol.iter.map Prod.fst).Nodup := (apart_iff.mp h).1
  have hname : Function.Injective Variable.name := fun v w heq => by
    cases v
    cases w
    exact congrArg Variable.mk heq
  have hmap := hvars.map hname
  rwa [map_map] at hmap ⊢

theorem Tidy.sortedBindings_eq (h : sol.Tidy) (hother : other.Tidy) (heq : sol.get = other.get) :
    sortedBindings sol = sortedBindings other := by
  have hbindings : (sol.iter.map fun cell => (cell.1.name, cell.2)).Perm
      (other.iter.map fun cell => (cell.1.name, cell.2)) := by
    refine List.Perm.map _ ?_
    refine (perm_ext_iff_of_nodup (apart_iff.mp h).1.of_map (apart_iff.mp hother).1.of_map).mpr ?_
    rintro ⟨v, t⟩
    rw [← iter_eq, ← iter_eq, h.mem_iter, hother.mem_iter, heq]
  have hperm : (sortedBindings sol).Perm (sortedBindings other) :=
    (mergeSort_perm _ _).trans (hbindings.trans (mergeSort_perm _ _).symm)
  have hsorted : ∀ row : Solution, (sortedBindings row).Pairwise fun a b => a.1 ≤ b.1 := by
    intro row
    have hsort := @pairwise_mergeSort _ (fun a b : String × Term => decide (a.1 ≤ b.1))
      (fun a b c hab hbc => decide_eq_true ((of_decide_eq_true hab).trans (of_decide_eq_true hbc)))
      (fun a b => by simpa using le_total a.1 b.1) (row.iter.map fun cell => (cell.1.name, cell.2))
    exact hsort.imp of_decide_eq_true
  refine hperm.eq_of_pairwise (fun a b ha hb hab hba => ?_) (hsorted sol) (hsorted other)
  -- one name has one term
  have hname : a.1 = b.1 := le_antisymm hab hba
  have hnodup : ((sortedBindings other).map Prod.fst).Nodup :=
    ((mergeSort_perm _ _).map Prod.fst).nodup_iff.mpr hother.names_nodup
  exact inj_on_of_nodup_map hnodup (hperm.mem_iff.mp ha) hb hname

theorem Tidy.solutionKey_eq (hash : List (String × Term) → UInt64) (h : sol.Tidy) (hother : other.Tidy)
    (heq : sol.get = other.get) : solutionKey hash sol = solutionKey hash other := by
  unfold Eval.solutionKey
  rw [h.sortedBindings_eq hother heq]

end Solution

/-! ## The rows of a DISTINCT -/

/-- Each mapping of the rows is among the results once, and nothing else is. -/
def EachOnce (rows results : List Solution) : Prop :=
  (∀ sol ∈ results, sol ∈ rows) ∧ ∀ μ ∈ mappings rows, copies results μ = 1

/-- The evaluator's functions, with this hash under `solution_key`. -/
def Scalars.hashing (scalars : Scalars) (hash : List (String × Term) → UInt64) : Scalars :=
  { scalars with solutionKey := Eval.solutionKey hash }

theorem eachOnce_firstsBy_iff {hash : List (String × Term) → UInt64} {rows : List Solution}
    (htidy : ∀ sol ∈ rows, sol.Tidy) : EachOnce rows (firstsBy (solutionKey hash) [] rows) ↔
      ∀ a ∈ rows, ∀ b ∈ rows, solutionKey hash a = solutionKey hash b → a.get = b.get := by
  classical
  have honce := @firstsBy_once_iff _ _ _ _ (solutionKey hash) Solution.get _ rows
    fun a ha b hb heq => (htidy a ha).solutionKey_eq hash (htidy b hb) heq
  have hsub : ∀ sol ∈ firstsBy (solutionKey hash) [] rows, sol ∈ rows :=
    fun sol hsol => (mem_of_mem_firstsBy hsol).1
  have hcopies : ∀ μ : Mapping, copies (firstsBy (solutionKey hash) [] rows) μ =
      ((firstsBy (solutionKey hash) [] rows).map Solution.get).count μ := by
    intro μ
    congr
  rw [← honce]
  constructor
  · rintro ⟨_, h⟩ μ hμ
    exact (hcopies μ).symm.trans (h μ (mem_map.mp hμ))
  · exact fun h => ⟨hsub, fun μ hμ => (hcopies μ).trans (h μ (mem_map.mpr hμ))⟩

/-- The row that binds `?x` to an IRI of the length. -/
def sampleRow (n : Nat) : Solution :=
  Solution.new.insert ⟨"x"⟩ (.namedNode ⟨String.ofList (List.replicate n 'a')⟩)

theorem sampleRow_injective : Function.Injective fun n => (sampleRow n).get := by
  intro m n heq
  have hx := congrFun heq ⟨"x"⟩
  simp only [sampleRow, Solution.get_insert, if_true, Option.some.injEq, Term.namedNode.injEq,
    NamedNode.mk.injEq] at hx
  simpa using congrArg (fun s : String => s.toList.length) hx

theorem tidy_sampleRow (n : Nat) : (sampleRow n).Tidy := Solution.tidy_new.insert _ _

/-- A `DISTINCT` over rows with tidy headers returns each of their mappings once just when
no two rows with different mappings have the same key. -/
theorem distinct_once_iff (hash : List (String × Term) → UInt64) (scalars : Scalars) (options : EvalOptions)
    (fuel : Nat) (ds : Dataset) (inner : GraphPattern) (ag : GraphSelector) (rows : List Solution)
    (hrows : Eval.evalPattern (scalars.hashing hash) options fuel ds inner ag = .ok rows)
    (htidy : ∀ sol ∈ rows, sol.Tidy) :
    (∃ results, Eval.evalPattern (scalars.hashing hash) options fuel ds (.distinct inner) ag = .ok results ∧
        EachOnce rows results) ↔
      ∀ a ∈ rows, ∀ b ∈ rows, solutionKey hash a = solutionKey hash b → a.get = b.get := by
  have heval : Eval.evalPattern (scalars.hashing hash) options fuel ds (.distinct inner) ag =
      .ok (firstsBy (solutionKey hash) [] rows) := by
    rw [Eval.evalPattern, hrows, ok_bind]
    rfl
  rw [← eachOnce_firstsBy_iff htidy, heval]
  constructor
  · rintro ⟨results, hresults, honce⟩
    cases hresults
    exact honce
  · exact fun honce => ⟨_, rfl, honce⟩

/-- Two rows that the lengths of their terms tell apart, one of them twice. -/
theorem distinct_once_of_values : ∃ results,
    Eval.evalPattern (Eval.iriScalars.hashing fun bindings => .ofNat (bindings.map fun b => Path.chainFp b.2).sum)
        Eval.plainOptions 0 (storeDataset Eval.labelStore.quadStore)
        (.distinct (.values [⟨"x"⟩] [[(sampleRow 1).get ⟨"x"⟩], [(sampleRow 2).get ⟨"x"⟩], [(sampleRow 1).get ⟨"x"⟩]]))
        .default = .ok results ∧
      EachOnce [sampleRow 1, sampleRow 2, sampleRow 1] results := by
  refine (distinct_once_iff _ _ _ _ _ _ _ _ (by rfl) ?_).mpr ?_
  · simp only [forall_mem_cons]
    exact ⟨tidy_sampleRow 1, tidy_sampleRow 2, tidy_sampleRow 1, nofun⟩
  · have hkeys : ∀ a ∈ [sampleRow 1, sampleRow 2, sampleRow 1], ∀ b ∈ [sampleRow 1, sampleRow 2, sampleRow 1],
        solutionKey (fun bindings => .ofNat (bindings.map fun b => Path.chainFp b.2).sum) a =
          solutionKey (fun bindings => .ofNat (bindings.map fun b => Path.chainFp b.2).sum) b → a = b := by
      decide +kernel
    exact fun a ha b hb heq => congrArg Solution.get (hkeys a ha b hb heq)

/-- There are more rows than keys: whatever the hash is, a `DISTINCT` loses a row. -/
theorem no_hash_keeps_all_mappings :
    ¬∃ hash : List (String × Term) → UInt64, ∀ rows : List Solution,
      EachOnce rows (firstsBy (solutionKey hash) [] rows) := by
  rintro ⟨hash, hall⟩
  obtain ⟨m, n, hne, hcollide⟩ := Finite.exists_ne_map_eq_of_infinite
    fun n => (hash (sortedBindings (sampleRow n))).toFin
  have htidy : ∀ sol ∈ [sampleRow m, sampleRow n], sol.Tidy := by
    intro sol hsol
    rcases mem_pair.mp hsol with rfl | rfl
    · exact tidy_sampleRow m
    · exact tidy_sampleRow n
  have hkeys : solutionKey hash (sampleRow m) = solutionKey hash (sampleRow n) := congrArg Fin.val hcollide
  have hsame := (eachOnce_firstsBy_iff htidy).mp (hall _) _ mem_cons_self _
    (mem_cons_of_mem _ mem_cons_self) hkeys
  exact hne (sampleRow_injective hsame)

end Nova
