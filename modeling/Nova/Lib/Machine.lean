import Mathlib.Data.List.Infix
import Mathlib.Logic.Basic

/-!
# Machines whose steps can fail

A machine takes an input and answers with a value or a fault; it moves to a new
state either way. `run` feeds it a list of inputs, `batch` stops at the first
fault. Two rules carry what one step does to what a whole run does: `run_inv`
and `batch_inv` for an invariant, `run_sim` and `batch_sim` for two machines
that answer alike. Both ask only for steps that meet a condition (`Meets`,
`BatchMeets`), so that a run can be required to stay within bounds. `made` and
`answered` are the inputs a batch and a run get through.
-/

namespace Nova.Lib

open List

abbrev Machine (σ ι ε ο : Type) := σ → ι → Except ε ο × σ

namespace Machine

variable {σ τ ι ε ο : Type}

/-- Inputs one after another, up to the first fault. -/
def batch (m : Machine σ ι ε ο) : σ → List ι → Except ε (List ο) × σ
  | s, [] => (.ok [], s)
  | s, i :: is =>
    match m s i with
    | (.error f, s) => (.error f, s)
    | (.ok o, s) =>
      match batch m s is with
      | (.error f, s) => (.error f, s)
      | (.ok os, s) => (.ok (o :: os), s)

/-- Inputs one after another; a fault is an answer like any other. -/
def run (m : Machine σ ι ε ο) : σ → List ι → List (Except ε ο) × σ
  | s, [] => ([], s)
  | s, i :: is => ((m s i).1 :: (run m (m s i).2 is).1, (run m (m s i).2 is).2)

/-- The inputs of a batch before its first fault. -/
def made (m : Machine σ ι ε ο) : σ → List ι → List ι
  | _, [] => []
  | s, i :: is => if (m s i).1.isOk = true then i :: made m (m s i).2 is else []

/-- The inputs of a run that get no fault. -/
def answered (m : Machine σ ι ε ο) : σ → List ι → List ι
  | _, [] => []
  | s, i :: is =>
    if (m s i).1.isOk = true then i :: answered m (m s i).2 is else answered m (m s i).2 is

/-- Every step of the run meets `P`. -/
def Meets (m : Machine σ ι ε ο) (P : σ → ι → Prop) : σ → List ι → Prop
  | _, [] => True
  | s, i :: is => P s i ∧ Meets m P (m s i).2 is

/-- Every step of the batch that is taken meets `P`. -/
def BatchMeets (m : Machine σ ι ε ο) (P : σ → ι → Prop) : σ → List ι → Prop
  | _, [] => True
  | s, i :: is => P s i ∧ ((m s i).1.isOk = true → BatchMeets m P (m s i).2 is)

instance decidableMeets (m : Machine σ ι ε ο) (P : σ → ι → Prop) [∀ s i, Decidable (P s i)] :
    (s : σ) → (is : List ι) → Decidable (Meets m P s is)
  | _, [] => isTrue trivial
  | s, i :: is => @instDecidableAnd _ _ _ (decidableMeets m P (m s i).2 is)

instance decidableBatchMeets (m : Machine σ ι ε ο) (P : σ → ι → Prop) [∀ s i, Decidable (P s i)] :
    (s : σ) → (is : List ι) → Decidable (BatchMeets m P s is)
  | _, [] => isTrue trivial
  | s, i :: is =>
    have := decidableBatchMeets m P (m s i).2 is
    instDecidableAnd

variable {m : Machine σ ι ε ο} {P : σ → ι → Prop}

variable {is : List ι} {s : σ}

theorem run_append {js : List ι} : run m s (is ++ js) =
    ((run m s is).1 ++ (run m (run m s is).2 js).1, (run m (run m s is).2 js).2) := by
  induction is generalizing s with
  | nil => rfl
  | cons i is ih => rw [cons_append, run, ih, run, cons_append]

theorem meets_append {js : List ι} :
    Meets m P s (is ++ js) ↔ Meets m P s is ∧ Meets m P (run m s is).2 js := by
  induction is generalizing s with
  | nil => simp [Meets, run]
  | cons i is ih => simp only [cons_append, Meets, run, ih, and_assoc]

variable {Q : σ → ι → Prop}

theorem Meets.imp (hPQ : ∀ s i, P s i → Q s i) (h : Meets m P s is) : Meets m Q s is := by
  induction is generalizing s with
  | nil => trivial
  | cons i is ih => exact ⟨hPQ s i h.1, ih h.2⟩

theorem batchMeets_true (s : σ) (is : List ι) : BatchMeets m (fun _ _ => True) s is := by
  induction is generalizing s with
  | nil => trivial
  | cons i is ih => exact ⟨trivial, fun _ => ih _⟩

theorem BatchMeets.imp (hPQ : ∀ s i, P s i → Q s i) (h : BatchMeets m P s is) : BatchMeets m Q s is := by
  induction is generalizing s with
  | nil => trivial
  | cons i is ih => exact ⟨hPQ s i h.1, fun hok => ih (h.2 hok)⟩

theorem mem_of_mem_made {i : ι} (h : i ∈ made m s is) : i ∈ is := by
  induction is generalizing s with
  | nil => cases h
  | cons j is ih =>
    rw [made] at h
    split at h
    · rcases mem_cons.mp h with rfl | h
      · exact mem_cons_self
      · exact mem_cons_of_mem j (ih h)
    · cases h

/-! ## Invariants -/

variable {J : σ → Prop}

section

variable (hstep : ∀ s i, J s → P s i → J (m s i).2)
include hstep

theorem run_inv (hs : J s) (h : Meets m P s is) : J (run m s is).2 := by
  induction is generalizing s with
  | nil => exact hs
  | cons i is ih => exact ih (hstep s i hs h.1) h.2

theorem batch_inv (hs : J s) (h : BatchMeets m P s is) : J (batch m s is).2 := by
  induction is generalizing s with
  | nil => exact hs
  | cons i is ih =>
    have hnext := hstep s i hs h.1
    have hrest := h.2
    rw [batch]
    rcases hm : m s i with ⟨r, s'⟩
    rw [hm] at hnext hrest
    cases r with
    | error f => exact hnext
    | ok o =>
      have hend := ih hnext (hrest rfl)
      rcases hb : batch m s' is with ⟨r', s''⟩
      rw [hb] at hend
      cases r' <;> simp only [hb] <;> exact hend

end

/-- An invariant that needs `Q` and gives `G`, where a step that does not meet `Q` breaks
`G` at once. -/
theorem always_iff_of_inv {G : σ → Prop}
    (hstep : ∀ s i, J s → P s i → Q s i → J (m s i).2) (hgood : ∀ s, J s → G s)
    (hbad : ∀ s i, J s → P s i → G (m s i).2 → Q s i) (hJ : J s) (h : Meets m P s is) :
    (∀ is', is' <+: is → G (run m s is').2) ↔ Meets m Q s is := by
  induction is generalizing s with
  | nil =>
    constructor
    · exact fun _ => trivial
    · intro _ is' his'
      rw [prefix_nil.mp his']
      exact hgood s hJ
  | cons i is ih =>
    constructor
    · intro hall
      have hQ := hbad s i hJ h.1 (hall [i] (prefix_append [i] is))
      refine ⟨hQ, (ih (hstep s i hJ h.1 hQ) h.2).mp ?_⟩
      intro is' his'
      exact hall (i :: is') ((prefix_cons_inj i).mpr his')
    · intro hQ is' his'
      cases is' with
      | nil => exact hgood s hJ
      | cons j js =>
        rcases cons_prefix_cons.mp his' with ⟨rfl, hjs⟩
        exact (ih (hstep s _ hJ h.1 hQ.1) h.2).mpr hQ.2 js hjs

/-- Where a step leaves `G` true exactly if it meets `Q`, `G` is true all along a run
exactly if every step meets `Q`. -/
theorem always_iff {G : σ → Prop} (hstep : ∀ s i, J s → P s i → J (m s i).2)
    (hgood : ∀ s i, J s → P s i → G s → (G (m s i).2 ↔ Q s i)) (hJ : J s) (hG : G s) (h : Meets m P s is) :
    (∀ is', is' <+: is → G (run m s is').2) ↔ Meets m Q s is := by
  apply always_iff_of_inv (J := fun s => J s ∧ G s) _ (fun s hs => hs.2) _ ⟨hJ, hG⟩ h
  · intro s i hs hp hq
    exact ⟨hstep s i hs.1 hp, (hgood s i hs.1 hp hs.2).mpr hq⟩
  · intro s i hs hp hg
    exact (hgood s i hs.1 hp hs.2).mp hg

/-! ## Simulation -/

/-- From related states, the machines answer alike and stay related. -/
def Simulates (R : σ → τ → Prop) (m : Machine σ ι ε ο) (m' : Machine τ ι ε ο)
    (P : σ → ι → Prop) : Prop :=
  ∀ s t i, R s t → P s i → (m s i).1 = (m' t i).1 ∧ R (m s i).2 (m' t i).2

variable {R : σ → τ → Prop} {m' : Machine τ ι ε ο}

variable {t : τ}

theorem run_sim (hsim : Simulates R m m' P) (hR : R s t)
    (h : Meets m P s is) : (run m s is).1 = (run m' t is).1 ∧ R (run m s is).2 (run m' t is).2 := by
  induction is generalizing s t with
  | nil => exact ⟨rfl, hR⟩
  | cons i is ih =>
    rcases hsim s t i hR h.1 with ⟨hans, hnext⟩
    rcases ih hnext h.2 with ⟨hrest, hend⟩
    exact ⟨by rw [run, run, hans, hrest], hend⟩

theorem batch_sim_of_meets (hsim : Simulates R m m' P) (hR : R s t) (h : BatchMeets m P s is) :
    (batch m s is).1 = (batch m' t is).1 ∧ R (batch m s is).2 (batch m' t is).2 := by
  induction is generalizing s t with
  | nil => exact ⟨rfl, hR⟩
  | cons i is ih =>
    rcases hsim s t i hR h.1 with ⟨hans, hnext⟩
    have hrest := h.2
    rw [batch, batch]
    rcases hm : m s i with ⟨r, s'⟩
    rcases hm' : m' t i with ⟨r', t'⟩
    rw [hm, hm'] at hans hnext
    rw [hm] at hrest
    subst hans
    cases r with
    | error f => exact ⟨rfl, hnext⟩
    | ok o =>
      rcases ih hnext (hrest rfl) with ⟨hrest, hend⟩
      simp only
      rcases hb : batch m s' is with ⟨q, s''⟩
      rcases hb' : batch m' t' is with ⟨q', t''⟩
      rw [hb, hb'] at hrest hend
      subst hrest
      cases q <;> exact ⟨rfl, hend⟩

section

variable (hsim : Simulates R m m' fun _ _ => True) (hR : R s t)
include hsim hR

theorem batch_sim (is : List ι) :
    (batch m s is).1 = (batch m' t is).1 ∧ R (batch m s is).2 (batch m' t is).2 :=
  batch_sim_of_meets hsim hR (batchMeets_true s is)

theorem made_sim
    (is : List ι) : made m s is = made m' t is := by
  induction is generalizing s t with
  | nil => rfl
  | cons i is ih =>
    rcases hsim s t i hR trivial with ⟨hans, hnext⟩
    rw [made, made, hans, ih hnext]

theorem answered_sim
    (is : List ι) : answered m s is = answered m' t is := by
  induction is generalizing s t with
  | nil => rfl
  | cons i is ih =>
    rcases hsim s t i hR trivial with ⟨hans, hnext⟩
    rw [answered, answered, hans, ih hnext]

theorem meets_sim
    (Q : Except ε ο → Prop) (is : List ι) :
    Meets m (fun s i => Q (m s i).1) s is ↔ Meets m' (fun t i => Q (m' t i).1) t is := by
  induction is generalizing s t with
  | nil => rfl
  | cons i is ih =>
    rcases hsim s t i hR trivial with ⟨hans, hnext⟩
    rw [Meets, Meets, hans, ih hnext]

end

end Machine

end Nova.Lib
