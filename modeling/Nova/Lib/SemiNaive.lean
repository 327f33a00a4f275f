import Mathlib.Data.Finset.Card
import Mathlib.Data.Finset.Lattice.Basic
import Mathlib.Order.Bounds.Basic
import Mathlib.Tactic.Common

/-!
# Semi-naive derivation

A rule system is a relation `R body a`: the conclusion `a` follows from the facts
of `body`. `Derivable R E` is what follows from the facts `E`, and `Derived R E`
what follows by at least one rule application.

Semi-naive iteration keeps the facts found so far and, apart from them, those
found in the last round. A round applies only the rules that have a premise among
the latter, the others being taken from the facts found so far and from a stable
relation `E` that is never copied. `Inv` is what the rounds keep, from a seed that
triggers every rule the facts at hand allow; `Inv.total_iff` reads off, once no
rule is triggered any more, that exactly the seed and the derived facts have been
found.
-/

namespace Nova.Lib.SemiNaive

variable {α : Type}

/-- The facts that follow from `E` by the rules. -/
inductive Derivable (R : List α → α → Prop) (E : Set α) : α → Prop
  | base {a : α} : a ∈ E → Derivable R E a
  | step {body : List α} {a : α} : R body a → (∀ b ∈ body, Derivable R E b) → Derivable R E a

/-- The facts that follow from `E` by at least one rule application. -/
def Derived (R : List α → α → Prop) (E : Set α) (a : α) : Prop :=
  ∃ body, R body a ∧ ∀ b ∈ body, Derivable R E b

/-- A set that every rule stays in. -/
def Closed (R : List α → α → Prop) (M : Set α) : Prop :=
  ∀ body a, R body a → (∀ b ∈ body, b ∈ M) → a ∈ M

variable {R : List α → α → Prop} {E : Set α}

theorem derivable_iff {a : α} : Derivable R E a ↔ a ∈ E ∨ Derived R E a := by
  constructor
  · intro h
    cases h with
    | base ha => exact .inl ha
    | step hr hb => exact .inr ⟨_, hr, hb⟩
  · rintro (ha | ⟨body, hr, hb⟩)
    · exact .base ha
    · exact .step hr hb

theorem Derivable.mem_of_closed {M : Set α} (hE : E ⊆ M) (hM : Closed R M) {a : α}
    (h : Derivable R E a) : a ∈ M := by
  induction h with
  | base ha => exact hE ha
  | step hr _ ih => exact hM _ _ hr ih

theorem Derivable.mono {E' : Set α} (hE : E ⊆ E') {a : α} (h : Derivable R E a) : Derivable R E' a := by
  induction h with
  | base ha => exact .base (hE ha)
  | step hr _ ih => exact .step hr ih

theorem Derived.mono {E' : Set α} (hE : E ⊆ E') {a : α} (h : Derived R E a) : Derived R E' a := by
  rcases h with ⟨body, hr, hbody⟩
  exact ⟨body, hr, fun b hb => (hbody b hb).mono hE⟩

theorem Derivable.map {β : Type} {R' : List β → β → Prop} {f : α → β}
    (hR : ∀ body a, R body a → R' (body.map f) (f a)) {a : α} (h : Derivable R E a) :
    Derivable R' (f '' E) (f a) := by
  induction h with
  | base ha => exact .base ⟨_, ha, rfl⟩
  | step hr _ ih =>
    refine .step (hR _ _ hr) fun b hb => ?_
    rcases List.mem_map.mp hb with ⟨b', hb', rfl⟩
    exact ih b' hb'

theorem Derived.map {β : Type} {R' : List β → β → Prop} {f : α → β}
    (hR : ∀ body a, R body a → R' (body.map f) (f a)) {a : α} (h : Derived R E a) :
    Derived R' (f '' E) (f a) := by
  rcases h with ⟨body, hr, hbody⟩
  refine ⟨_, hR _ _ hr, fun b hb => ?_⟩
  rcases List.mem_map.mp hb with ⟨b', hb', rfl⟩
  exact (hbody b' hb').map hR

/-- No rule instance among the facts derivable from `M` has the fact as a premise. -/
def Unused (R : List α → α → Prop) (M : Set α) (b : α) : Prop :=
  ∀ body a, R body a → (∀ c ∈ body, Derivable R M c) → b ∉ body

theorem Derived.of_unused {E' M : Set α} (hM : E ⊆ M) (hunused : ∀ b ∈ E, b ∉ E' → Unused R M b) {a : α}
    (h : Derived R E a) : Derived R E' a := by
  have hstep : ∀ body a, R body a → (∀ b ∈ body, Derivable R E b) →
      (∀ b ∈ body, b ∈ E ∨ Derived R E' b) → Derived R E' a := by
    intro body a hr hbody hor
    refine ⟨body, hr, fun b hb => derivable_iff.mpr ?_⟩
    rcases hor b hb with hE | hd
    · by_cases hE' : b ∈ E'
      · exact .inl hE'
      · exact absurd hb (hunused b hE hE' body a hr fun c hc => (hbody c hc).mono hM)
    · exact .inr hd
  have hall : ∀ b, Derivable R E b → b ∈ E ∨ Derived R E' b := by
    intro b hb
    induction hb with
    | base hb => exact .inl hb
    | step hr hbody ih => exact .inr (hstep _ _ hr hbody ih)
  rcases h with ⟨body, hr, hbody⟩
  exact hstep body a hr hbody fun b hb => hall b (hbody b hb)

/-! ## Rounds -/

section Rounds

variable [DecidableEq α] {S T Δ T' Δ' : Finset α}

/-- The premises are at hand. -/
def AtHand (E : Set α) (T : Finset α) (body : List α) : Prop := ∀ b ∈ body, b ∈ E ∨ b ∈ T

/-- A premise is among the facts of the last round. -/
def Triggered (Δ : Finset α) (body : List α) : Prop := ∃ b ∈ body, b ∈ Δ

/-- One round: what the triggered rules give and is not known yet is new. -/
structure Round (R : List α → α → Prop) (E : Set α) (T Δ T' Δ' : Finset α) : Prop where
  fresh : ∀ a, a ∈ Δ' ↔ a ∉ T ∧ ∃ body, R body a ∧ AtHand E T body ∧ Triggered Δ body
  total : T' = T ∪ Δ'

/-- What the rounds keep. -/
structure Inv (R : List α → α → Prop) (E : Set α) (S T Δ : Finset α) : Prop where
  seed : S ⊆ T
  fresh : Δ ⊆ T
  sound : ∀ a ∈ T, a ∈ S ∨ Derived R (E ∪ S) a
  complete : ∀ body a, R body a → AtHand E T body → a ∈ T ∨ Triggered Δ body

omit [DecidableEq α] in
theorem Inv.init (h : ∀ body a, R body a → AtHand E S body → a ∈ S ∨ Triggered S body) :
    Inv R E S S S :=
  ⟨Finset.Subset.refl _, Finset.Subset.refl _, fun _ ha => .inl ha, h⟩

omit [DecidableEq α] in
theorem Inv.derivable (h : Inv R E S T Δ) {a : α} (ha : a ∈ E ∨ a ∈ T) : Derivable R (E ∪ S) a := by
  rcases ha with ha | ha
  · exact .base (.inl ha)
  · rcases h.sound a ha with hs | hd
    · exact .base (.inr hs)
    · exact derivable_iff.mpr (.inr hd)

/-- Premises that a round has brought to hand were there before it, or the round
triggers them. -/
theorem Round.atHand (h : Round R E T Δ T' Δ') {body : List α} (hb : AtHand E T' body) :
    AtHand E T body ∨ Triggered Δ' body := by
  by_cases hold : AtHand E T body
  · exact .inl hold
  · right
    simp only [AtHand, not_forall] at hold
    rcases hold with ⟨b, hmem, hnot⟩
    rcases hb b hmem with hE | hT
    · exact absurd (.inl hE) hnot
    · rw [h.total, Finset.mem_union] at hT
      rcases hT with hT | hΔ
      · exact absurd (.inr hT) hnot
      · exact ⟨b, hmem, hΔ⟩

theorem Inv.round (h : Inv R E S T Δ) (hr : Round R E T Δ T' Δ') : Inv R E S T' Δ' where
  seed := by
    rw [hr.total]
    exact h.seed.trans Finset.subset_union_left
  fresh := by
    rw [hr.total]
    exact Finset.subset_union_right
  sound := by
    intro a ha
    rw [hr.total, Finset.mem_union] at ha
    rcases ha with ha | ha
    · exact h.sound a ha
    · rcases (hr.fresh a).mp ha with ⟨_, body, hrule, hbody, _⟩
      exact .inr ⟨body, hrule, fun b hb => h.derivable (hbody b hb)⟩
  complete := by
    intro body a hrule hbody
    rcases hr.atHand hbody with hold | htrig
    · left
      rw [hr.total, Finset.mem_union]
      by_cases ha : a ∈ T
      · exact .inl ha
      · -- nothing at hand was left out by the rounds before this one
        rcases h.complete body a hrule hold with ha' | htrig
        · exact absurd ha' ha
        · exact .inr ((hr.fresh a).mpr ⟨ha, body, hrule, hold, htrig⟩)
    · exact .inr htrig

omit [DecidableEq α] in
/-- Once no rule is triggered, exactly the seed and the derived facts are found. -/
theorem Inv.total_iff (h : Inv R E S T Δ)
    (hend : ∀ body a, R body a → AtHand E T body → ¬Triggered Δ body) (a : α) :
    a ∈ T ↔ a ∈ S ∨ Derived R (E ∪ S) a := by
  refine ⟨h.sound a, ?_⟩
  have hclosed : Closed R {b | b ∈ E ∨ b ∈ T} := by
    intro body c hrule hbody
    rcases h.complete body c hrule hbody with hc | htrig
    · exact .inr hc
    · exact absurd htrig (hend body c hrule hbody)
  have hsub : E ∪ S ⊆ {b | b ∈ E ∨ b ∈ T} := by
    rintro b (hb | hb)
    · exact .inl hb
    · exact .inr (h.seed hb)
  rintro (ha | ⟨body, hrule, hbody⟩)
  · exact h.seed ha
  · have hat : AtHand E T body := fun b hb => (hbody b hb).mem_of_closed hsub hclosed
    rcases h.complete body a hrule hat with ha | htrig
    · exact ha
    · exact absurd htrig (hend body a hrule hat)

/-! ### The number of rounds -/

theorem Round.subset_universe {U : Finset α} (h : Round R E T Δ T' Δ') (hT : T ⊆ U)
    (hU : ∀ body a, R body a → AtHand E U body → a ∈ U) : T' ⊆ U := by
  intro a ha
  rw [h.total, Finset.mem_union] at ha
  rcases ha with ha | ha
  · exact hT ha
  · rcases (h.fresh a).mp ha with ⟨_, body, hrule, hbody, _⟩
    exact hU body a hrule fun b hb => (hbody b hb).imp_right fun hb => hT hb

theorem Round.card_lt (h : Round R E T Δ T' Δ') (hne : Δ'.Nonempty) : T.card < T'.card := by
  rcases hne with ⟨a, ha⟩
  apply Finset.card_lt_card
  rw [h.total, Finset.ssubset_iff_of_subset Finset.subset_union_left]
  exact ⟨a, Finset.mem_union_right _ ha, ((h.fresh a).mp ha).1⟩

end Rounds

end Nova.Lib.SemiNaive
