import Mathlib.Data.List.Basic

/-!
# Programs that are cut

A program is a list of operations on a device, done one after another. `cut` is what a
crash leaves of it: the first `k` operations are done, and of the next one whatever
`partly` says a crash can let through.

`steps_inv` and `cut_inv` are the rules for what every operation preserves, `cut_append`
splits a program at its commit point.
-/

namespace Nova.Lib

open List

structure Device (σ ω γ : Type) where
  step : σ → ω → σ
  /-- What a crash `c` has let through of an operation. -/
  partly : σ → γ → ω → σ

namespace Device

variable {σ ω γ : Type} (m : Device σ ω γ)

def steps (s : σ) (ops : List ω) : σ := ops.foldl m.step s

def cut (s : σ) (ops : List ω) (k : Nat) (c : γ) : σ :=
  match ops[k]? with
  | none => m.steps s (ops.take k)
  | some op => m.partly (m.steps s (ops.take k)) c op

variable {m} {s : σ} {ops ops' : List ω} {k : Nat} {c : γ}

@[simp] theorem steps_nil (s : σ) : m.steps s [] = s := rfl

@[simp] theorem steps_cons (s : σ) (op : ω)
    (ops : List ω) : m.steps s (op :: ops) = m.steps (m.step s op) ops := rfl

theorem steps_append (s : σ) (ops ops' : List ω) : m.steps s (ops ++ ops') = m.steps (m.steps s ops) ops' :=
  foldl_append

@[simp] theorem cut_nil (s : σ) (k : Nat) (c : γ) : m.cut s [] k c = s := by
  simp [cut]

@[simp] theorem cut_cons_zero (s : σ) (op : ω) (ops : List ω) (c : γ) :
    m.cut s (op :: ops) 0 c = m.partly s c op := rfl

@[simp] theorem cut_cons_succ (s : σ) (op : ω) (ops : List ω) (k : Nat) (c : γ) :
    m.cut s (op :: ops) (k + 1) c = m.cut (m.step s op) ops k c := rfl

theorem cut_append (s : σ) (ops ops' : List ω) (k : Nat) (c : γ) :
    m.cut s (ops ++ ops') k c =
      if k < ops.length then m.cut s ops k c else m.cut (m.steps s ops) ops' (k - ops.length) c := by
  induction ops generalizing s k with
  | nil => simp
  | cons op ops ih =>
    cases k with
    | zero => simp
    | succ k => simp [ih]

/-! ## What every operation preserves -/

theorem steps_inv {J : σ → Prop} (hstep : ∀ op ∈ ops, ∀ s, J s → J (m.step s op)) (hs : J s) :
    J (m.steps s ops) := by
  induction ops generalizing s with
  | nil => exact hs
  | cons op ops ih =>
    have hnext := hstep op mem_cons_self s hs
    exact ih (fun op' hop' => hstep op' (mem_cons_of_mem _ hop')) hnext

theorem cut_inv {J : σ → Prop} (hstep : ∀ op ∈ ops, ∀ s, J s → J (m.step s op))
    (hpartly : ∀ op ∈ ops, ∀ s, J s → J (m.partly s c op)) (hs : J s) : J (m.cut s ops k c) := by
  unfold cut
  have htaken : J (m.steps s (ops.take k)) :=
    steps_inv (fun op hop => hstep op (mem_of_mem_take hop)) hs
  cases hop : ops[k]? with
  | none => exact htaken
  | some op => exact hpartly op (mem_of_getElem? hop) _ htaken

end Device

end Nova.Lib
