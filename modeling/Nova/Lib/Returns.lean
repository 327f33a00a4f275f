import Mathlib.Tactic.Common

/-!
# Runs that return

A loop that need not end runs on fuel. `Returns run a` says that it ends with `a`:
all fuel from some amount on gives this value. A run that ends is put together
from parts that end (`Returns.bind`, `Returns.mapM`).
-/

namespace Nova.Lib

open List

variable {ε α β : Type}

/-- The run ends with the value, for all fuel from some amount on. -/
def Returns (run : Nat → Except ε α) (a : α) : Prop := ∃ k, ∀ fuel ≥ k, run fuel = .ok a

theorem Returns.of_ok (a : α) : Returns (fun _ => (.ok a : Except ε α)) a := ⟨0, fun _ _ => rfl⟩

variable {run : Nat → Except ε α}

variable {a : α}

theorem Returns.unique {b : α} (h : Returns run a) (h' : Returns run b) : a = b := by
  rcases h with ⟨k, hk⟩
  rcases h' with ⟨k', hk'⟩
  have hrun := hk (max k k') (by omega)
  rw [hk' (max k k') (by omega)] at hrun
  exact (Except.ok.inj hrun).symm

theorem Returns.congr {run' : Nat → Except ε α} (k : Nat)
    (h : ∀ fuel ≥ k, run fuel = run' fuel) (hrun : Returns run a) : Returns run' a := by
  rcases hrun with ⟨k', hk'⟩
  refine ⟨max k k', fun fuel hfuel => ?_⟩
  rw [← h fuel (by omega)]
  exact hk' fuel (by omega)

theorem Returns.bind {next : Nat → α → Except ε β} {b : β}
    (h : Returns run a) (hnext : Returns (fun fuel => next fuel a) b) :
    Returns (fun fuel => run fuel >>= next fuel) b := by
  rcases h with ⟨k, hk⟩
  rcases hnext with ⟨k', hk'⟩
  refine ⟨max k k', fun fuel hfuel => ?_⟩
  show run fuel >>= next fuel = _
  rw [hk fuel (by omega)]
  exact hk' fuel (by omega)

theorem Returns.mapError {ε' : Type} (f : ε → ε') (h : Returns run a) :
    Returns (fun fuel => (run fuel).mapError f) a := by
  rcases h with ⟨k, hk⟩
  refine ⟨k, fun fuel hfuel => ?_⟩
  simp only [hk fuel hfuel]
  rfl

theorem Returns.of_bind {next : Nat → α → Except ε β} {b : β}
    (h : Returns (fun fuel => run fuel >>= next fuel) b) (hrun : Returns run a) :
    Returns (fun fuel => next fuel a) b := by
  rcases h with ⟨k, hk⟩
  rcases hrun with ⟨k', hk'⟩
  refine ⟨max k k', fun fuel hfuel => ?_⟩
  have hb : run fuel >>= next fuel = .ok b := hk fuel (by omega)
  rw [hk' fuel (by omega)] at hb
  exact hb

variable {l : List α}

theorem Returns.uniform {run : Nat → α → Except ε β} {g : α → β}
    (h : ∀ x ∈ l, Returns (fun fuel => run fuel x) (g x)) :
    ∃ k, ∀ x ∈ l, ∀ fuel ≥ k, run fuel x = .ok (g x) := by
  induction l with
  | nil => exact ⟨0, nofun⟩
  | cons y ys ih =>
    rcases forall_mem_cons.mp h with ⟨⟨k, hk⟩, hys⟩
    rcases ih hys with ⟨k', hk'⟩
    refine ⟨max k k', forall_mem_cons.mpr ⟨?_, ?_⟩⟩
    · exact fun fuel hfuel => hk fuel (by omega)
    · exact fun x hx fuel hfuel => hk' x hx fuel (by omega)

theorem Returns.mapM {run : Nat → α → Except ε β} {g : α → β} :
    ∀ {l : List α}, (∀ x ∈ l, Returns (fun fuel => run fuel x) (g x)) →
      Returns (fun fuel => l.mapM (run fuel)) (l.map g) := by
  intro l
  induction l with
  | nil => exact fun _ => Returns.of_ok []
  | cons y ys ih =>
    intro h
    rcases forall_mem_cons.mp h with ⟨hy, hys⟩
    simp only [mapM_cons]
    exact hy.bind ((ih hys).bind (Returns.of_ok _))

variable {f : α → Except ε β}

theorem exists_mapM_ok_of_mem (h : ∀ x ∈ l, ∃ y, f x = .ok y) : ∃ out, l.mapM f = .ok out := by
  induction l with
  | nil => exact ⟨[], rfl⟩
  | cons x xs ih =>
    rcases forall_mem_cons.mp h with ⟨⟨y, hy⟩, hxs⟩
    rcases ih hxs with ⟨ys, hys⟩
    refine ⟨y :: ys, ?_⟩
    rw [mapM_cons, hy, hys]
    rfl

theorem ok_of_mapError {ε' : Type} {f : ε → ε'} {r : Except ε α} (h : r.mapError f = .ok a) : r = .ok a := by
  cases r with
  | ok b =>
    cases h
    rfl
  | error e => cases h

theorem ok_of_map {f : α → β} (hf : Function.Injective f) {r : Except ε α} (h : r.map f = .ok (f a)) :
    r = .ok a := by
  cases r with
  | ok b => rw [hf (Except.ok.inj h)]
  | error e => cases h

theorem mapM_congr_left {g : α → Except ε β} (h : ∀ a ∈ l, f a = g a) : l.mapM f = l.mapM g := by
  induction l with
  | nil => rfl
  | cons a l ih =>
    rcases forall_mem_cons.mp h with ⟨ha, hl⟩
    rw [mapM_cons, mapM_cons, ha, ih hl]

theorem filterM_ok (p : α → Bool) (l : List α) :
    l.filterM (fun x => (.ok (p x) : Except ε Bool)) = .ok (l.filter p) := by
  have haux : ∀ (l acc : List α), l.filterAuxM (fun x => (.ok (p x) : Except ε Bool)) acc =
      .ok ((l.filter p).reverse ++ acc) := by
    intro l
    induction l with
    | nil => exact fun _ => rfl
    | cons x xs ih =>
      intro acc
      show xs.filterAuxM (fun x => (.ok (p x) : Except ε Bool)) (cond (p x) (x :: acc) acc) = _
      rw [ih, filter_cons]
      cases p x <;> simp
  rw [List.filterM, haux, append_nil]
  show Except.ok _ = _
  rw [reverse_reverse]

theorem filterM_congr_left {f g : α → Except ε Bool} (h : ∀ x ∈ l, f x = g x) :
    l.filterM f = l.filterM g := by
  have haux : ∀ (l acc : List α), (∀ x ∈ l, f x = g x) → l.filterAuxM f acc = l.filterAuxM g acc := by
    intro l
    induction l with
    | nil => exact fun _ _ => rfl
    | cons x xs ih =>
      intro acc h
      rcases forall_mem_cons.mp h with ⟨hx, hxs⟩
      rw [List.filterAuxM, List.filterAuxM, hx]
      congr 1
      funext b
      exact ih _ hxs
  rw [List.filterM, List.filterM, haux l [] h]

theorem mapM_eq_flatten (f : α → Except ε β) (l : List α) :
    l.mapM f = do
      let xss ← l.mapM fun x => do return [← f x]
      return xss.flatten := by
  induction l with
  | nil => rfl
  | cons x xs ih =>
    rw [mapM_cons, mapM_cons, ih]
    cases f x with
    | error e => rfl
    | ok y =>
      cases xs.mapM fun x => do return [← f x] with
      | error e => rfl
      | ok xss => rfl

theorem filterM_eq_mapM (p : α → Except ε Bool) (l : List α) :
    l.filterM p = do
      let xss ← l.mapM fun x => do return if ← p x then [x] else []
      return xss.flatten := by
  have haux : ∀ (l acc : List α), l.filterAuxM p acc = do
      let xss ← l.mapM fun x => do return if ← p x then [x] else []
      return xss.flatten.reverse ++ acc := by
    intro l
    induction l with
    | nil => exact fun _ => rfl
    | cons x xs ih =>
      intro acc
      rw [List.filterAuxM, mapM_cons]
      cases p x with
      | error e => rfl
      | ok b =>
        show xs.filterAuxM p (cond b (x :: acc) acc) = _
        rw [ih]
        cases hxs : xs.mapM fun x => do return if ← p x then [x] else [] with
        | error e => cases b <;> rfl
        | ok xss => cases b <;> simp [bind, Except.bind, pure, Except.pure]
  rw [List.filterM, haux]
  cases l.mapM fun x => do return if ← p x then [x] else [] with
  | error e => rfl
  | ok xss => simp [bind, Except.bind, pure, Except.pure]

theorem mapM_ok (f : α → β) (l : List α) : l.mapM (fun x => (.ok (f x) : Except ε β)) = .ok (l.map f) := by
  induction l with
  | nil => rfl
  | cons x xs ih =>
    rw [mapM_cons, ih]
    rfl

theorem mapM_ok_inv : ∀ {l : List α} {out : List β}, l.mapM f = .ok out →
    (∀ x ∈ l, ∃ y ∈ out, f x = .ok y) ∧ ∀ y ∈ out, ∃ x ∈ l, f x = .ok y := by
  intro l
  induction l with
  | nil =>
    intro out h
    cases h
    exact ⟨nofun, nofun⟩
  | cons x xs ih =>
    intro out h
    rw [mapM_cons] at h
    cases hx : f x with
    | error e =>
      rw [hx] at h
      cases h
    | ok y =>
      cases hxs : xs.mapM f with
      | error e =>
        rw [hx, hxs] at h
        cases h
      | ok ys =>
        rw [hx, hxs] at h
        cases h
        rcases ih hxs with ⟨hin, hout⟩
        constructor
        · refine forall_mem_cons.mpr ⟨⟨y, mem_cons_self, hx⟩, ?_⟩
          intro z hz
          rcases hin z hz with ⟨w, hw, hfz⟩
          exact ⟨w, mem_cons_of_mem _ hw, hfz⟩
        · refine forall_mem_cons.mpr ⟨⟨x, mem_cons_self, hx⟩, ?_⟩
          intro w hw
          rcases hout w hw with ⟨z, hz, hfz⟩
          exact ⟨z, mem_cons_of_mem _ hz, hfz⟩

theorem mem_of_filterM {p : α → Except ε Bool} {out : List α} (h : l.filterM p = .ok out) : ∀ x ∈ out, x ∈ l := by
  intro x hx
  rw [filterM_eq_mapM] at h
  cases hxss : l.mapM fun x => do return if ← p x then [x] else [] with
  | error e =>
    rw [hxss] at h
    cases h
  | ok xss =>
    rw [hxss] at h
    cases h
    obtain ⟨xs, hxs, hx⟩ := mem_flatten.mp hx
    obtain ⟨y, hy, hrun⟩ := (mapM_ok_inv hxss).2 xs hxs
    cases hp : p y with
    | error e =>
      rw [hp] at hrun
      cases hrun
    | ok b =>
      rw [hp] at hrun
      cases hrun
      cases b with
      | true => rwa [mem_singleton.mp hx]
      | false => exact absurd hx not_mem_nil

theorem forall₂_of_mapM {f : α → Option β} {out : List β} (h : l.mapM f = some out) :
    List.Forall₂ (fun x y => f x = some y) l out := by
  induction l generalizing out with
  | nil =>
    rw [mapM_nil, Option.pure_def, Option.some.injEq] at h
    rw [← h]
    exact .nil
  | cons x xs ih =>
    simp only [mapM_cons, Option.bind_eq_bind, Option.bind_eq_some_iff, Option.pure_def, Option.some.injEq] at h
    obtain ⟨y, hy, ys, hys, rfl⟩ := h
    exact .cons hy (ih hys)

end Nova.Lib
