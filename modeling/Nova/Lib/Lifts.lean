import Nova.Lib.Reader
import Nova.Lib.Returns
import Nova.Lib.Table
import Mathlib.Data.List.Forall2

/-!
# Runs in step, lists picked from lists

`Lifts` compares two runs that may fail: the second returns a related value wherever the
first returns, and fails with the same error wherever the first fails. Some errors of the
first run are excused; after these nothing is asked of the second.

`Picks` compares two lists: the second holds one partner for each member of the first that
is to be kept, and nothing else, in the same order or, if this is asked for, in any. What
is computed member by member on both sides is picked again (`Picks.mapM`, `Picks.flatMap`).
-/

namespace Nova.Lib

open List

/-! ## Runs -/

section Lifts

variable {ε α β γ δ : Type} {excused : ε → Prop}

/-- The second run ends as the first one does. -/
def Lifts (excused : ε → Prop) (R : α → β → Prop) (r : Except ε α) (r' : Except ε β) : Prop :=
  match r with
  | .ok a => ∃ b, r' = .ok b ∧ R a b
  | .error e => excused e ∨ r' = .error e

variable {R : α → β → Prop}

theorem Lifts.ok {a : α} {b : β} (h : R a b) : Lifts excused R (.ok a : Except ε α) (.ok b) := ⟨b, rfl, h⟩

theorem Lifts.refl {R : α → α → Prop} (h : ∀ a, R a a) (r : Except ε α) : Lifts excused R r r := by
  cases r with
  | ok a => exact ⟨a, rfl, h a⟩
  | error e => exact Or.inr rfl

variable {r : Except ε α} {r' : Except ε β}

theorem Lifts.of_ok {a : α} (h : Lifts excused R r r') (hr : r = .ok a) : ∃ b, r' = .ok b ∧ R a b := by
  rw [hr] at h
  exact h

theorem Lifts.bind {S : γ → δ → Prop} {f : α → Except ε γ} {g : β → Except ε δ} (h : Lifts excused R r r')
    (hnext : ∀ a b, r = .ok a → R a b → Lifts excused S (f a) (g b)) :
    Lifts excused S (r >>= f) (r' >>= g) := by
  cases r with
  | ok a =>
    obtain ⟨b, rfl, hab⟩ := h
    exact hnext a b rfl hab
  | error e =>
    rcases h with hex | rfl
    · exact Or.inl hex
    · exact Or.inr rfl

theorem Lifts.bind_eq {S : γ → δ → Prop} {r' : Except ε α} {f : α → Except ε γ} {g : α → Except ε δ}
    (h : Lifts excused Eq r r') (hnext : ∀ a, Lifts excused S (f a)
      (g a)) : Lifts excused S (r >>= f) (r' >>= g) :=
  h.bind fun a _ _ heq => heq ▸ hnext a

theorem Lifts.imp {S : α → β → Prop} (h : Lifts excused R r r')
    (himp : ∀ a b, r = .ok a → R a b → S a b) : Lifts excused S r r' := by
  cases r with
  | ok a =>
    obtain ⟨b, hb, hab⟩ := h
    exact ⟨b, hb, himp a b rfl hab⟩
  | error e => exact h

theorem Lifts.mapM {R : β → γ → Prop} {f : α → Except ε β} {g : α → Except ε γ} {l : List α}
    (h : ∀ x ∈ l, Lifts excused R (f x) (g x)) : Lifts excused (List.Forall₂ R) (l.mapM f) (l.mapM g) := by
  induction l with
  | nil => exact .ok .nil
  | cons x xs ih =>
    obtain ⟨hx, hxs⟩ := forall_mem_cons.mp h
    rw [mapM_cons, mapM_cons]
    refine hx.bind fun y z _ hyz => (ih hxs).bind fun ys zs _ hrest => ?_
    exact .ok (.cons hyz hrest)

end Lifts

/-! ## Lists -/

/-- The partners of the members to be kept; a loose list has them in any order. -/
inductive Picks {α β : Type} (loose : Bool) (K : α → Prop) (M : α → β → Prop) : List α → List β → Prop
  | nil : Picks loose K M [] []
  | keep {a : α} {b : β} {as : List α} {bs : List β} : K a → M a b → Picks loose K M as bs →
    Picks loose K M (a :: as) (b :: bs)
  | drop {a : α} {as : List α} {bs : List β} : ¬K a → Picks loose K M as bs → Picks loose K M (a :: as) bs
  | perm {as as' : List α} {bs bs' : List β} : loose = true → Picks loose K M as bs → as.Perm as' → bs.Perm bs' →
    Picks loose K M as' bs'

theorem mapM_perm {ε α β : Type} {f : α → Except ε β} {l l' : List α} (h : l.Perm l') :
    ∀ {out : List β}, l.mapM f = .ok out → ∃ out', l'.mapM f = .ok out' ∧ out.Perm out' := by
  induction h with
  | nil => exact fun hout => ⟨_, hout, .refl _⟩
  | cons x _ ih =>
    intro out hout
    rw [mapM_cons] at hout
    obtain ⟨y, hy, hout⟩ := bind_ok hout
    obtain ⟨ys, hys, hout⟩ := bind_ok hout
    obtain ⟨ys', hys', hperm⟩ := ih hys
    cases hout
    exact ⟨y :: ys', by rw [mapM_cons, hy, hys']; rfl, hperm.cons y⟩
  | swap x y l =>
    intro out hout
    simp only [mapM_cons] at hout ⊢
    obtain ⟨fy, hy, hout⟩ := bind_ok hout
    obtain ⟨rest, hrest, hout⟩ := bind_ok hout
    obtain ⟨fx, hx, hrest⟩ := bind_ok hrest
    obtain ⟨fl, hl, hrest⟩ := bind_ok hrest
    cases hrest
    cases hout
    exact ⟨fx :: fy :: fl, by rw [hx, hy, hl]; rfl, .swap fx fy fl⟩
  | trans _ _ ih ih' =>
    intro out hout
    obtain ⟨mid, hmid, hperm⟩ := ih hout
    obtain ⟨out', hout', hperm'⟩ := ih' hmid
    exact ⟨out', hout', hperm.trans hperm'⟩

namespace Picks

variable {ε α β γ δ : Type} {loose : Bool} {K : α → Prop} {M : α → β → Prop} {K' : γ → Prop} {M' : γ → δ → Prop}

variable {as : List α} {bs : List β}

theorem append {as' : List α} {bs' : List β} (h : Picks loose K M as bs) (h' : Picks loose K M as' bs') :
    Picks loose K M (as ++ as') (bs ++ bs') := by
  induction h with
  | nil => exact h'
  | keep hK hM _ ih => exact .keep hK hM ih
  | drop hK _ ih => exact .drop hK ih
  | perm hloose _ has hbs ih => exact .perm hloose ih (has.append_right _) (hbs.append_right _)

theorem all {M : α → α → Prop} (h : ∀ a ∈ as, K a ∧ M a a) : Picks loose K M as as := by
  induction as with
  | nil => exact .nil
  | cons a as ih =>
    obtain ⟨ha, has⟩ := forall_mem_cons.mp h
    exact .keep ha.1 ha.2 (ih has)

theorem loosen (h : Picks false K M as bs) : Picks loose K M as bs := by
  induction h with
  | nil => exact .nil
  | keep hK hM _ ih => exact .keep hK hM ih
  | drop hK _ ih => exact .drop hK ih
  | perm hloose => cases hloose

theorem of_dropped (h : ∀ a ∈ as, ¬K a) : Picks loose K M as [] := by
  induction as with
  | nil => exact .nil
  | cons a as ih =>
    obtain ⟨ha, has⟩ := forall_mem_cons.mp h
    exact .drop ha (ih has)

theorem flatten {xss : List (List α)} {yss : List (List β)} (h : List.Forall₂ (Picks loose K M) xss yss) :
    Picks loose K M xss.flatten yss.flatten := by
  induction h with
  | nil => exact .nil
  | cons hxs _ ih =>
    exact hxs.append ih

section

variable (h : Picks loose K M as bs)
include h

theorem exists_kept : ∀ b ∈ bs, ∃ a ∈ as, K a ∧ M a b := by
  induction h with
  | nil => exact nofun
  | keep hK hM _ ih =>
    refine forall_mem_cons.mpr ⟨⟨_, mem_cons_self, hK, hM⟩, fun b hb => ?_⟩
    obtain ⟨a, ha, hab⟩ := ih b hb
    exact ⟨a, mem_cons_of_mem _ ha, hab⟩
  | drop _ _ ih =>
    intro b hb
    obtain ⟨a, ha, hab⟩ := ih b hb
    exact ⟨a, mem_cons_of_mem _ ha, hab⟩
  | perm _ _ has hbs ih =>
    intro b hb
    obtain ⟨a, ha, hab⟩ := ih b (hbs.mem_iff.mpr hb)
    exact ⟨a, has.mem_iff.mp ha, hab⟩

theorem exists_partner : ∀ a ∈ as, K a → ∃ b ∈ bs, M a b := by
  induction h with
  | nil => exact nofun
  | keep _ hM _ ih =>
    refine forall_mem_cons.mpr ⟨fun _ => ⟨_, mem_cons_self, hM⟩, fun a ha hK => ?_⟩
    obtain ⟨b, hb, hab⟩ := ih a ha hK
    exact ⟨b, mem_cons_of_mem _ hb, hab⟩
  | drop hK _ ih => exact forall_mem_cons.mpr ⟨fun hkept => absurd hkept hK, ih⟩
  | perm _ _ has hbs ih =>
    intro a ha hK
    obtain ⟨b, hb, hab⟩ := ih a (has.mem_iff.mpr ha) hK
    exact ⟨b, hbs.mem_iff.mp hb, hab⟩

theorem length_le : bs.length ≤ as.length := by
  induction h with
  | nil => exact Nat.le_refl 0
  | keep _ _ _ ih => exact Nat.succ_le_succ ih
  | drop _ _ ih => exact Nat.le_succ_of_le ih
  | perm _ _ has hbs ih => rwa [← has.length_eq, ← hbs.length_eq]

/-- Runs of the members: those of a member that is kept are picked from, those of another
are dropped whole. -/
theorem mapM {f : α → Except ε (List γ)} {g : β → Except ε (List δ)}
    (hkeep : ∀ a ∈ as, ∀ b, K a → M a b → ∀ xs, f a = .ok xs → ∃ ys, g b = .ok ys ∧ Picks loose K' M' xs ys)
    (hdrop : ∀ a ∈ as, ¬K a → ∀ xs, f a = .ok xs → ∀ x ∈ xs, ¬K' x) :
    ∀ {xss : List (List γ)}, as.mapM f = .ok xss →
      ∃ yss, bs.mapM g = .ok yss ∧ Picks loose K' M' xss.flatten yss.flatten := by
  induction h with
  | nil =>
    intro xss hxss
    cases hxss
    exact ⟨[], rfl, .nil⟩
  | keep hK hM _ ih =>
    intro xss hxss
    rw [mapM_cons] at hxss
    obtain ⟨xs, hxs, hxss⟩ := bind_ok hxss
    obtain ⟨rest, hrest, hxss⟩ := bind_ok hxss
    cases hxss
    obtain ⟨hkeep₀, hkeep⟩ := forall_mem_cons.mp hkeep
    obtain ⟨ys, hys, hpicks⟩ := hkeep₀ _ hK hM xs hxs
    obtain ⟨yss, hyss, hpicks'⟩ := ih hkeep (forall_mem_cons.mp hdrop).2 hrest
    exact ⟨ys :: yss, by rw [mapM_cons, hys, hyss]; rfl, hpicks.append hpicks'⟩
  | drop hK _ ih =>
    intro xss hxss
    rw [mapM_cons] at hxss
    obtain ⟨xs, hxs, hxss⟩ := bind_ok hxss
    obtain ⟨rest, hrest, hxss⟩ := bind_ok hxss
    cases hxss
    obtain ⟨hdrop₀, hdrop⟩ := forall_mem_cons.mp hdrop
    obtain ⟨yss, hyss, hpicks⟩ := ih (forall_mem_cons.mp hkeep).2 hdrop hrest
    exact ⟨yss, hyss, (of_dropped (hdrop₀ hK xs hxs)).append hpicks⟩
  | perm hloose _ has hbs ih =>
    intro xss hxss
    obtain ⟨xss', hxss', hperm⟩ := mapM_perm has.symm hxss
    obtain ⟨yss, hyss, hpicks⟩ := ih (fun a ha => hkeep a (has.mem_iff.mp ha))
      (fun a ha => hdrop a (has.mem_iff.mp ha)) hxss'
    obtain ⟨yss', hyss', hperm'⟩ := mapM_perm hbs hyss
    exact ⟨yss', hyss', Picks.perm hloose hpicks hperm.symm.flatten hperm'.flatten⟩

theorem flatMap {f : α → List γ} {g : β → List δ}
    (hkeep : ∀ a ∈ as, ∀ b, K a → M a b → Picks loose K' M' (f a) (g b))
    (hdrop : ∀ a ∈ as, ¬K a → ∀ x ∈ f a, ¬K' x) : Picks loose K' M' (as.flatMap f) (bs.flatMap g) := by
  obtain ⟨yss, hyss, hpicks⟩ := h.mapM (f := fun a => (.ok (f a) : Except Unit _)) (g := fun b => .ok (g b))
    (fun a ha b hK hM xs hxs => ⟨g b, rfl, by cases hxs; exact hkeep a ha b hK hM⟩)
    (fun a ha hK xs hxs => by cases hxs; exact hdrop a ha hK) (mapM_ok f as)
  rw [mapM_ok] at hyss
  cases hyss
  exact hpicks

theorem filterMap {f : α → Option γ} {g : β → Option δ}
    (hkeep : ∀ a ∈ as, ∀ b, K a → M a b → Picks loose K' M' (f a).toList (g b).toList)
    (hdrop : ∀ a ∈ as, ¬K a → ∀ x, f a = some x → ¬K' x) : Picks loose K' M' (as.filterMap f)
      (bs.filterMap g) := by
  rw [filterMap_eq_flatMap_toList, filterMap_eq_flatMap_toList]
  refine h.flatMap hkeep fun a ha hK x hx => ?_
  rw [Option.mem_toList] at hx
  exact hdrop a ha hK x hx

theorem map {f : α → γ} {g : β → δ}
    (hkeep : ∀ a ∈ as, ∀ b, K a → M a b → K' (f a) ∧ M' (f a) (g b)) (hdrop : ∀ a ∈ as, ¬K a → ¬K' (f a)) :
    Picks loose K' M' (as.map f) (bs.map g) := by
  rw [map_eq_flatMap, map_eq_flatMap]
  refine h.flatMap (fun a ha b hK hM => ?_) fun a ha hK x hx => ?_
  · obtain ⟨hK', hM'⟩ := hkeep a ha b hK hM
    exact .keep hK' hM' .nil
  · rw [mem_singleton.mp hx]
    exact hdrop a ha hK

theorem filter {p : α → Bool} {q : β → Bool}
    (hsame : ∀ a ∈ as, ∀ b, K a → M a b → p a = q b) : Picks loose K M (as.filter p) (bs.filter q) := by
  rw [← filterMap_eq_filter, ← filterMap_eq_filter]
  refine h.filterMap (fun a ha b hK hM => ?_) fun a ha hK x hx => ?_
  · have heq := hsame a ha b hK hM
    cases hq : q b with
    | true => simpa [Option.guard, heq, hq] using Picks.keep hK hM .nil
    | false => simpa [Option.guard, heq, hq] using Picks.nil
  · have hax := (Option.guard_eq_some_iff.mp hx).1
    rwa [← hax]

end

theorem of_filter (p : α → Bool) (as : List α) : Picks loose (fun a => p a = true) Eq as (as.filter p) := by
  induction as with
  | nil => exact .nil
  | cons a as ih =>
    by_cases hp : p a = true
    · rw [filter_cons_of_pos hp]
      exact .keep hp rfl ih
    · rw [filter_cons_of_neg hp]
      exact .drop hp ih

section Groups

variable {κ : Type} {key : α → κ} {key' : β → κ} {as : List α} {bs : List β}

theorem map_key (p : κ → Bool) (h : Picks false K M as bs) (hkey : ∀ a ∈ as, ∀ b, K a → M a b → key' b = key a)
    (hp : ∀ a ∈ as, (K a ↔ p (key a) = true)) : bs.map key' = (as.map key).filter p := by
  induction h with
  | nil => rfl
  | keep hK hM _ ih =>
    obtain ⟨hkey₀, hkey⟩ := forall_mem_cons.mp hkey
    obtain ⟨hp₀, hp⟩ := forall_mem_cons.mp hp
    rw [map_cons, map_cons, hkey₀ _ hK hM, filter_cons_of_pos (hp₀.mp hK), ih hkey hp]
  | drop hK _ ih =>
    obtain ⟨hp₀, hp⟩ := forall_mem_cons.mp hp
    rw [map_cons, filter_cons_of_neg fun h => hK (hp₀.mpr h), ih (forall_mem_cons.mp hkey).2 hp]
  | perm hloose => cases hloose

variable [DecidableEq κ]

theorem filter_key {k : κ} (h : Picks false K M as bs) (hkey : ∀ a ∈ as, ∀ b, K a → M a b → key' b = key a)
    (hkept : ∀ a ∈ as, key a = k → K a) :
    List.Forall₂ (fun a b => K a ∧ M a b) (as.filter fun a => key a = k) (bs.filter fun b => key' b = k) := by
  induction h with
  | nil => exact .nil
  | @keep a b as bs hK hM _ ih =>
    obtain ⟨hkey₀, hkey⟩ := forall_mem_cons.mp hkey
    have hrest := ih hkey (forall_mem_cons.mp hkept).2
    by_cases hk : key a = k
    · have hk' : key' b = k := (hkey₀ b hK hM).trans hk
      rw [filter_cons, filter_cons, if_pos (decide_eq_true hk), if_pos (decide_eq_true hk')]
      exact .cons ⟨hK, hM⟩ hrest
    · have hk' : ¬key' b = k := fun h => hk ((hkey₀ b hK hM).symm.trans h)
      rw [filter_cons, filter_cons, if_neg (by rwa [decide_eq_true_iff]), if_neg (by rwa [decide_eq_true_iff])]
      exact hrest
  | @drop a as bs hK _ ih =>
    obtain ⟨hkept₀, hkept⟩ := forall_mem_cons.mp hkept
    rw [filter_cons, if_neg (by rw [decide_eq_true_iff]; exact fun h => hK (hkept₀ h))]
    exact ih (forall_mem_cons.mp hkey).2 hkept
  | perm hloose => cases hloose

/-- The members by their keys: a group is kept where its members are. -/
theorem groups (p : κ → Bool) (h : Picks false K M as bs) (hkey : ∀ a ∈ as, ∀ b, K a → M a b → key' b = key a)
    (hp : ∀ a ∈ as, (K a ↔ p (key a) = true)) :
    Picks false (fun group : List α => ∀ a ∈ group, K a) (List.Forall₂ fun a b => K a ∧ M a b)
      ((firsts (as.map key)).map fun k => as.filter fun a => key a = k)
      ((firsts (bs.map key')).map fun k => bs.filter fun b => key' b = k) := by
  rw [h.map_key p hkey hp, firsts_filter]
  refine (of_filter p _).map (fun k _ k' hk heq => ?_) fun k hk hdropped hall => hdropped ?_
  · have hkept : ∀ a ∈ as, key a = k → K a := fun a ha heq => (hp a ha).mpr (by rwa [heq])
    refine ⟨fun a ha => ?_, heq ▸ h.filter_key hkey hkept⟩
    obtain ⟨ha, hka⟩ := mem_filter.mp ha
    exact hkept a ha (of_decide_eq_true hka)
  · obtain ⟨a, ha, rfl⟩ := mem_map.mp (mem_firsts.mp hk)
    exact (hp a ha).mp (hall a (mem_filter.mpr ⟨ha, decide_eq_true rfl⟩))

end Groups

end Picks

end Nova.Lib
