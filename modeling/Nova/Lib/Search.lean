import Mathlib.Data.Finset.Card
import Mathlib.Logic.Relation
import Nova.Lib.Returns

/-!
# Searching a finite graph

A search keeps the keys that it has seen and a queue of items to expand. An item
whose key is new is queued and reported. `run_returns`: in a finite universe that
the successors do not leave, and on which the keys tell items apart, the search
ends, and what it was told beforehand and what it reports are together the items
that the sources reach.

What is known beforehand need not be reported: a search that is told its source
does not report the source, even where a cycle leads back to it.
-/

namespace Nova.Lib.Search

open Relation List

variable {α κ ε : Type} [DecidableEq κ]

structure State (α κ : Type) where
  seen : List κ
  queue : List α
  /-- The items reported, in order. -/
  found : List α

/-- An item that is met: queued and reported if its key is new. -/
def visit (key : α → κ) (st : State α κ) (x : α) : State α κ :=
  if key x ∈ st.seen then st else ⟨key x :: st.seen, st.queue ++ [x], st.found ++ [x]⟩

def visitAll (key : α → κ) (st : State α κ) (xs : List α) : State α κ := xs.foldl (visit key) st

/-- The loop: `stop` is the error of a run without fuel. -/
def run (key : α → κ) (succ : α → Except ε (List α)) (stop : ε) : Nat → State α κ → Except ε (State α κ)
  | 0, _ => .error stop
  | fuel + 1, st =>
    match st.queue with
    | [] => .ok st
    | x :: queue => do
      let ys ← succ x
      run key succ stop fuel (visitAll key { st with queue } ys)

/-- What the search knows: what it was told and what it reported. -/
def Known (told : Finset α) (st : State α κ) (x : α) : Prop := x ∈ told ∨ x ∈ st.found

/-- The state of a search from `sources` in the universe `U`. The items of `cur` are
being expanded. -/
structure Inv (key : α → κ) (next : α → List α) (U told : Finset α) (sources cur : Set α)
    (st : State α κ) : Prop where
  inside : ∀ x, Known told st x → x ∈ U
  reached : ∀ x, Known told st x → ∃ a ∈ sources, ReflTransGen (fun a b => b ∈ next a) a x
  seen : ∀ k, k ∈ st.seen ↔ ∃ x, Known told st x ∧ key x = k
  queued : ∀ x ∈ st.queue, Known told st x
  expanded : ∀ x, Known told st x → x ∈ cur ∨ x ∈ st.queue ∨ ∀ y ∈ next x, key y ∈ st.seen
  fresh : ∀ x ∈ st.found, x ∉ told
  nodup : st.found.Nodup

section

variable {key : α → κ} {next : α → List α} {U told : Finset α} {sources cur : Set α} {st : State α κ}

/-- The steps that are left: items in the queue and items not known yet. -/
def left (U told : Finset α) (st : State α κ) : Nat :=
  st.queue.length + (U.card - (told.card + st.found.length))

omit [DecidableEq κ] in
theorem Inv.card_le (h : Inv key next U told sources cur st) :
    told.card + st.found.length ≤ U.card := by
  classical
  have hdisj : Disjoint told st.found.toFinset := by
    rw [Finset.disjoint_right]
    intro x hx
    exact h.fresh x (mem_toFinset.mp hx)
  rw [← toFinset_card_of_nodup h.nodup, ← Finset.card_union_of_disjoint hdisj]
  apply Finset.card_le_card
  intro x hx
  rcases Finset.mem_union.mp hx with hx | hx
  · exact h.inside x (.inl hx)
  · exact h.inside x (.inr (mem_toFinset.mp hx))

/-- One item is met. -/
theorem Inv.visit (h : Inv key next U told sources cur st) {y : α} (hU : y ∈ U)
    (hreach : ∃ a ∈ sources, ReflTransGen (fun a b => b ∈ next a) a y) :
    Inv key next U told sources cur (visit key st y) ∧ key y ∈ (Search.visit key st y).seen ∧
      (∀ x, Known told st x → Known told (Search.visit key st y) x) ∧
      left U told (Search.visit key st y) = left U told st := by
  unfold Search.visit
  by_cases hseen : key y ∈ st.seen
  · rw [if_pos hseen]
    exact ⟨h, hseen, fun x hx => hx, rfl⟩
  · rw [if_neg hseen]
    have hnew : ¬Known told st y := fun hk => hseen ((h.seen _).mpr ⟨y, hk, rfl⟩)
    -- a new item is known from now on and waits in the queue
    have hknown : ∀ x, Known told ⟨key y :: st.seen, st.queue ++ [y], st.found ++ [y]⟩ x ↔
        Known told st x ∨ x = y := by
      intro x
      simp only [Known, mem_append, mem_singleton, or_assoc]
    have hinv : Inv key next U told sources cur ⟨key y :: st.seen, st.queue ++ [y], st.found ++ [y]⟩ := by
      constructor
      · intro x hx
        rcases (hknown x).mp hx with hx | rfl
        · exact h.inside x hx
        · exact hU
      · intro x hx
        rcases (hknown x).mp hx with hx | rfl
        · exact h.reached x hx
        · exact hreach
      · intro k
        rw [mem_cons, h.seen]
        constructor
        · rintro (rfl | ⟨x, hx, hk⟩)
          · exact ⟨y, (hknown y).mpr (.inr rfl), rfl⟩
          · exact ⟨x, (hknown x).mpr (.inl hx), hk⟩
        · rintro ⟨x, hx, hk⟩
          rcases (hknown x).mp hx with hx | rfl
          · exact .inr ⟨x, hx, hk⟩
          · exact .inl hk.symm
      · intro x hx
        rcases mem_append.mp hx with hx | hx
        · exact (hknown x).mpr (.inl (h.queued x hx))
        · exact (hknown x).mpr (.inr (mem_singleton.mp hx))
      · intro x hx
        rcases (hknown x).mp hx with hx | rfl
        · rcases h.expanded x hx with hcur | hq | hnext
          · exact .inl hcur
          · exact .inr (.inl (mem_append_left _ hq))
          · exact .inr (.inr fun z hz => mem_cons_of_mem _ (hnext z hz))
        · exact .inr (.inl (mem_append_right _ (mem_singleton_self _)))
      · intro x hx
        rcases mem_append.mp hx with hx | hx
        · exact h.fresh x hx
        · rw [mem_singleton.mp hx]
          exact fun htold => hnew (.inl htold)
      · refine nodup_append.mpr ⟨h.nodup, nodup_singleton _, ?_⟩
        rintro x hx _ hy rfl
        rw [mem_singleton.mp hy] at hx
        exact hnew (.inr hx)
    refine ⟨hinv, mem_cons_self, fun x hx => (hknown x).mpr (.inl hx), ?_⟩
    have hcard := hinv.card_le
    simp only [left, length_append, length_cons, length_nil] at hcard ⊢
    omega

/-- All items of a list are met. -/
theorem Inv.visitAll (ys : List α) : ∀ {st : State α κ}, Inv key next U told sources cur st →
    (∀ y ∈ ys, y ∈ U ∧ ∃ a ∈ sources, ReflTransGen (fun a b => b ∈ next a) a y) →
    Inv key next U told sources cur (visitAll key st ys) ∧ (∀ y ∈ ys, key y ∈ (Search.visitAll key st ys).seen) ∧
      (∀ x, Known told st x → Known told (Search.visitAll key st ys) x) ∧
      left U told (Search.visitAll key st ys) = left U told st := by
  induction ys with
  | nil =>
    intro st h _
    exact ⟨h, nofun, fun x hx => hx, rfl⟩
  | cons y ys ih =>
    intro st h hys
    rcases forall_mem_cons.mp hys with ⟨⟨hU, hreach⟩, hrest⟩
    rcases h.visit hU hreach with ⟨h₁, hy, hmono, hleft⟩
    rcases ih h₁ hrest with ⟨h₂, hall, hmono', hleft'⟩
    refine ⟨h₂, forall_mem_cons.mpr ⟨?_, hall⟩, fun x hx => hmono' x (hmono x hx), hleft'.trans hleft⟩
    rcases (h₁.seen _).mp hy with ⟨z, hz, hkey⟩
    exact (h₂.seen _).mpr ⟨z, hmono' z hz, hkey⟩

/-- One item is taken from the queue and expanded. -/
theorem Inv.step (hclosed : ∀ x ∈ U, ∀ y ∈ next x, y ∈ U) {x : α} {queue : List α}
    (h : Inv key next U told sources ∅ st) (hq : st.queue = x :: queue) :
    Inv key next U told sources ∅ (Search.visitAll key { st with queue } (next x)) ∧
      (∀ z, Known told st z → Known told (Search.visitAll key { st with queue } (next x)) z) ∧
      left U told (Search.visitAll key { st with queue } (next x)) < left U told st := by
  have hx : Known told st x := h.queued x (by rw [hq]; exact mem_cons_self)
  have hopen : Inv key next U told sources {x} { st with queue } := by
    refine ⟨h.inside, h.reached, h.seen, ?_, ?_, h.fresh, h.nodup⟩
    · exact fun z hz => h.queued z (by rw [hq]; exact mem_cons_of_mem _ hz)
    · intro z hz
      rcases h.expanded z hz with hcur | hz | hz
      · exact absurd hcur (Set.notMem_empty z)
      · rw [hq] at hz
        rcases mem_cons.mp hz with rfl | hz
        · exact .inl rfl
        · exact .inr (.inl hz)
      · exact .inr (.inr hz)
  have hys : ∀ y ∈ next x, y ∈ U ∧ ∃ a ∈ sources, ReflTransGen (fun a b => b ∈ next a) a y := by
    intro y hy
    rcases h.reached x hx with ⟨a, ha, hax⟩
    exact ⟨hclosed x (h.inside x hx) y hy, a, ha, hax.tail hy⟩
  rcases hopen.visitAll (next x) hys with ⟨hinv, hall, hmono, hleft⟩
  refine ⟨?_, hmono, ?_⟩
  · refine ⟨hinv.inside, hinv.reached, hinv.seen, hinv.queued, ?_, hinv.fresh, hinv.nodup⟩
    intro z hz
    rcases hinv.expanded z hz with rfl | hz | hz
    · exact .inr (.inr hall)
    · exact .inr (.inl hz)
    · exact .inr (.inr hz)
  · rw [hleft]
    simp only [left, hq, length_cons]
    omega

omit [DecidableEq κ] in
theorem Inv.known_iff (hinj : Set.InjOn key U) (hclosed : ∀ x ∈ U, ∀ y ∈ next x, y ∈ U)
    (h : Inv key next U told sources ∅ st) (hq : st.queue = []) (hsources : ∀ a ∈ sources, Known told st a)
    {x : α} : Known told st x ↔ ∃ a ∈ sources, ReflTransGen (fun a b => b ∈ next a) a x := by
  refine ⟨h.reached x, ?_⟩
  rintro ⟨a, ha, hax⟩
  induction hax with
  | refl => exact hsources a ha
  | tail _ hstep ih =>
    rename_i y z _
    rcases h.expanded y ih with hcur | hy | hy
    · exact absurd hcur (Set.notMem_empty y)
    · rw [hq] at hy
      cases hy
    · rcases (h.seen _).mp (hy z hstep) with ⟨w, hw, hkey⟩
      rwa [← hinj (h.inside w hw) (hclosed y (h.inside y ih) z hstep) hkey]

variable {succ : α → Except ε (List α)}

section

variable (stop : ε) (hinj : Set.InjOn key U) (hclosed : ∀ x ∈ U, ∀ y ∈ next x, y ∈ U)
    (hsucc : ∀ x ∈ U, succ x = .ok (next x))
include stop hinj hclosed hsucc

/-- The search ends, and then knows what the sources reach. -/
theorem run_returns :
    ∀ {st : State α κ}, Inv key next U told sources ∅ st → (∀ a ∈ sources, Known told st a) →
      ∃ st', Returns (fun fuel => run key succ stop fuel st) st' ∧ st'.found.Nodup ∧
        (∀ x ∈ st'.found, x ∉ told) ∧
        ∀ x, Known told st' x ↔ ∃ a ∈ sources, ReflTransGen (fun a b => b ∈ next a) a x := by
  intro st
  -- induction on the steps that are left
  induction hm : left U told st using Nat.strong_induction_on generalizing st with
  | _ m ih =>
    intro h hsources
    cases hq : st.queue with
    | nil =>
      refine ⟨st, ⟨1, fun fuel hfuel => ?_⟩, h.nodup, h.fresh, fun x => h.known_iff hinj hclosed hq hsources⟩
      rcases Nat.exists_eq_add_of_le' hfuel with ⟨k, rfl⟩
      simp only [run, hq]
    | cons x queue =>
      rcases h.step hclosed hq with ⟨hinv, hmono, hlt⟩
      rcases ih _ (by omega) rfl hinv fun a ha => hmono a (hsources a ha) with ⟨st', hret, hrest⟩
      refine ⟨st', ?_, hrest⟩
      rcases hret with ⟨k, hk⟩
      refine ⟨k + 1, fun fuel hfuel => ?_⟩
      rcases Nat.exists_eq_add_of_le' (show 1 ≤ fuel by omega) with ⟨f, rfl⟩
      have hx : x ∈ U := h.inside x (h.queued x (by rw [hq]; exact mem_cons_self))
      simp only [run, hq, hsucc x hx]
      exact hk f (by omega)

/-- A search that is told its source reports the other items that the source reaches,
each once. -/
theorem run_from_returns
    {a : α} (ha : a ∈ U) :
    ∃ st', Returns (fun fuel => run key succ stop fuel ⟨[key a], [a], []⟩) st' ∧ st'.found.Nodup ∧
      ∀ x, x ∈ st'.found ↔ x ≠ a ∧ ReflTransGen (fun a b => b ∈ next a) a x := by
  have hstart : Inv key next U {a} {a} ∅ ⟨[key a], [a], []⟩ := by
    have hknown : ∀ x, Known {a} (⟨[key a], [a], []⟩ : State α κ) x ↔ x = a := by
      intro x
      simp [Known]
    refine ⟨?_, ?_, ?_, ?_, ?_, nofun, .nil⟩
    · exact fun x hx => by rwa [(hknown x).mp hx]
    · exact fun x hx => ⟨a, rfl, by rw [(hknown x).mp hx]⟩
    · intro k
      simp only [hknown, mem_singleton, exists_eq_left]
      exact eq_comm
    · exact fun x hx => (hknown x).mpr (mem_singleton.mp hx)
    · exact fun x hx => .inr (.inl (mem_singleton.mpr ((hknown x).mp hx)))
  rcases run_returns stop hinj hclosed hsucc hstart (fun x hx => .inl (Finset.mem_singleton.mpr hx)) with
    ⟨st', hret, hnodup, hfresh, hknown⟩
  refine ⟨st', hret, hnodup, fun x => ?_⟩
  constructor
  · intro hx
    rcases (hknown x).mp (.inr hx) with ⟨b, rfl, hreach⟩
    exact ⟨fun heq => hfresh x hx (Finset.mem_singleton.mpr heq), hreach⟩
  · rintro ⟨hne, hreach⟩
    rcases (hknown x).mpr ⟨a, rfl, hreach⟩ with htold | hx
    · exact absurd (Finset.mem_singleton.mp htold) hne
    · exact hx

end

/-! ### Successors that are computed with fuel -/

theorem mem_queue_visit {x y : α} (h : y ∈ (visit key st x).queue) : y ∈ st.queue ∨ y = x := by
  unfold visit at h
  split at h
  · exact .inl h
  · exact (mem_append.mp h).imp_right mem_singleton.mp

theorem mem_queue_visitAll {y : α} (xs : List α) : ∀ {st : State α κ}, y ∈ (visitAll key st xs).queue →
    y ∈ st.queue ∨ y ∈ xs := by
  induction xs with
  | nil => exact fun h => .inl h
  | cons x xs ih =>
    intro st h
    rcases ih h with h | h
    · rcases mem_queue_visit h with h | rfl
      · exact .inl h
      · exact .inr mem_cons_self
    · exact .inr (mem_cons_of_mem _ h)

theorem run_congr {succ' : α → Except ε (List α)} (stop : ε) (hclosed : ∀ x ∈ U, ∀ y ∈ next x, y ∈ U)
    (hsucc : ∀ x ∈ U, succ x = .ok (next x)) (hsucc' : ∀ x ∈ U, succ' x = .ok (next x)) (fuel : Nat) :
    ∀ {st : State α κ}, (∀ x ∈ st.queue, x ∈ U) → run key succ stop fuel st = run key succ' stop fuel st := by
  induction fuel with
  | zero => exact fun _ => rfl
  | succ fuel ih =>
    intro st hU
    rw [run, run]
    split
    · rfl
    · next x queue hq =>
      have hx : x ∈ U := hU x (by rw [hq]; exact mem_cons_self)
      rw [hsucc x hx, hsucc' x hx]
      apply ih
      intro y hy
      rcases mem_queue_visitAll _ hy with hy | hy
      · exact hU y (by rw [hq]; exact mem_cons_of_mem _ hy)
      · exact hclosed x hx y hy

/-- A search that is told nothing reports all that its sources reach, each once. -/
theorem run_all_returns {succ : Nat → α → Except ε (List α)} (stop : ε) (hinj : Set.InjOn key U)
    (hclosed : ∀ x ∈ U, ∀ y ∈ next x, y ∈ U) (hsucc : ∀ x ∈ U, Returns (fun fuel => succ fuel x) (next x))
    {starts : List α} (hstarts : ∀ a ∈ starts, a ∈ U) :
    ∃ st', Returns (fun fuel => run key (succ fuel) stop fuel (visitAll key ⟨[], [], []⟩ starts)) st' ∧
      st'.found.Nodup ∧ ∀ x, x ∈ st'.found ↔ ∃ a ∈ starts, ReflTransGen (fun a b => b ∈ next a) a x := by
  have hempty : Inv key next U ∅ {a | a ∈ starts} ∅ (⟨[], [], []⟩ : State α κ) := by
    have hknown : ∀ x, ¬ Known ∅ (⟨[], [], []⟩ : State α κ) x := by simp [Known]
    constructor
    · exact fun x hx => absurd hx (hknown x)
    · exact fun x hx => absurd hx (hknown x)
    · intro k
      simp [hknown]
    · exact nofun
    · exact fun x hx => absurd hx (hknown x)
    · exact nofun
    · exact .nil
  rcases hempty.visitAll starts fun a ha => ⟨hstarts a ha, a, ha, .refl⟩ with ⟨hinv, hseen, -, -⟩
  have hsources : ∀ a ∈ starts, Known ∅ (visitAll key (⟨[], [], []⟩ : State α κ) starts) a := by
    intro a ha
    rcases (hinv.seen _).mp (hseen a ha) with ⟨b, hb, hkey⟩
    rwa [← hinj (hinv.inside b hb) (hstarts a ha) hkey]
  -- from some fuel on, the successors are those of the pure search
  rcases Returns.uniform fun x hx => hsucc x (Finset.mem_toList.mp hx) with ⟨k, hk⟩
  have hpure : ∀ fuel ≥ k, ∀ x ∈ U, succ fuel x = .ok (next x) :=
    fun fuel hfuel x hx => hk x (Finset.mem_toList.mpr hx) fuel hfuel
  rcases run_returns stop hinj hclosed (hpure k le_rfl) hinv hsources with ⟨st', hret, hnodup, -, hknown⟩
  refine ⟨st', hret.congr k fun fuel hfuel => ?_, hnodup, fun x => ?_⟩
  · exact run_congr stop hclosed (hpure k le_rfl) (hpure fuel hfuel) fuel fun x hx =>
      hinv.inside x (hinv.queued x hx)
  · simpa [Known] using hknown x

end

end Nova.Lib.Search
