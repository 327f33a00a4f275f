import Mathlib.Data.Finset.Card
import Mathlib.Data.Finset.SDiff

/-!
# Sets with pending changes

A base set that is only ever rebuilt as a whole, and on top of it the keys
inserted and removed since. `live` is the set a reader sees; `insert`, `remove`,
`merge` and `load` are the changes, and each says what it does to `live`.

The size of `live` can be computed from the three sizes if no pending change is
idle (`Tight`): a removed key is in the base, an inserted one is not
(`card_live`). `insert` and `remove` keep this only where they start from a key
without a pending change of the other kind.
-/

namespace Nova.Lib

open Finset

structure Overlay (K : Type) [DecidableEq K] where
  base : Finset K
  inserted : Finset K
  removed : Finset K
  disjoint : Disjoint inserted removed

namespace Overlay

variable {K : Type} [DecidableEq K] {v : Overlay K} {k : K}

def live (v : Overlay K) : Finset K := (v.base \ v.removed) ∪ v.inserted

theorem mem_live : k ∈ v.live ↔ k ∈ v.inserted ∨ k ∉ v.removed ∧ k ∈ v.base := by
  rw [live, mem_union, mem_sdiff]
  tauto

def insert (v : Overlay K) (k : K) : Overlay K where
  base := v.base
  inserted := Insert.insert k v.inserted
  removed := v.removed.erase k
  disjoint := by
    rw [Finset.disjoint_left]
    intro x hx hr
    rcases Finset.mem_erase.mp hr with ⟨hne, hr⟩
    rcases Finset.mem_insert.mp hx with heq | hx
    · exact hne heq
    · exact Finset.disjoint_left.mp v.disjoint hx hr

def remove (v : Overlay K) (k : K) : Overlay K where
  base := v.base
  inserted := v.inserted.erase k
  removed := Insert.insert k v.removed
  disjoint := by
    rw [Finset.disjoint_left]
    intro x hx hr
    rcases Finset.mem_erase.mp hx with ⟨hne, hx⟩
    rcases Finset.mem_insert.mp hr with heq | hr
    · exact hne heq
    · exact Finset.disjoint_left.mp v.disjoint hx hr

/-- Rebuild the base from what is live. -/
def merge (v : Overlay K) : Overlay K where
  base := v.live
  inserted := ∅
  removed := ∅
  disjoint := Finset.disjoint_empty_left _

/-- Add keys to the base, past the pending changes. -/
def load (v : Overlay K) (ks : Finset K) : Overlay K :=
  { v with base := v.base ∪ ks }

theorem live_insert (v : Overlay K) (k : K) : (v.insert k).live = Insert.insert k v.live := by
  ext x
  rw [mem_live, mem_insert, mem_live]
  simp only [insert, mem_insert, mem_erase]
  tauto

theorem live_remove (v : Overlay K) (k : K) : (v.remove k).live = v.live.erase k := by
  ext x
  rw [mem_live, mem_erase, mem_live]
  simp only [remove, mem_insert, mem_erase]
  tauto

@[simp] theorem live_merge (v : Overlay K) : v.merge.live = v.live := by
  rw [live, merge]
  simp

theorem live_load (v : Overlay K) (ks : Finset K) : (v.load ks).live = v.live ∪ (ks \ v.removed) := by
  ext x
  rw [mem_live, mem_union, mem_sdiff, mem_live]
  simp only [load, mem_union]
  tauto

theorem live_load_eq_union_iff (v : Overlay K) (ks : Finset K) :
    (v.load ks).live = v.live ∪ ks ↔ Disjoint ks v.removed := by
  rw [live_load, disjoint_left]
  constructor
  · intro heq x hx hr
    have hmem : x ∈ v.live ∪ (ks \ v.removed) := by
      rw [heq]
      exact mem_union_right _ hx
    rcases mem_union.mp hmem with hl | hd
    · rcases mem_live.mp hl with hi | ⟨hn, -⟩
      · exact disjoint_left.mp v.disjoint hi hr
      · exact hn hr
    · exact (mem_sdiff.mp hd).2 hr
  · intro hdis
    rw [sdiff_eq_self_of_disjoint (disjoint_left.mpr hdis)]

/-! ## Counting -/

/-- No pending change is idle. -/
structure Tight (v : Overlay K) : Prop where
  removed_base : v.removed ⊆ v.base
  inserted_new : Disjoint v.inserted v.base

theorem card_live (h : v.Tight) :
    v.live.card = v.base.card - v.removed.card + v.inserted.card := by
  have hdis : Disjoint (v.base \ v.removed) v.inserted :=
    disjoint_of_subset_left sdiff_subset h.inserted_new.symm
  rw [live, card_union_of_disjoint hdis, card_sdiff_of_subset h.removed_base]

theorem tight_merge (v : Overlay K) : v.merge.Tight :=
  ⟨empty_subset _, disjoint_empty_left _⟩

theorem Tight.insert (h : v.Tight) (hk : k ∉ v.base) : (v.insert k).Tight := by
  constructor
  · exact (erase_subset _ _).trans h.removed_base
  · rw [disjoint_left]
    intro x hx
    rcases mem_insert.mp hx with rfl | hx
    · exact hk
    · exact disjoint_left.mp h.inserted_new hx

theorem Tight.remove (h : v.Tight) (hk : k ∈ v.base) : (v.remove k).Tight := by
  constructor
  · intro x hx
    rcases mem_insert.mp hx with rfl | hx
    · exact hk
    · exact h.removed_base hx
  · exact disjoint_of_subset_left (erase_subset _ _) h.inserted_new

end Overlay

end Nova.Lib
