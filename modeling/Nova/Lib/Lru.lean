import Mathlib.Data.List.Basic

/-!
# A bounded least-recently-used cache

Entries from the most to the least recently used. A cache of true facts stays
one: `get` returns an entry it holds and `put` adds no other than its own
(`Lru.get_spec`, `Lru.mem_put`).
-/

namespace Nova.Lib

open List

structure Lru (κ ν : Type) where
  capacity : Nat
  entries : List (κ × ν)
deriving DecidableEq

namespace Lru

variable {κ ν : Type} [DecidableEq κ]

/-- Look a key up and move its entry to the front. -/
def get (c : Lru κ ν) (k : κ) : Option ν × Lru κ ν :=
  match c.entries.find? fun e => e.1 = k with
  | none => (none, c)
  | some e => (some e.2, { c with entries := e :: c.entries.filter fun e' => e'.1 ≠ k })

/-- Insert or replace at the front; the least recently used entry goes when
the cache is full. -/
def put (c : Lru κ ν) (k : κ) (v : ν) : Lru κ ν :=
  { c with entries := ((k, v) :: c.entries.filter fun e => e.1 ≠ k).take c.capacity }

def clear (c : Lru κ ν) : Lru κ ν := { c with entries := [] }

theorem get_spec (c : Lru κ ν) (k : κ) :
    (∀ v, (c.get k).1 = some v → (k, v) ∈ c.entries) ∧
      ∀ e ∈ (c.get k).2.entries, e ∈ c.entries := by
  cases hfind : c.entries.find? (fun e => e.1 = k) with
  | none =>
    simp only [get, hfind]
    refine ⟨?_, fun e he => he⟩
    intro v hv
    cases hv
  | some e =>
    have hmem : e ∈ c.entries := mem_of_find?_eq_some hfind
    have hkey : e.1 = k := by simpa using find?_some hfind
    simp only [get, hfind]
    constructor
    · intro v hv
      have hev : e = (k, v) := Prod.ext hkey (Option.some.inj hv)
      rwa [← hev]
    · intro e' he'
      rcases mem_cons.mp he' with rfl | he'
      · exact hmem
      · exact mem_of_mem_filter he'

theorem mem_put {c : Lru κ ν} {k : κ} {v : ν} {e : κ × ν} (he : e ∈ (c.put k v).entries) :
    e = (k, v) ∨ e ∈ c.entries := by
  rcases mem_cons.mp (mem_of_mem_take he) with heq | hmem
  · exact .inl heq
  · exact .inr (mem_of_mem_filter hmem)

end Lru

end Nova.Lib
