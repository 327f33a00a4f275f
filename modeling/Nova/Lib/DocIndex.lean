import Mathlib.Data.Finset.Basic
import Mathlib.Data.List.Nodup

/-!
# Document indexes

A list of documents that mirrors a set of keys: `docOf` says which document a key has,
if it has one, and `Indexes` that the list has the documents of the keys, each once. It
is kept up to date by deleting by key and by adding after a delete (`Indexes.delete`,
`Indexes.add`), and follows a list of marked keys in whatever order they come
(`mem_markAll`).
-/

namespace Nova.Lib

open List

variable {K Doc : Type} {key : Doc → K} {docOf docOf' : K → Option Doc}
variable {ks ks' : Finset K} {docs : List Doc}

/-- The documents are those of the keys, one for each key. -/
structure Indexes (key : Doc → K) (docOf : K → Option Doc) (ks : Finset K) (docs : List Doc) : Prop where
  unique : (docs.map key).Nodup
  mem : ∀ doc, doc ∈ docs ↔ key doc ∈ ks ∧ docOf (key doc) = some doc

theorem indexes_nil : Indexes key docOf ∅ [] where
  unique := nodup_nil
  mem := by
    intro doc
    simp

theorem Indexes.congr (h : Indexes key docOf ks docs)
    (hks : ∀ k doc, docOf' k = some doc → (k ∈ ks' ↔ k ∈ ks))
    (hdoc : ∀ k doc, k ∈ ks → (docOf' k = some doc ↔ docOf k = some doc)) : Indexes key docOf' ks' docs where
  unique := h.unique
  mem := by
    intro doc
    rw [h.mem]
    constructor
    · rintro ⟨hk, hd⟩
      have hd' := (hdoc _ _ hk).mpr hd
      exact ⟨(hks _ _ hd').mpr hk, hd'⟩
    · rintro ⟨hk, hd⟩
      have hk' := (hks _ _ hd).mp hk
      exact ⟨hk', (hdoc _ _ hk').mp hd⟩

variable [DecidableEq K]

theorem Indexes.delete (h : Indexes key docOf ks docs) (k : K) :
    Indexes key docOf (ks.erase k) (docs.filter fun doc => key doc ≠ k) where
  unique := h.unique.sublist (filter_sublist.map key)
  mem := by
    intro doc
    simp only [mem_filter, h.mem, Finset.mem_erase, decide_eq_true_eq]
    tauto

/-- A key with a document, which may have been there before. -/
theorem Indexes.add (h : Indexes key docOf ks docs) {doc : Doc} (hdoc : docOf (key doc) = some doc) :
    Indexes key docOf (insert (key doc) ks) ((docs.filter fun d => key d ≠ key doc) ++ [doc]) where
  unique := by
    rw [map_append, nodup_append']
    refine ⟨(h.delete (key doc)).unique, nodup_singleton _, ?_⟩
    intro k hk hk'
    rcases mem_map.mp hk with ⟨d, hd, rfl⟩
    have hne : key d ≠ key doc := by simpa using (mem_filter.mp hd).2
    exact hne (mem_singleton.mp hk')
  mem := by
    intro d
    rw [mem_append, (h.delete (key doc)).mem, mem_singleton, Finset.mem_insert, Finset.mem_erase]
    constructor
    · rintro (⟨⟨-, hk⟩, hd⟩ | rfl)
      · exact ⟨.inr hk, hd⟩
      · exact ⟨.inl rfl, hdoc⟩
    · rintro ⟨hk | hk, hd⟩
      · right
        rw [hk, hdoc] at hd
        exact (Option.some.inj hd).symm
      · by_cases heq : key d = key doc
        · right
          rw [heq, hdoc] at hd
          exact (Option.some.inj hd).symm
        · exact .inl ⟨⟨heq, hk⟩, hd⟩

theorem Indexes.skip (h : Indexes key docOf ks docs) {k : K} (hnone : docOf k = none) :
    Indexes key docOf (insert k ks) docs := by
  refine h.congr ?_ fun _ _ _ => Iff.rfl
  intro k' doc hdoc
  have hne : k' ≠ k := by
    rintro rfl
    rw [hnone] at hdoc
    cases hdoc
  rw [Finset.mem_insert, or_iff_right hne]

/-! ## Marked keys -/

/-- A key that is to be there or not to be there. -/
def mark (ks : Finset K) (e : K × Bool) : Finset K := if e.2 then insert e.1 ks else ks.erase e.1

def markAll (ks : Finset K) (entries : List (K × Bool)) : Finset K := entries.foldl mark ks

theorem mem_markAll {entries : List (K × Bool)} (hnodup : (entries.map Prod.fst).Nodup) {k : K} :
    k ∈ markAll ks entries ↔ (k, true) ∈ entries ∨ (k, false) ∉ entries ∧ k ∈ ks := by
  induction entries generalizing ks with
  | nil => simp [markAll]
  | cons e entries ih =>
    rcases e with ⟨k', b⟩
    rw [map_cons, nodup_cons] at hnodup
    have hfresh : ∀ b', (k', b') ∉ entries := fun b' hin => hnodup.1 (mem_map.mpr ⟨_, hin, rfl⟩)
    have hstep : markAll ks ((k', b) :: entries) = markAll (mark ks (k', b)) entries := rfl
    rw [hstep, ih hnodup.2]
    by_cases hk : k = k'
    · -- the rest does not mention the key
      subst hk
      cases b <;> simp [mark, hfresh]
    · cases b <;> simp [mark, hk]

end Nova.Lib
