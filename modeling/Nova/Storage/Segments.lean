import Nova.Storage.Wal
import Nova.Lib.Files

/-!
# The segments of the log

A store that opens a data directory replays every segment from a number on. `Logged` says
which records it gets, if no segment is torn. It depends on these segments only
(`Logged.congr`); a new segment adds nothing (`Logged.create`), an empty one can be
deleted (`Logged.keep`), and records are appended behind all others if the segments after
theirs are empty (`Logged.append`).
-/

namespace Nova.Wal

open Nova.Lib List

variable {crc32 : Bytes → UInt32} {segments : Files Bytes} {m n : Nat} {rs rs' : List WalRecord}

/-- The file was written record by record, and each record fits. -/
def Whole (crc32 : Bytes → UInt32) (file : Bytes) (rs : List WalRecord) : Prop :=
  (∀ r ∈ rs, PayloadShort r) ∧ file = (format crc32).log rs

/-- The records of the files, one file after another. -/
inductive Holds (crc32 : Bytes → UInt32) : List (Nat × Bytes) → List WalRecord → Prop
  | nil : Holds crc32 [] []
  | cons {e : Nat × Bytes} {rest : List (Nat × Bytes)} {rs rs' : List WalRecord} (h : Whole crc32 e.2 rs)
      (hrest : Holds crc32 rest rs') : Holds crc32 (e :: rest) (rs ++ rs')

/-- Replaying the segments from number `m` on gives the records. -/
def Logged (crc32 : Bytes → UInt32) (segments : Files Bytes) (m : Nat) (rs : List WalRecord) : Prop :=
  Holds crc32 (segments.since m) rs

theorem whole_nil : Whole crc32 [] [] := ⟨nofun, rfl⟩

theorem Whole.of_nil (h : Whole crc32 [] rs) : rs = [] := by
  cases rs with
  | nil => rfl
  | cons r rs =>
    have hlen := congrArg List.length h.2
    have hframe := length_frameRecord crc32 r
    have hsame : ((format crc32).frame r).length = (frameRecord crc32 r).length := rfl
    simp only [Log.Format.log_cons, length_append, length_nil] at hlen
    omega

theorem Whole.append {file : Bytes} (h : Whole crc32 file rs) (hshort : ∀ r ∈ rs', PayloadShort r) :
    Whole crc32 (file ++ (format crc32).log rs') (rs ++ rs') := by
  constructor
  · intro r hr
    rcases mem_append.mp hr with hr | hr
    · exact h.1 r hr
    · exact hshort r hr
  · rw [h.2, Log.Format.log_append]

theorem Whole.replay {file : Bytes} (h : Whole crc32 file rs) :
    (Wal.replay crc32 file).applied = rs ∧ (Wal.replay crc32 file).file = file := by
  rcases h with ⟨hshort, rfl⟩
  rw [replay_log crc32 hshort]
  exact ⟨rfl, rfl⟩

namespace Holds

variable {l : List (Nat × Bytes)}

theorem append {l' : List (Nat × Bytes)} (h : Holds crc32 l rs) (h' : Holds crc32 l' rs') :
    Holds crc32 (l ++ l') (rs ++ rs') := by
  induction h with
  | nil => exact h'
  | cons hfile _ ih =>
    rw [cons_append, append_assoc]
    exact .cons hfile ih

theorem of_append {l' : List (Nat × Bytes)} (h : Holds crc32 (l ++ l') rs) :
    ∃ rs₁ rs₂, Holds crc32 l rs₁ ∧ Holds crc32 l' rs₂ ∧ rs = rs₁ ++ rs₂ := by
  induction l generalizing rs with
  | nil => exact ⟨[], rs, .nil, h, rfl⟩
  | cons e l ih =>
    cases h with
    | cons hfile hrest =>
      rcases ih hrest with ⟨rs₁, rs₂, h₁, h₂, rfl⟩
      exact ⟨_, rs₂, .cons hfile h₁, h₂, (append_assoc _ _ _).symm⟩

theorem of_empty (hempty : ∀ e ∈ l, e.2 = []) (h : Holds crc32 l rs) : rs = [] := by
  induction h with
  | nil => rfl
  | cons hfile _ ih =>
    rw [hempty _ mem_cons_self] at hfile
    rw [hfile.of_nil, ih fun e he => hempty e (mem_cons_of_mem _ he)]
    rfl

theorem empty (hempty : ∀ e ∈ l, e.2 = []) : Holds crc32 l [] := by
  induction l with
  | nil => exact .nil
  | cons e l ih =>
    have hfile : Whole crc32 e.2 [] := by
      rw [hempty e mem_cons_self]
      exact whole_nil
    exact .cons hfile (ih fun e he => hempty e (mem_cons_of_mem _ he))

theorem filter {p : Nat × Bytes → Bool} (hgone : ∀ e ∈ l, p e = false → e.2 = [])
    (h : Holds crc32 l rs) : Holds crc32 (l.filter p) rs := by
  induction h with
  | nil => exact .nil
  | @cons e rest rs rs' hfile _ ih =>
    have hrest := ih fun e he => hgone e (mem_cons_of_mem _ he)
    rw [filter_cons]
    split
    · exact .cons hfile hrest
    · next hp =>
      rw [hgone e mem_cons_self (by simpa using hp)] at hfile
      rw [hfile.of_nil]
      exact hrest

end Holds

namespace Logged

theorem keep {p : Nat → Bool} (h : Logged crc32 segments m rs)
    (hgone : ∀ e ∈ segments.since m, p e.1 = false → e.2 = []) : Logged crc32 (segments.keep p) m rs := by
  rw [Logged, Files.since_keep]
  exact Holds.filter hgone h

theorem create (h : Logged crc32 segments m rs) (hm : m ≤ n) :
    Logged crc32 (segments.put n ((segments.get n).getD [])) m rs := by
  cases hfile : segments.get n with
  | some file =>
    rw [Option.getD_some, Files.put_get hfile]
    exact h
  | none =>
    rcases Files.since_put segments ((none : Option Bytes).getD []) hm with ⟨l₁, l₂, hold, hnew, -⟩
    rw [hfile] at hold
    rw [Logged, hold] at h
    rw [Logged, hnew]
    rcases Holds.of_append h with ⟨rs₁, rs₂, h₁, h₂, rfl⟩
    have hlast : Holds crc32 ((n, (none : Option Bytes).getD []) :: l₂) ([] ++ rs₂) := .cons whole_nil h₂
    refine Holds.append ?_ hlast
    simpa using h₁

theorem append (h : Logged crc32 segments m rs) (hm : m ≤ n) (hlater : ∀ e ∈ segments.entries, n < e.1 → e.2 = [])
    (hshort : ∀ r ∈ rs', PayloadShort r) :
    Logged crc32 (segments.put n ((segments.get n).getD [] ++ (format crc32).log rs')) m (rs ++ rs') := by
  rcases Files.since_put segments ((segments.get n).getD [] ++ (format crc32).log rs') hm
    with ⟨l₁, l₂, hold, hnew, hrest⟩
  have hempty : ∀ e ∈ l₂, e.2 = [] := fun e he => hlater e (hrest e he).1 (hrest e he).2
  rw [Logged, hold] at h
  rw [Logged, hnew]
  rcases Holds.of_append h with ⟨rs₁, rs₂, h₁, h₂, rfl⟩
  rcases Holds.of_append h₁ with ⟨rs₀, rsₙ, h₀, hn, rfl⟩
  have hn' : Whole crc32 ((segments.get n).getD []) rsₙ := by
    cases hfile : segments.get n with
    | none =>
      rw [hfile] at hn
      cases hn
      exact whole_nil
    | some file =>
      rw [hfile] at hn
      cases hn with
      | cons hfile hnil =>
        cases hnil
        rw [append_nil]
        exact hfile
  have hlast : Holds crc32 ((n, (segments.get n).getD [] ++ (format crc32).log rs') :: l₂) (rsₙ ++ rs' ++ []) :=
    .cons (hn'.append hshort) (Holds.empty hempty)
  have hend := Holds.append h₀ hlast
  rw [Holds.of_empty hempty h₂]
  simpa only [append_nil, append_assoc] using hend

theorem empty (hempty : ∀ e ∈ segments.since m, e.2 = []) : Logged crc32 segments m [] := Holds.empty hempty

end Logged

end Nova.Wal
