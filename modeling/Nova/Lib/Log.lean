import Nova.Lib.Bytes

/-!
# Append-only logs of framed records

A log file is the concatenation of frames, and recovery reads frames from the
front until it meets one it does not accept; everything from there on is cut
off. The format is a parameter: how a record is framed, and what a reader
recognises at the head of the octets it has not read yet.

The one notion is `Faithful F r`: the frame of `r` is recognised wherever it
stands, and no strict prefix of it is mistaken for a frame. A log of faithful
records survives truncation at *any* octet (`scan_take`), and recovery is
idempotent and composes with later appends (`scan_append`).
-/

namespace Nova.Lib.Log

open List

variable {ρ : Type}

/-- A framing of records `ρ`: the writer's frame, and the reader's view of the
octets it has not consumed yet. The reader always consumes something and never
more than there is. -/
structure Format (ρ : Type) where
  frame : ρ → Bytes
  next : Bytes → Option (ρ × Nat)
  next_consumes : ∀ {rest : Bytes} {r : ρ} {n : Nat}, next rest = some (r, n) →
    0 < n ∧ n ≤ rest.length

namespace Format

variable (F : Format ρ)

/-- The file a list of records is written to. -/
def log : List ρ → Bytes
  | [] => []
  | r :: rs => F.frame r ++ log rs

@[simp] theorem log_nil : F.log [] = [] := rfl

@[simp] theorem log_cons (r : ρ) (rs : List ρ) : F.log (r :: rs) = F.frame r ++ F.log rs := rfl

@[simp] theorem log_append (rs rs' : List ρ) : F.log (rs ++ rs') = F.log rs ++ F.log rs' := by
  induction rs with
  | nil => rfl
  | cons r rs ih => simp [ih]

/-- Read at most `fuel` frames. -/
def scanUpTo : Nat → Bytes → List ρ × Nat
  | 0, _ => ([], 0)
  | fuel + 1, rest =>
    match F.next rest with
    | none => ([], 0)
    | some (r, n) =>
      let tail := scanUpTo fuel (rest.drop n)
      (r :: tail.1, n + tail.2)

/-- Read frames until one is not accepted: the records read and the number of
octets they take. Every frame takes an octet, so the length is enough fuel. -/
def scan (rest : Bytes) : List ρ × Nat := F.scanUpTo rest.length rest

theorem scanUpTo_of_none {rest : Bytes} (h : F.next rest = none) (fuel : Nat) :
    F.scanUpTo fuel rest = ([], 0) := by
  cases fuel with
  | zero => rfl
  | succ fuel => rw [scanUpTo, h]

theorem scan_of_none {rest : Bytes} (h : F.next rest = none) : F.scan rest = ([], 0) :=
  F.scanUpTo_of_none h _

theorem scanUpTo_of_le {fuel : Nat} : ∀ {rest : Bytes}, rest.length ≤ fuel →
    F.scanUpTo fuel rest = F.scan rest := by
  -- more fuel than octets changes nothing
  have hstep : ∀ (fuel : Nat) {rest : Bytes}, rest.length ≤ fuel →
      F.scanUpTo (fuel + 1) rest = F.scanUpTo fuel rest := by
    intro fuel
    induction fuel with
    | zero =>
      intro rest h
      have hnone : F.next rest = none := by
        cases hnext : F.next rest with
        | none => rfl
        | some p =>
          obtain ⟨r, n⟩ := p
          have hn := F.next_consumes hnext
          omega
      rw [F.scanUpTo_of_none hnone, F.scanUpTo_of_none hnone]
    | succ fuel ih =>
      intro rest h
      rw [scanUpTo, scanUpTo]
      cases hnext : F.next rest with
      | none => rfl
      | some p =>
        obtain ⟨r, n⟩ := p
        have hn := F.next_consumes hnext
        have hrest : (rest.drop n).length ≤ fuel := by
          rw [length_drop]
          omega
        simp only [ih hrest]
  intro rest h
  induction fuel, h using Nat.le_induction with
  | base => rfl
  | succ fuel h ih => rw [hstep fuel h, ih]

theorem scan_of_some {rest : Bytes} {r : ρ} {n : Nat} (h : F.next rest = some (r, n)) :
    F.scan rest = (r :: (F.scan (rest.drop n)).1, n + (F.scan (rest.drop n)).2) := by
  have hn := F.next_consumes h
  obtain ⟨fuel, hfuel⟩ : ∃ fuel, rest.length = fuel + 1 := ⟨rest.length - 1, by omega⟩
  have hrest : (rest.drop n).length ≤ fuel := by
    rw [length_drop]
    omega
  rw [scan, hfuel, scanUpTo, h]
  simp only [F.scanUpTo_of_le hrest]

theorem next_nil : F.next [] = none := by
  cases h : F.next [] with
  | none => rfl
  | some p =>
    obtain ⟨r, n⟩ := p
    have hn := F.next_consumes h
    simp only [length_nil] at hn
    omega

@[simp] theorem scan_nil : F.scan [] = ([], 0) := F.scan_of_none F.next_nil

/-- The frame of `r` is recognised wherever it stands, and no strict prefix of
it is. -/
structure Faithful (r : ρ) : Prop where
  whole : ∀ rest, F.next (F.frame r ++ rest) = some (r, (F.frame r).length)
  torn : ∀ n, n < (F.frame r).length → F.next ((F.frame r).take n) = none

variable {F}

/-- Faithful records in front are read first, then the scan goes on with what
follows them. -/
theorem scan_append {rs : List ρ} (h : ∀ r ∈ rs, F.Faithful r) (rest : Bytes) :
    F.scan (F.log rs ++ rest) =
      (rs ++ (F.scan rest).1, (F.log rs).length + (F.scan rest).2) := by
  induction rs with
  | nil => simp
  | cons r rs ih =>
    have hr := h r mem_cons_self
    have hrs := ih fun r' hr' => h r' (mem_cons_of_mem r hr')
    have hnext : F.next (F.log (r :: rs) ++ rest) = some (r, (F.frame r).length) := by
      rw [log_cons, append_assoc]
      exact hr.whole _
    have hdrop : (F.log (r :: rs) ++ rest).drop (F.frame r).length = F.log rs ++ rest := by
      rw [log_cons, append_assoc, drop_left]
    rw [F.scan_of_some hnext, hdrop, hrs, log_cons, length_append]
    simp [Nat.add_assoc]

theorem scan_log {rs : List ρ} (h : ∀ r ∈ rs, F.Faithful r) :
    F.scan (F.log rs) = (rs, (F.log rs).length) := by
  have hscan := scan_append h []
  simpa using hscan

variable (F)

/-- The records whose frames lie wholly within the first `n` octets. -/
def wholeWithin : List ρ → Nat → List ρ
  | [], _ => []
  | r :: rs, n =>
    if (F.frame r).length ≤ n then r :: wholeWithin rs (n - (F.frame r).length) else []

theorem wholeWithin_initial (rs : List ρ) (n : Nat) : F.wholeWithin rs n <+: rs := by
  induction rs generalizing n with
  | nil => exact prefix_rfl
  | cons r rs ih =>
    unfold wholeWithin
    split
    · exact cons_prefix_cons.mpr ⟨rfl, ih _⟩
    · exact nil_prefix

theorem log_wholeWithin_le (rs : List ρ) (n : Nat) : (F.log (F.wholeWithin rs n)).length ≤ n := by
  induction rs generalizing n with
  | nil => simp [wholeWithin]
  | cons r rs ih =>
    unfold wholeWithin
    split
    · have hrs := ih (n - (F.frame r).length)
      rw [log_cons, length_append]
      omega
    · simp

theorem wholeWithin_length (rs : List ρ) : F.wholeWithin rs (F.log rs).length = rs := by
  induction rs with
  | nil => rfl
  | cons r rs ih =>
    have hle : (F.frame r).length ≤ (F.log (r :: rs)).length := by simp
    have hsub : (F.log (r :: rs)).length - (F.frame r).length = (F.log rs).length := by simp
    rw [wholeWithin, if_pos hle, hsub, ih]

theorem take_log_wholeWithin (rs : List ρ) (n : Nat) :
    ((F.log rs).take n).take (F.log (F.wholeWithin rs n)).length = F.log (F.wholeWithin rs n) := by
  obtain ⟨tail, htail⟩ := F.wholeWithin_initial rs n
  have hle := F.log_wholeWithin_le rs n
  have hlog : F.log rs = F.log (F.wholeWithin rs n) ++ F.log tail := by
    rw [← log_append, htail]
  rw [take_take, Nat.min_eq_left hle, hlog, take_left]

variable {F}

/-- Truncation at any octet: the scan finds exactly the whole frames. Induction
on the records; the cut falls either past the first frame or inside it. -/
theorem scan_take {rs : List ρ} (h : ∀ r ∈ rs, F.Faithful r) (n : Nat) :
    F.scan ((F.log rs).take n) =
      (F.wholeWithin rs n, (F.log (F.wholeWithin rs n)).length) := by
  induction rs generalizing n with
  | nil => simp [wholeWithin]
  | cons r rs ih =>
    have hr := h r mem_cons_self
    have hrs := ih fun r' hr' => h r' (mem_cons_of_mem r hr')
    unfold wholeWithin
    split
    · rename_i hle
      have htake : (F.log (r :: rs)).take n =
          F.frame r ++ (F.log rs).take (n - (F.frame r).length) := by
        rw [log_cons, take_append, take_of_length_le hle]
      have hnext := hr.whole ((F.log rs).take (n - (F.frame r).length))
      rw [htake, F.scan_of_some hnext, drop_left, hrs, log_cons, length_append]
    · rename_i hgt
      have htake : (F.log (r :: rs)).take n = (F.frame r).take n := by
        rw [log_cons, take_append_of_le_length (by omega)]
      rw [htake, F.scan_of_none (hr.torn n (by omega))]
      simp

end Format

end Nova.Lib.Log
