import Nova.Lib.Bytes

/-!
# Cursor readers

A decoder in the style `fn read(buf: &[u8], pos: &mut usize) -> Result<T>`: it
looks at a whole buffer, starts at a cursor and either fails or returns a value
together with the advanced cursor.

Three properties are carried through every composite reader, one rule per
combinator:

* `Reads rd enc a` — wherever the octets `enc` stand in a buffer, `rd` started
  at them returns `a` and stops exactly at their end;
* `Local rd` — a successful read stays inside the buffer and does not depend
  on anything after the octets it consumed;
* `Ensures rd P` — whatever is read satisfies `P`.

The first two together say that a reader can neither stop early nor run into
the octets of the next record (`reads_not_prefix`).
-/

namespace Nova.Lib

open List

/-! ## Results -/

section Results

variable {ε α β : Type}

@[simp] theorem except_pure (a : α) : (pure a : Except ε α) = .ok a := rfl

@[simp] theorem ok_bind (a : α) (f : α → Except ε β) : (Except.ok a >>= f) = f a := rfl

@[simp] theorem error_bind (e : ε) (f : α → Except ε β) :
    (Except.error e >>= f) = .error e := rfl

theorem bind_ok {x : Except ε α} {f : α → Except ε β} {b : β}
    (h : (x >>= f) = .ok b) : ∃ a, x = .ok a ∧ f a = .ok b := by
  cases x with
  | error e => cases h
  | ok a => exact ⟨a, rfl, h⟩

end Results

/-! ## Readers -/

/-- A cursor reader over an immutable buffer. -/
def Reader (ε α : Type) : Type := Bytes → Nat → Except ε (α × Nat)

namespace Reader

variable {ε α β : Type}

/-- Fail without touching the cursor. -/
def fail (e : ε) : Reader ε α := fun _ _ => .error e

instance : Monad (Reader ε) where
  pure a := fun _ pos => .ok (a, pos)
  bind rd f := fun buf pos =>
    match rd buf pos with
    | .ok (a, pos') => f a buf pos'
    | .error e => .error e

@[simp] theorem pure_apply (a : α) (buf : Bytes) (pos : Nat) :
    (pure a : Reader ε α) buf pos = .ok (a, pos) := rfl

theorem bind_apply (rd : Reader ε α) (f : α → Reader ε β) (buf : Bytes) (pos : Nat) :
    (rd >>= f) buf pos =
      match rd buf pos with
      | .ok (a, pos') => f a buf pos'
      | .error e => .error e := rfl

variable {rd : Reader ε α} {f : α → Reader ε β}

/-- Inversion of a sequence: both halves succeeded, the second one from the
cursor the first one left. -/
theorem bind_eq_ok {buf : Bytes} {pos pos' : Nat} {b : β} (h : (rd >>= f) buf pos = .ok (b, pos')) :
    ∃ a p, rd buf pos = .ok (a, p) ∧ f a buf p = .ok (b, pos') := by
  rw [bind_apply] at h
  cases hrd : rd buf pos with
  | error e => simp [hrd] at h
  | ok r =>
    obtain ⟨a, p⟩ := r
    exact ⟨a, p, rfl, by simpa [hrd] using h⟩

/-! ## Reading back an encoding -/

/-- `rd` decodes the octets `enc` to `a` wherever they stand, and consumes
exactly them. -/
def Reads (rd : Reader ε α) (enc : Bytes) (a : α) : Prop :=
  ∀ pre post : Bytes, rd (pre ++ enc ++ post) pre.length = .ok (a, pre.length + enc.length)

theorem reads_pure (a : α) : Reads (pure a : Reader ε α) [] a := by
  intro pre post
  simp

theorem reads_bind {enc enc' : Bytes} {a : α} {b : β}
    (h : Reads rd enc a) (h' : Reads (f a) enc' b) : Reads (rd >>= f) (enc ++ enc') b := by
  intro pre post
  have h1 := h pre (enc' ++ post)
  have h2 := h' (pre ++ enc) post
  have hbuf : pre ++ (enc ++ enc') ++ post = pre ++ enc ++ (enc' ++ post) := by simp
  have hbuf' : pre ++ enc ++ (enc' ++ post) = pre ++ enc ++ enc' ++ post := by simp
  have hpos : pre.length + enc.length = (pre ++ enc).length := by simp
  rw [hbuf, bind_apply, h1]
  simp only
  rw [hbuf', hpos, h2]
  simp [Nat.add_assoc]

theorem reads_bind_pure {g : α → β} {enc : Bytes} {a : α}
    (h : Reads rd enc a) : Reads (rd >>= fun x => pure (g x)) enc (g a) := by
  have h' := reads_bind (f := fun x => (pure (g x) : Reader ε β)) h (reads_pure (g a))
  rwa [append_nil] at h'

/-- `n` values one after another. -/
def many (rd : Reader ε α) : Nat → Reader ε (List α)
  | 0 => pure []
  | n + 1 => do
    let a ← rd
    let rest ← many rd n
    pure (a :: rest)

theorem reads_many {enc : α → Bytes} {values : List α} (h : ∀ a ∈ values, Reads rd (enc a) a) :
    Reads (many rd values.length) (values.flatMap enc) values := by
  induction values with
  | nil => exact reads_pure []
  | cons a values ih =>
    apply reads_bind (h a mem_cons_self)
    exact reads_bind_pure (ih fun b hb => h b (mem_cons_of_mem a hb))

/-! ## Locality -/

/-- A successful read moves the cursor forward, stays inside the buffer and is
unaffected by octets appended to it. -/
def Local (rd : Reader ε α) : Prop :=
  ∀ buf pos a pos', rd buf pos = .ok (a, pos') →
    pos ≤ pos' ∧ (pos < pos' → pos' ≤ buf.length) ∧
      ∀ ext, rd (buf ++ ext) pos = .ok (a, pos')

theorem local_pure (a : α) : Local (pure a : Reader ε α) := by
  intro buf pos b pos' h
  cases h
  exact ⟨le_rfl, fun hlt => absurd hlt (lt_irrefl pos), fun _ => rfl⟩

theorem local_fail (e : ε) : Local (fail e : Reader ε α) := by
  intro buf pos b pos' h
  cases h

theorem local_bind
    (h : Local rd) (h' : ∀ a, Local (f a)) : Local (rd >>= f) := by
  intro buf pos b pos' hok
  obtain ⟨a, p, hrd, hf⟩ := bind_eq_ok hok
  obtain ⟨hle, hin, hext⟩ := h buf pos a p hrd
  obtain ⟨hle', hin', hext'⟩ := h' a buf p b pos' hf
  refine ⟨hle.trans hle', ?_, ?_⟩
  · intro hlt
    -- the cursor that ends the sequence was set by whichever half moved last
    rcases Nat.lt_or_ge p pos' with hp | hp
    · exact hin' hp
    · have hpp : pos' = p := by omega
      rw [hpp]
      exact hin (by omega)
  · intro ext
    rw [bind_apply, hext ext]
    exact hext' ext

/-! ## Progress -/

/-- A successful read never moves the cursor back. -/
def Forward (rd : Reader ε α) : Prop :=
  ∀ buf pos a pos', rd buf pos = .ok (a, pos') → pos ≤ pos'

theorem forward_pure (a : α) : Forward (pure a : Reader ε α) := by
  intro buf pos b pos' h
  cases h
  exact le_rfl

theorem forward_fail (e : ε) : Forward (fail e : Reader ε α) := by
  intro buf pos b pos' h
  cases h

theorem forward_bind
    (h : Forward rd) (h' : ∀ a, Forward (f a)) : Forward (rd >>= f) := by
  intro buf pos b pos' hok
  rcases bind_eq_ok hok with ⟨a, p, hrd, hf⟩
  exact (h _ _ _ _ hrd).trans (h' a _ _ _ _ hf)

/-! ## Postconditions -/

/-- Every value a successful read returns satisfies `P`. -/
def Ensures (rd : Reader ε α) (P : α → Prop) : Prop :=
  ∀ buf pos a pos', rd buf pos = .ok (a, pos') → P a

theorem ensures_pure {a : α} {P : α → Prop} (h : P a) : Ensures (pure a : Reader ε α) P := by
  intro buf pos b pos' hok
  cases hok
  exact h

theorem ensures_fail (e : ε) (P : α → Prop) : Ensures (fail e : Reader ε α) P := by
  intro buf pos b pos' hok
  cases hok

theorem ensures_bind {P : α → Prop} {Q : β → Prop}
    (h : Ensures rd P) (h' : ∀ a, P a → Ensures (f a) Q) : Ensures (rd >>= f) Q := by
  intro buf pos b pos' hok
  obtain ⟨a, p, hrd, hf⟩ := bind_eq_ok hok
  exact h' a (h _ _ _ _ hrd) _ _ _ _ hf

/-- A reader that decodes `enc` exactly cannot decode anything from a strict
prefix of `enc` to the same value: it would have to stop before its end. -/
theorem reads_not_prefix {enc : Bytes} {a : α} (hl : Local rd)
    (hr : Reads rd enc a) {n : Nat} (hn : n < enc.length) {b : α} {pos' : Nat}
    (hp : pos' ≤ n) : rd (enc.take n) 0 ≠ .ok (b, pos') := by
  intro hok
  obtain ⟨-, -, hext⟩ := hl _ _ _ _ hok
  have h1 := hext (enc.drop n)
  rw [take_append_drop] at h1
  have h2 := hr [] []
  simp only [nil_append, append_nil, length_nil, Nat.zero_add] at h2
  rw [h1] at h2
  have hpos : pos' = enc.length := congrArg Prod.snd (Except.ok.inj h2)
  omega

end Reader

end Nova.Lib
