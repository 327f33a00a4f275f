import Nova.Lib.Log
import Nova.Storage.WalCodec

/-!
# The write-ahead log: framing, appending and replay

On disk a record is `[u32 LE payload_len][payload][u32 LE crc32(payload)]`.
`replay` reads frames from the start of the segment and stops, without an
error, at the first sign of a torn write: an incomplete length prefix, a length
that does not fit in what is left of the file, a checksum mismatch or a payload
that does not decode. It then truncates the file to the last whole frame.

The checksum is a parameter: nothing is assumed of it beyond being a function
of the payload, so a stored checksum accepts what it was computed from. I/O
errors other than the modelled failed writes are not part of the model.

* `faithful_of_short` / `short_of_next`: a frame is read back exactly when its
  payload length fits the 32-bit length field;
* `replay_recovers_iff`: recovery of a log cut at any octet;
* `acked_sublist_replay`: what a replay sees after calls that failed part-way.
-/

namespace Nova.Wal

open Nova.Lib List Log.Format

variable {r : WalRecord}

section Framing

variable (crc32 : Bytes → UInt32)

/-- Frame one record. The length is a truncating cast to `u32`. -/
def frameRecord (r : WalRecord) : Bytes :=
  let payload := encodeRecord r
  u32le payload.length ++ payload ++ u32le (crc32 payload).toNat

/-- One turn of the replay loop: `rest` is what the reader has not consumed, so
`file_len - valid_len` is its length. Returns the record and the octets the
frame takes, or nothing where the loop breaks. -/
def nextFrame (rest : Bytes) : Option (WalRecord × Nat) :=
  let lenBytes := rest.take 4
  if lenBytes.length < 4 then
    none -- clean end of file, or a torn length prefix
  else
    let len := leNat lenBytes
    let remaining := rest.length - 4
    if len + 4 > remaining then
      none -- implausible length: stop before allocating
    else
      let payload := slice rest 4 len
      let crcBytes := slice rest (4 + len) 4
      if (crc32 payload).toNat ≠ leNat crcBytes then
        none
      else
        match decodeRecord payload with
        | .ok r => some (r, 4 + len + 4)
        | .error _ => none

theorem nextFrame_consumes {rest : Bytes} {n : Nat}
    (h : nextFrame crc32 rest = some (r, n)) : 0 < n ∧ n ≤ rest.length := by
  simp only [nextFrame] at h
  split at h
  · cases h
  · rename_i h4
    split at h
    · cases h
    · split at h
      · cases h
      · split at h
        · cases h
          omega
        · cases h

/-- The WAL as an instance of the log format. -/
def format : Log.Format WalRecord where
  frame := frameRecord crc32
  next := nextFrame crc32
  next_consumes := nextFrame_consumes crc32

/-- Result of a replay: the records handed to the callback, in order, how many
there were, and the file as it is left behind. -/
structure Replay where
  applied : List WalRecord
  count : Nat
  file : Bytes
deriving DecidableEq

/-- Replay a segment file and truncate a torn tail. -/
def replay (file : Bytes) : Replay :=
  let scanned := (format crc32).scan file
  { applied := scanned.1
    count := scanned.1.length
    file := if scanned.2 < file.length then file.take scanned.2 else file }

/-- Append one record: the frame goes to the end of the file. -/
def append (file : Bytes) (r : WalRecord) : Bytes := file ++ frameRecord crc32 r

/-- Append a batch: one buffer of frames, one write. -/
def appendBatch (file : Bytes) (rs : List WalRecord) : Bytes := file ++ (format crc32).log rs

end Framing

/-! ## Which records the framing can carry -/

/-- The payload fits the 32-bit length field. -/
def PayloadShort (r : WalRecord) : Prop := (encodeRecord r).length < 2 ^ 32

instance (r : WalRecord) : Decidable (PayloadShort r) := inferInstanceAs (Decidable (_ < _))

theorem length_writeString (s : String) : (writeString s).length = 4 + (utf8 s).length := by
  simp [writeString, u32le]

variable {x : String}

theorem length_subject_strings {s : Subject} (h : x ∈ s.strings) :
    (utf8 x).length ≤ (writeSubject s).length := by
  cases s <;> simp_all [Subject.strings, writeSubject, length_writeString] <;> omega

theorem length_graphName_strings {g : GraphName} (h : x ∈ g.strings) :
    (utf8 x).length ≤ (writeGraphName g).length := by
  cases g <;> simp_all [GraphName.strings, writeGraphName, length_writeString] <;> omega

theorem length_literal_strings {l : Literal} (h : x ∈ l.strings) :
    (utf8 x).length ≤ (writeTerm (.literal l)).length := by
  cases l with
  | string v =>
    simp_all [Literal.strings, writeTerm, Literal.direction, Literal.language, Literal.datatype,
      Literal.value, length_writeString]
    omega
  | languageTagged v l =>
    simp only [Literal.strings, mem_cons, not_mem_nil, or_false] at h
    rcases h with rfl | rfl <;> simp [writeTerm, Literal.direction, Literal.language,
      Literal.value, length_writeString] <;> omega
  | directional v l d =>
    simp only [Literal.strings, mem_cons, not_mem_nil, or_false] at h
    rcases h with rfl | rfl <;> simp [writeTerm, Literal.direction, Literal.language,
      Literal.value, length_writeString] <;> omega
  | typed v d hd =>
    simp only [Literal.strings, mem_cons, not_mem_nil, or_false] at h
    rcases h with rfl | rfl <;> simp [writeTerm, Literal.direction, Literal.language,
      Literal.value, Literal.datatype, hd, length_writeString] <;> omega

theorem length_term_strings {t : Term} (h : x ∈ t.strings) :
    (utf8 x).length ≤ (writeObjectTerm t).length := by
  induction t with
  | namedNode n => simp_all [Term.strings, writeObjectTerm, writeTerm, length_writeString]; omega
  | blankNode b => simp_all [Term.strings, writeObjectTerm, writeTerm, length_writeString]; omega
  | literal l => exact length_literal_strings h
  | triple s p o ih =>
    simp only [Term.strings, mem_append, mem_cons] at h
    simp only [writeObjectTerm, length_cons, length_append, length_writeString]
    rcases h with h | rfl | h
    · have hs := length_subject_strings h
      omega
    · omega
    · have ho := ih h
      omega

theorem length_quad_strings {q : Quad} (h : x ∈ q.strings) : (utf8 x).length ≤ (writeQuad q).length := by
  simp only [Quad.strings, mem_append, mem_cons] at h
  simp only [writeQuad, length_append, length_writeString]
  rcases h with h | h | rfl | h
  · have hg := length_graphName_strings h
    omega
  · have hs := length_subject_strings h
    omega
  · omega
  · have ho := length_term_strings h
    omega

theorem strings_short (h : PayloadShort r) : ∀ x ∈ WalRecord.strings r, ShortString x := by
  intro x hx
  unfold PayloadShort at h
  unfold ShortString
  cases r with
  | insertQuad q =>
    have hq := length_quad_strings hx
    simp only [encodeRecord, length_cons] at h
    omega
  | removeQuad q =>
    have hq := length_quad_strings hx
    simp only [encodeRecord, length_cons] at h
    omega
  | registerGraph g =>
    have hg := length_graphName_strings hx
    simp only [encodeRecord, length_cons] at h
    omega

section Recovery

variable (crc32 : Bytes → UInt32)

theorem length_frameRecord (r : WalRecord) :
    (frameRecord crc32 r).length = 4 + (encodeRecord r).length + 4 := by
  simp [frameRecord, u32le, Nat.add_assoc]

theorem take_four_frame (r : WalRecord) (rest : Bytes) :
    (frameRecord crc32 r ++ rest).take 4 = u32le (encodeRecord r).length := by
  have hlen : (u32le (encodeRecord r).length).length = 4 := by simp [u32le]
  simp only [frameRecord, append_assoc]
  rw [← hlen, take_left]

/-- A frame whose payload length fits is recognised wherever it stands, and no
strict prefix of it is. -/
theorem faithful_of_short (h : PayloadShort r) : (format crc32).Faithful r := by
  have hlen : leNat (u32le (encodeRecord r).length) = (encodeRecord r).length := by
    rw [u32le, leNat_leBytes]
    exact Nat.mod_eq_of_lt h
  constructor
  · intro rest
    have htotal : (frameRecord crc32 r ++ rest).length =
        4 + (encodeRecord r).length + 4 + rest.length := by
      rw [length_append, length_frameRecord]
    have hpayload : slice (frameRecord crc32 r ++ rest) 4 (encodeRecord r).length =
        encodeRecord r := by
      have hs := slice_middle (u32le (encodeRecord r).length) (encodeRecord r)
        (u32le (crc32 (encodeRecord r)).toNat ++ rest)
      simpa [frameRecord, u32le] using hs
    have hcrc : slice (frameRecord crc32 r ++ rest) (4 + (encodeRecord r).length) 4 =
        u32le (crc32 (encodeRecord r)).toNat := by
      have hs := slice_middle (u32le (encodeRecord r).length ++ encodeRecord r)
        (u32le (crc32 (encodeRecord r)).toNat) rest
      simpa [frameRecord, u32le] using hs
    have hstored : leNat (u32le (crc32 (encodeRecord r)).toNat) =
        (crc32 (encodeRecord r)).toNat := by
      rw [u32le, leNat_leBytes]
      exact Nat.mod_eq_of_lt (crc32 (encodeRecord r)).toNat_lt
    have hdecode := (decode_encode_record r (strings_short h)).1
    have h4 : ¬ (u32le (encodeRecord r).length).length < 4 := by simp [u32le]
    have hfits : ¬ (encodeRecord r).length + 4 > (frameRecord crc32 r ++ rest).length - 4 := by
      omega
    show nextFrame crc32 (frameRecord crc32 r ++ rest) = _
    simp only [nextFrame, take_four_frame, hlen, hpayload, hcrc, hstored, hdecode]
    rw [if_neg h4, if_neg hfits, if_neg (by simp)]
    show some (r, 4 + (encodeRecord r).length + 4) = some (r, (frameRecord crc32 r).length)
    rw [length_frameRecord]
  · intro n hn
    have hn' : n < 4 + (encodeRecord r).length + 4 := by
      rw [← length_frameRecord crc32 r]
      exact hn
    show nextFrame crc32 ((frameRecord crc32 r).take n) = none
    have hcut : ((frameRecord crc32 r).take n).length = n := by
      rw [List.length_take, length_frameRecord]
      omega
    simp only [nextFrame]
    -- the cut falls inside the length prefix, or the length it announces is
    -- more than what is left
    by_cases h4 : n < 4
    · rw [if_pos]
      rw [List.length_take, hcut]
      omega
    · have hhead : ((frameRecord crc32 r).take n).take 4 = u32le (encodeRecord r).length := by
        have hf := take_four_frame crc32 r []
        rw [append_nil] at hf
        rw [take_take, Nat.min_eq_left (by omega), hf]
      rw [hhead, hlen, if_neg (by simp [u32le]), if_pos]
      omega

/-- A strict prefix of a payload never decodes to the record: a decoded record
has short strings, so it is read back from its whole encoding only. -/
theorem decode_take_ne {n : Nat} (hn : n < (encodeRecord r).length) :
    decodeRecord ((encodeRecord r).take n) ≠ .ok r := by
  intro hdec
  rw [decodeRecord] at hdec
  cases hread : readRecord ((encodeRecord r).take n) 0 with
  | error e =>
    rw [hread] at hdec
    cases hdec
  | ok p =>
    obtain ⟨r', pos⟩ := p
    rw [hread] at hdec
    have hr : r' = r := Except.ok.inj hdec
    subst hr
    have hshort := ensures_record _ _ _ _ hread
    have hpos : pos ≤ n := by
      rcases Nat.eq_zero_or_pos pos with h0 | h0
      · omega
      · have hle := (local_record _ _ _ _ hread).2.1 h0
        rw [List.length_take] at hle
        omega
    exact Reader.reads_not_prefix local_record (reads_record hshort) hn hpos hread

/-- Conversely, a frame that reads back as the record it was written for has a
payload length that fits: otherwise the reader is handed a strict prefix of the
payload. -/
theorem short_of_next {rest : Bytes} {n : Nat}
    (h : nextFrame crc32 (frameRecord crc32 r ++ rest) = some (r, n)) : PayloadShort r := by
  by_contra hlong
  have hge : 2 ^ 32 ≤ (encodeRecord r).length := Nat.le_of_not_lt hlong
  have hlt : (encodeRecord r).length % 256 ^ 4 < (encodeRecord r).length :=
    Nat.lt_of_lt_of_le (Nat.mod_lt _ (by decide)) hge
  have hlen : leNat (u32le (encodeRecord r).length) = (encodeRecord r).length % 256 ^ 4 := by
    rw [u32le, leNat_leBytes]
  have hpayload : slice (frameRecord crc32 r ++ rest) 4 ((encodeRecord r).length % 256 ^ 4) =
      (encodeRecord r).take ((encodeRecord r).length % 256 ^ 4) := by
    have hdrop : (frameRecord crc32 r ++ rest).drop 4 =
        encodeRecord r ++ (u32le (crc32 (encodeRecord r)).toNat ++ rest) := by
      have h4 : (u32le (encodeRecord r).length).length = 4 := by simp [u32le]
      simp only [frameRecord, append_assoc]
      rw [← h4, drop_left]
    rw [slice, hdrop, take_append_of_le_length hlt.le]
  simp only [nextFrame, take_four_frame, hlen, hpayload] at h
  split at h
  · cases h
  · split at h
    · cases h
    · split at h
      · cases h
      · split at h
        · rename_i r' hdec
          cases h
          exact decode_take_ne hlt hdec
        · cases h

variable {rs : List WalRecord}

theorem replay_log (h : ∀ r ∈ rs, PayloadShort r) : replay crc32 ((format crc32).log rs) =
      { applied := rs, count := rs.length, file := (format crc32).log rs } := by
  have hscan := scan_log fun r hr => faithful_of_short crc32 (h r hr)
  simp [replay, hscan]

theorem short_of_scan
    (h : ((format crc32).scan ((format crc32).log rs)).1 = rs) : ∀ r ∈ rs, PayloadShort r := by
  induction rs with
  | nil => simp
  | cons r rs ih =>
    cases hnext : (format crc32).next ((format crc32).log (r :: rs)) with
    | none =>
      rw [(format crc32).scan_of_none hnext] at h
      cases h
    | some p =>
      obtain ⟨r', n⟩ := p
      rw [(format crc32).scan_of_some hnext] at h
      have hr : r' = r := (List.cons.inj h).1
      subst hr
      have hshort : PayloadShort r' := short_of_next crc32 hnext
      have hwhole := (faithful_of_short crc32 hshort).whole ((format crc32).log rs)
      have hn : n = ((format crc32).frame r').length := by
        have heq := hnext.symm.trans hwhole
        cases heq
        rfl
      have htail := (List.cons.inj h).2
      rw [hn, log_cons, drop_left] at htail
      intro x hx
      rcases mem_cons.mp hx with rfl | hx
      · exact hshort
      · exact ih htail x hx

/-! ## Recovery of a truncated log -/

theorem replay_applied (file : Bytes) :
    (replay crc32 file).applied = ((format crc32).scan file).1 := rfl

theorem replay_file (file : Bytes) :
    (replay crc32 file).file = file.take ((format crc32).scan file).2 := by
  simp only [replay]
  split
  · rfl
  · rw [take_of_length_le (by omega)]

/-- What recovery owes a log of `rs` cut at octet `n`: it applies the whole
frames in order and truncates the file to their end, doing it again changes
nothing, and records appended afterwards are replayed after them. -/
structure Recovers (rs appended : List WalRecord) (n : Nat) : Prop where
  applied : (replay crc32 (((format crc32).log rs).take n)).applied =
    (format crc32).wholeWithin rs n
  truncated : (replay crc32 (((format crc32).log rs).take n)).file =
    (((format crc32).log rs).take n).take
      ((format crc32).log ((format crc32).wholeWithin rs n)).length
  again : replay crc32 (replay crc32 (((format crc32).log rs).take n)).file =
    replay crc32 (((format crc32).log rs).take n)
  appended : (replay crc32 (appendBatch crc32
      (replay crc32 (((format crc32).log rs).take n)).file appended)).applied =
    (format crc32).wholeWithin rs n ++ appended

theorem recovers_of_short {appended : List WalRecord}
    (h : ∀ r ∈ rs ++ appended, PayloadShort r) (n : Nat) : Recovers crc32 rs appended n := by
  have hrs : ∀ r ∈ rs, (format crc32).Faithful r := fun r hr =>
    faithful_of_short crc32 (h r (mem_append_left _ hr))
  have hscan := scan_take hrs n
  have hwhole : ∀ r ∈ (format crc32).wholeWithin rs n, PayloadShort r := fun r hr =>
    h r (mem_append_left _ (((format crc32).wholeWithin_initial rs n).subset hr))
  have hfile : (replay crc32 (((format crc32).log rs).take n)).file =
      (format crc32).log ((format crc32).wholeWithin rs n) := by
    rw [replay_file, hscan, take_log_wholeWithin]
  have hreplay : replay crc32 (((format crc32).log rs).take n) =
      { applied := (format crc32).wholeWithin rs n
        count := ((format crc32).wholeWithin rs n).length
        file := (format crc32).log ((format crc32).wholeWithin rs n) } := by
    rw [← hfile]
    simp only [replay, hscan]
  refine ⟨?_, ?_, ?_, ?_⟩
  · rw [hreplay]
  · rw [hfile, take_log_wholeWithin]
  · rw [hreplay]
    exact replay_log crc32 hwhole
  · have hall : ∀ r ∈ (format crc32).wholeWithin rs n ++ appended, PayloadShort r := by
      intro r hr
      rcases mem_append.mp hr with hr | hr
      · exact hwhole r hr
      · exact h r (mem_append_right _ hr)
    rw [hreplay, appendBatch, ← log_append, replay_log crc32 hall]

theorem short_of_recovers {appended : List WalRecord}
    (h : Recovers crc32 rs appended ((format crc32).log rs).length) :
    ∀ r ∈ rs ++ appended, PayloadShort r := by
  have hall : (format crc32).wholeWithin rs ((format crc32).log rs).length = rs :=
    (format crc32).wholeWithin_length rs
  have happlied := h.applied
  rw [take_length, hall, replay_applied] at happlied
  have hrs := short_of_scan crc32 happlied
  have happended := h.appended
  rw [take_length, hall, replay_log crc32 hrs, appendBatch, ← log_append,
    replay_applied] at happended
  exact short_of_scan crc32 happended

/-- A log cut at any octet is recovered exactly when every record's payload
fits the 32-bit length field. -/
theorem replay_recovers_iff (rs appended : List WalRecord) :
    (∀ n, Recovers crc32 rs appended n) ↔ ∀ r ∈ rs ++ appended, (encodeRecord r).length < 2 ^ 32 :=
  ⟨fun h => short_of_recovers crc32 (h _), fun h n => recovers_of_short crc32 h n⟩

end Recovery

/-! ## The checksum -/

/-- One octet of the reflected CRC-32 (polynomial `0xEDB88320`). -/
def crcByte (crc : UInt32) (b : UInt8) : UInt32 :=
  (List.range 8).foldl (fun c _ => if c &&& 1 = 1 then (c >>> 1) ^^^ 0xEDB88320 else c >>> 1)
    (crc ^^^ b.toUInt32)

/-- The CRC-32 the log is written with. No result depends on which function
the checksum is; this is the one the examples are run with. -/
def crc32 (bs : Bytes) : UInt32 := bs.foldl crcByte 0xFFFFFFFF ^^^ 0xFFFFFFFF

/-- Registration of a graph whose name has `n` octets. -/
def longGraphRecord (n : Nat) : WalRecord :=
  .registerGraph (.namedNode ⟨String.ofList (List.replicate n 'a')⟩)

theorem longGraphRecord_length (n : Nat) : n ≤ (encodeRecord (longGraphRecord n)).length := by
  have hname := length_utf8_replicate n 'a'
  have hchar : (String.utf8EncodeChar 'a').length = 1 := by decide
  rw [hchar, Nat.mul_one] at hname
  simp only [longGraphRecord, encodeRecord, writeGraphName, length_cons, length_writeString,
    hname]
  omega

theorem not_recovers_of_long (h : 2 ^ 32 ≤ (encodeRecord r).length) : ¬ ∀ n, Recovers crc32 [r] [] n := by
  intro hrec
  have hshort := short_of_recovers crc32 (hrec _) r (mem_append_left _ mem_cons_self)
  exact absurd hshort (Nat.not_lt.mpr h)

/-- A graph name of `2 ^ 32` octets, one more than the length field can hold:
the record is written and acknowledged, but no replay returns it. -/
theorem replay_loses_long_record : ¬ ∀ n, Recovers crc32 [longGraphRecord (2 ^ 32)] [] n :=
  not_recovers_of_long (longGraphRecord_length (2 ^ 32))

/-! ## Calls that fail part-way -/

/-- A call on the writer. -/
inductive WalCall where
  | append (r : WalRecord)
  | appendBatch (rs : List WalRecord)
deriving DecidableEq

def WalCall.records : WalCall → List WalRecord
  | .append r => [r]
  | .appendBatch rs => rs

/-- How a call ended: `write_all` and `sync_data` both succeeded, or one of
them failed after `written` octets of the call's buffer reached the file. -/
inductive Outcome where
  | ok
  | failed (written : Nat)
deriving DecidableEq

section Calls

variable (crc : Bytes → UInt32)

/-- The file after one call. Nothing repairs it after a failure: the writer
goes on appending at the end of whatever is there. -/
def callStep (file : Bytes) (c : WalCall × Outcome) : Bytes :=
  match c.2 with
  | .ok => file ++ (format crc).log c.1.records
  | .failed written => file ++ ((format crc).log c.1.records).take written

def runCalls (file : Bytes) (cs : List (WalCall × Outcome)) : Bytes :=
  cs.foldl (callStep crc) file

/-- The records of the calls that returned `Ok`, in order. -/
def acked (cs : List (WalCall × Outcome)) : List WalRecord :=
  cs.flatMap fun c => if c.2 = .ok then c.1.records else []

/-- The call failed inside a frame. -/
def Tears (c : WalCall × Outcome) : Prop :=
  match c.2 with
  | .ok => False
  | .failed written =>
    ((format crc).log c.1.records).take written ≠
      (format crc).log ((format crc).wholeWithin c.1.records written)

/-- No record is acknowledged after a call that failed inside a frame. -/
def NoAckAfterTear : List (WalCall × Outcome) → Prop
  | [] => True
  | c :: cs => (Tears crc c → acked cs = []) ∧ NoAckAfterTear cs

theorem runCalls_extends (file : Bytes) (cs : List (WalCall × Outcome)) :
    ∃ tail, runCalls crc file cs = file ++ tail := by
  induction cs generalizing file with
  | nil => exact ⟨[], by simp [runCalls]⟩
  | cons c cs ih =>
    obtain ⟨tail, htail⟩ := ih (callStep crc file c)
    have hstep : ∃ mid, callStep crc file c = file ++ mid := by
      unfold callStep
      split
      · exact ⟨_, rfl⟩
      · exact ⟨_, rfl⟩
    obtain ⟨mid, hmid⟩ := hstep
    refine ⟨mid ++ tail, ?_⟩
    show runCalls crc (callStep crc file c) cs = _
    rw [htail, hmid, append_assoc]

/-- Induction over the calls. The invariant is that the file is a log of whole
frames that the acknowledged records run through in order; it ends with the
first torn frame, after which nothing more is acknowledged. -/
theorem acked_sublist_scan {cs : List (WalCall × Outcome)} (hcs : NoAckAfterTear crc cs)
    (hshort : ∀ c ∈ cs, ∀ r ∈ c.1.records, PayloadShort r)
    {base : List WalRecord} (hbase : ∀ r ∈ base, PayloadShort r) :
    (base ++ acked cs).Sublist
      ((format crc).scan (runCalls crc ((format crc).log base) cs)).1 := by
  induction cs generalizing base with
  | nil =>
    have hscan := scan_log fun r hr => faithful_of_short crc (hbase r hr)
    simp [acked, runCalls, hscan]
  | cons c cs ih =>
    obtain ⟨htear, hcs⟩ := hcs
    have hc : ∀ r ∈ c.1.records, PayloadShort r := hshort c mem_cons_self
    have hrest : ∀ d ∈ cs, ∀ r ∈ d.1.records, PayloadShort r := fun d hd =>
      hshort d (mem_cons_of_mem c hd)
    have hfaithful : ∀ r ∈ base, (format crc).Faithful r := fun r hr =>
      faithful_of_short crc (hbase r hr)
    obtain ⟨call, outcome⟩ := c
    show (base ++ acked ((call, outcome) :: cs)).Sublist
      ((format crc).scan (runCalls crc (callStep crc ((format crc).log base) (call, outcome)) cs)).1
    cases outcome with
    | ok =>
      have hbase' : ∀ r ∈ base ++ call.records, PayloadShort r := by
        intro r hr
        rcases mem_append.mp hr with hr | hr
        · exact hbase r hr
        · exact hc r hr
      have hlog : callStep crc ((format crc).log base) (call, .ok) =
          (format crc).log (base ++ call.records) := by
        rw [log_append]
        rfl
      have hacked : acked ((call, .ok) :: cs) = call.records ++ acked cs := by simp [acked]
      rw [hacked, hlog, ← append_assoc]
      exact ih hcs hrest hbase'
    | failed written =>
      have hacked : acked ((call, .failed written) :: cs) = acked cs := by simp [acked]
      rw [hacked]
      by_cases ht : Tears crc (call, .failed written)
      · -- a torn frame: nothing is acknowledged later, and what stands before
        -- the tear is read whatever follows it
        rw [htear ht, append_nil]
        obtain ⟨tail, htail⟩ := runCalls_extends crc
          (callStep crc ((format crc).log base) (call, .failed written)) cs
        have hsplit : callStep crc ((format crc).log base) (call, .failed written) ++ tail =
            (format crc).log base ++ (((format crc).log call.records).take written ++ tail) := by
          simp [callStep]
        rw [htail, hsplit, scan_append hfaithful]
        exact sublist_append_left _ _
      · -- whole frames only: the file is still a log
        have hwhole : ((format crc).log call.records).take written =
            (format crc).log ((format crc).wholeWithin call.records written) := by
          by_contra hne
          exact ht hne
        have hbase' : ∀ r ∈ base ++ (format crc).wholeWithin call.records written,
            PayloadShort r := by
          intro r hr
          rcases mem_append.mp hr with hr | hr
          · exact hbase r hr
          · exact hc r (((format crc).wholeWithin_initial _ _).subset hr)
        have hlog : callStep crc ((format crc).log base) (call, .failed written) =
            (format crc).log (base ++ (format crc).wholeWithin call.records written) := by
          rw [log_append, ← hwhole]
          rfl
        have hsub := ih hcs hrest hbase'
        rw [hlog]
        refine List.Sublist.trans ?_ hsub
        exact List.Sublist.append (sublist_append_left _ _) (List.Sublist.refl _)

/-- Whatever calls failed and however many octets each of them left behind, a
later replay applies every record of every acknowledged call, in order, as long
as no record is acknowledged after a call that failed inside a frame. -/
theorem acked_sublist_replay (cs : List (WalCall × Outcome))
    (hshort : ∀ c ∈ cs, ∀ r ∈ c.1.records, (encodeRecord r).length < 2 ^ 32)
    (hcs : NoAckAfterTear crc cs) :
    (acked cs).Sublist (replay crc (runCalls crc [] cs)).applied := by
  have h : ([] ++ acked cs).Sublist _ := acked_sublist_scan crc hcs hshort (by simp)
  rw [replay_applied]
  simpa using h

end Calls

/-- A failed append of a whole record, then an acknowledged one. -/
theorem acked_sublist_replay_whole_failure :
    (acked [(.append (.registerGraph .defaultGraph), .failed 10),
        (.append (.registerGraph .defaultGraph), .ok)]).Sublist
      (replay crc32 (runCalls crc32 [] [(.append (.registerGraph .defaultGraph), .failed 10),
        (.append (.registerGraph .defaultGraph), .ok)])).applied :=
  acked_sublist_replay crc32 _ (by decide) ⟨fun h => absurd rfl h, fun h => h.elim, trivial⟩

/-- One octet of a failed append hides the acknowledged append after it: the
octet shifts the next length prefix, which then announces more than there is. -/
theorem torn_append_hides_acked :
    ¬ (acked [(.append (.registerGraph .defaultGraph), .failed 1),
        (.append (.registerGraph .defaultGraph), .ok)]).Sublist
      (replay crc32 (runCalls crc32 [] [(.append (.registerGraph .defaultGraph), .failed 1),
        (.append (.registerGraph .defaultGraph), .ok)])).applied := by
  have hnext : (format crc32).next (runCalls crc32 []
      [(.append (.registerGraph .defaultGraph), .failed 1),
        (.append (.registerGraph .defaultGraph), .ok)]) = none := by decide
  decide

end Nova.Wal
