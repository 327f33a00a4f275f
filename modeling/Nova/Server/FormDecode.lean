import Nova.Lib.Bytes

/-!
# Form bodies

How the server reads an `application/x-www-form-urlencoded` body: the byte loop of
`percent_decode`, and `form_param` over the pairs of the body.

* `Encodes`: a byte string and one of the ways to escape it. `Encodes.decode` takes all of
  them back.
* `decodeLoop_iff`: the loop takes two hexadecimal digits for an escape, and nothing else,
  exactly on the inputs in which no `%` stands before a `+` and a digit; the number parser
  of the standard library reads `+5` as a number.
* `formBodies_exact`: the two, and the parameters of a body of encoded pairs.
-/

namespace Nova.Server

open Nova.Lib List

def space : UInt8 := 32

def percent : UInt8 := 37

def ampersand : UInt8 := 38

def plus : UInt8 := 43

def equals : UInt8 := 61

/-! ## Numbers -/

/-- `char::to_digit(16)`. -/
def hexDigit (b : UInt8) : Option Nat :=
  if 48 ≤ b.toNat ∧ b.toNat ≤ 57 then some (b.toNat - 48)
  else if 97 ≤ b.toNat ∧ b.toNat ≤ 102 then some (b.toNat - 87)
  else if 65 ≤ b.toNat ∧ b.toNat ≤ 70 then some (b.toNat - 55)
  else none

def radixDigits (result : Nat) : Bytes → Option UInt8
  | [] => some (UInt8.ofNat result)
  | b :: rest => do
    let result := result * 16 + (← hexDigit b)
    if result < 256 then radixDigits result rest else none

/-- `u8::from_str_radix(src, 16)`: a sign may stand before the digits. -/
def u8FromStrRadix16 : Bytes → Option UInt8
  | [] => none
  | [b] => radixDigits 0 [b]
  | b :: rest => if b = plus then radixDigits 0 rest else radixDigits 0 (b :: rest)

/-! ## Replacing what is not UTF-8 -/

/-- The range of the second byte of a character that starts with `b`, and how many bytes
follow it. -/
def secondByte (b : UInt8) : Option (UInt8 × UInt8 × Nat) :=
  if 0xC2 ≤ b ∧ b ≤ 0xDF then some (0x80, 0xBF, 0)
  else if b = 0xE0 then some (0xA0, 0xBF, 1)
  else if b = 0xED then some (0x80, 0x9F, 1)
  else if 0xE1 ≤ b ∧ b ≤ 0xEF then some (0x80, 0xBF, 1)
  else if b = 0xF0 then some (0x90, 0xBF, 2)
  else if 0xF1 ≤ b ∧ b ≤ 0xF3 then some (0x80, 0xBF, 2)
  else if b = 0xF4 then some (0x80, 0x8F, 2)
  else none

/-- How many bytes are taken with `b`, up to the first that cannot belong to its character. -/
def continuation (b : UInt8) (rest : Bytes) : Nat :=
  match secondByte b, rest with
  | some (lo, hi, more), c :: rest =>
    if lo ≤ c ∧ c ≤ hi then
      1 + ((rest.take more).takeWhile fun c => 0x80 ≤ c ∧ c ≤ 0xBF).length
    else 0
  | _, _ => 0

def lossyChunks : Bytes → String
  | [] => ""
  | b :: rest =>
    (fromUtf8 (b :: rest.take (continuation b rest))).getD "\uFFFD" ++
      lossyChunks (rest.drop (continuation b rest))
termination_by bytes => bytes.length
decreasing_by
  rw [length_drop, length_cons]
  omega

/-- `String::from_utf8_lossy`. -/
def fromUtf8Lossy (bytes : Bytes) : String := (fromUtf8 bytes).getD (lossyChunks bytes)

/-! ## Decoding -/

/-- The loop of `percent_decode` over the bytes that are left; `escape` reads what stands
behind a `%`. -/
def decodeWith (escape : Bytes → Option UInt8) : Bytes → Bytes
  | [] => []
  | b :: rest =>
    if b = plus then space :: decodeWith escape rest
    else if b = percent then
      match escape rest with
      | some val => val :: decodeWith escape (rest.drop 2)
      | none => percent :: decodeWith escape rest
    else b :: decodeWith escape rest
termination_by bytes => bytes.length
decreasing_by all_goals grind

/-- The escape of the source: `from_utf8` and `from_str_radix` of two bytes. -/
def escaped : Bytes → Option UInt8
  | x :: y :: _ => do u8FromStrRadix16 (utf8 (← fromUtf8 [x, y]))
  | _ => none

def decodeLoop (bytes : Bytes) : Bytes := decodeWith escaped bytes

def percentDecode (s : String) : String := fromUtf8Lossy (decodeLoop (utf8 s))

/-! ## Parameters -/

/-- `split_once`. -/
def splitOnce (sep : Char) (s : List Char) : Option (String × String) :=
  match s.dropWhile (· ≠ sep) with
  | [] => none
  | _ :: rest => some (String.ofList (s.takeWhile (· ≠ sep)), String.ofList rest)

/-- `char::is_whitespace`. -/
def isWhitespace (c : Char) : Bool :=
  let n := c.toNat
  (9 ≤ n ∧ n ≤ 13) ∨ (0x2000 ≤ n ∧ n ≤ 0x200A) ∨
    n ∈ [0x20, 0x85, 0xA0, 0x1680, 0x2028, 0x2029, 0x202F, 0x205F, 0x3000]

/-- `str::trim`. -/
def trim (s : String) : String :=
  String.ofList (((s.toList.dropWhile isWhitespace).reverse.dropWhile isWhitespace).reverse)

/-- The value of one `k=v` of the body, if the parameter is asked for. -/
def pairValue (key : String) (kv : List Char) : Option String := do
  let (k, v) ← splitOnce '=' kv
  if trim (percentDecode k) = key then some (percentDecode v) else none

def formParam (body key : String) : Option String :=
  (body.toList.splitOn '&').findSome? (pairValue key)

/-! ## What is read -/

/-- Two hexadecimal digits. -/
def hexPair : Bytes → Option UInt8
  | x :: y :: _ => do return UInt8.ofNat (16 * (← hexDigit x) + (← hexDigit y))
  | _ => none

/-- What a form decoder reads: two hexadecimal digits behind a `%` are an escape, and any
other `%` stands for itself. -/
def formDecode (bytes : Bytes) : Bytes := decodeWith hexPair bytes

/-- No `%` stands before a sign and a digit. -/
def SignFree (bytes : Bytes) : Prop :=
  ∀ d, hexDigit d ≠ none → ¬[percent, plus, d] <:+: bytes

variable {b : UInt8}

theorem hexDigit_spec {n : Nat} (h : hexDigit b = some n) :
    n < 16 ∧ b.toNat < 128 ∧ b ∉ [space, percent, ampersand, plus, equals] := by
  refine ⟨by grind [hexDigit], by grind [hexDigit], fun hb => ?_⟩
  simp only [mem_cons, not_mem_nil, or_false] at hb
  rcases hb with rfl | rfl | rfl | rfl | rfl <;> cases h

theorem fromUtf8_ascii {x y : UInt8} (hx : x.toNat < 128) (hy : y.toNat < 128) :
    fromUtf8 [x, y] = some (String.ofList [Char.ofNat x.toNat, Char.ofNat y.toNat]) := by
  have hbyte : ∀ b : UInt8, b.toNat < 128 → String.utf8EncodeChar (Char.ofNat b.toNat) = [b] := by
    intro b hb
    have hval : (Char.ofNat b.toNat).val.toNat = b.toNat := by
      rw [Char.ofNat, dif_pos (.inl (by omega))]
      rfl
    simp [String.utf8EncodeChar, hval, Nat.le_of_lt_succ hb]
  have hutf8 := fromUtf8_utf8 (String.ofList [Char.ofNat x.toNat, Char.ofNat y.toNat])
  rwa [utf8_ofList, flatMap_cons, flatMap_cons, hbyte x hx, hbyte y hy] at hutf8

variable {rest : Bytes}

theorem radixDigits_cons {n : Nat} (hn : n < 16) :
    radixDigits n (b :: rest) = (hexDigit b).bind fun d => radixDigits (n * 16 + d) rest := by
  rw [radixDigits]
  cases h : hexDigit b with
  | none => rfl
  | some d =>
    have hd := (hexDigit_spec h).1
    change (if n * 16 + d < 256 then _ else _) = _
    rw [if_pos (by omega)]
    rfl

/-- What the source reads behind a `%`: two digits, or a sign and one. -/
theorem escaped_cons (x y : UInt8) (rest : Bytes) :
    escaped (x :: y :: rest) =
      if x = plus then (hexDigit y).map UInt8.ofNat else hexPair (x :: y :: rest) := by
  cases hs : fromUtf8 [x, y] with
  | some hex =>
    rw [escaped, hs]
    change u8FromStrRadix16 (utf8 hex) = _
    rw [utf8_of_fromUtf8 hs]
    change (if x = plus then radixDigits 0 [y] else radixDigits 0 [x, y]) = _
    split
    · rw [radixDigits_cons (by decide)]
      cases hexDigit y <;> simp [radixDigits]
    · rw [radixDigits_cons (by decide), hexPair]
      cases hx : hexDigit x with
      | none => rfl
      | some hi =>
        have hhi := (hexDigit_spec hx).1
        rw [Option.bind_some, radixDigits_cons (by omega)]
        cases hexDigit y <;> simp [radixDigits, Nat.mul_comm]
  | none =>
    -- two bytes that are read as a number are characters
    have hwide : x.toNat < 128 → ∀ {d}, hexDigit y = some d → False := by
      intro hx d hy
      rw [fromUtf8_ascii hx (hexDigit_spec hy).2.1] at hs
      cases hs
    rw [escaped, hs]
    cases hy : hexDigit y with
    | none => cases hexDigit x <;> simp [hexPair, hy]
    | some d =>
      rw [if_neg fun hx => hwide (by rw [hx]; decide) hy]
      cases hx : hexDigit x with
      | none => simp [hexPair, hx]
      | some hi => exact (hwide (hexDigit_spec hx).2.1 hy).elim

section Steps

variable (escape : Bytes → Option UInt8) (rest : Bytes)

theorem decodeWith_plus : decodeWith escape (plus :: rest) = space :: decodeWith escape rest := by
  rw [decodeWith, if_pos rfl]

theorem decodeWith_plain (hplus : b ≠ plus) (hpercent : b ≠ percent) :
    decodeWith escape (b :: rest) = b :: decodeWith escape rest := by
  rw [decodeWith, if_neg hplus, if_neg hpercent]

theorem decodeWith_some {val : UInt8} (h : escape rest = some val) :
    decodeWith escape (percent :: rest) = val :: decodeWith escape (rest.drop 2) := by
  rw [decodeWith, if_neg (by decide), if_pos rfl, h]

theorem decodeWith_none (h : escape rest = none) :
    decodeWith escape (percent :: rest) = percent :: decodeWith escape rest := by
  rw [decodeWith, if_neg (by decide), if_pos rfl, h]

end Steps

theorem signFree_cons
    (h : b = percent → ∀ d r, rest = plus :: d :: r → hexDigit d = none) :
    SignFree (b :: rest) ↔ SignFree rest := by
  refine forall₂_congr fun d hd => not_congr ?_
  rw [infix_cons_iff, or_iff_right]
  intro hpre
  rw [cons_prefix_cons] at hpre
  rcases hpre.2 with ⟨r, hr⟩
  exact hd (h hpre.1.symm d r hr.symm)

/-- The escapes of the source are those of a form decoder but for signs. -/
theorem escaped_eq_hexPair (h : ∀ d r, rest = plus :: d :: r → hexDigit d = none) :
    escaped rest = hexPair rest := by
  rcases rest with _ | ⟨x, _ | ⟨y, rest⟩⟩
  · rfl
  · rfl
  rw [escaped_cons]
  split
  · rename_i hx
    rw [h y rest (by rw [hx]), hexPair, hx]
    rfl
  · rfl

theorem hexPair_eq_some {val : UInt8} (h : hexPair rest = some val) :
    ∃ x y r hi lo, rest = x :: y :: r ∧ hexDigit x = some hi ∧ hexDigit y = some lo ∧
      val = UInt8.ofNat (16 * hi + lo) := by
  rcases rest with _ | ⟨x, _ | ⟨y, r⟩⟩
  · cases h
  · cases h
  rcases Option.bind_eq_some_iff.mp h with ⟨hi, hhi, h⟩
  rcases Option.bind_eq_some_iff.mp h with ⟨lo, hlo, h⟩
  exact ⟨x, y, r, hi, lo, rfl, hhi, hlo, (Option.some.inj h).symm⟩

theorem ne_of_hexDigit {c : UInt8} {n : Nat} (h : hexDigit b = some n)
    (hc : c ∈ [space, percent, ampersand, plus, equals]) : b ≠ c :=
  fun hbc => (hexDigit_spec h).2.2 (hbc ▸ hc)

theorem escaped_hexPair {x y : UInt8} {hi : Nat} (hx : hexDigit x = some hi) :
    escaped (x :: y :: rest) = hexPair (x :: y :: rest) := by
  rw [escaped_cons, if_neg (ne_of_hexDigit hx (by decide))]

/-- The loop follows the form encoding exactly on the inputs in which no `%` stands before
a sign and a digit. -/
theorem decodeLoop_iff (bytes : Bytes) : decodeLoop bytes = formDecode bytes ↔ SignFree bytes := by
  rw [decodeLoop, formDecode]
  fun_induction decodeWith hexPair bytes with
  | case1 =>
    simp [decodeWith, SignFree]
  | case2 rest ih =>
    rw [decodeWith_plus, cons_inj_right, ih, signFree_cons fun hb => absurd hb (by decide)]
  | case3 rest val hval hplus ih =>
    rcases hexPair_eq_some hval with ⟨x, y, r, hi, lo, rfl, hx, hy, -⟩
    have hfree : SignFree (percent :: x :: y :: r) ↔ SignFree r := by
      rw [signFree_cons fun _ d r' hr => absurd (cons_eq_cons.mp hr).1 (ne_of_hexDigit hx (by decide)),
        signFree_cons fun hb => absurd hb (ne_of_hexDigit hx (by decide)),
        signFree_cons fun hb => absurd hb (ne_of_hexDigit hy (by decide))]
    rw [hfree, decodeWith_some _ _ ((escaped_hexPair hx).trans hval), cons_inj_right]
    exact ih
  | case4 rest hnone hplus ih =>
    by_cases hsign : ∀ d r, rest = plus :: d :: r → hexDigit d = none
    · rw [decodeWith_none _ _ ((escaped_eq_hexPair hsign).trans hnone), cons_inj_right, ih,
        signFree_cons fun _ => hsign]
    · -- the sign is taken for a part of the number, which is no `%`
      push Not at hsign
      rcases hsign with ⟨d, r, rfl, hd⟩
      rcases Option.ne_none_iff_exists'.mp hd with ⟨n, hn⟩
      have hval : escaped (plus :: d :: r) = some (UInt8.ofNat n) := by
        rw [escaped_cons, if_pos rfl, hn]
        rfl
      rw [decodeWith_some _ _ hval]
      constructor
      · intro h
        have hlt := (hexDigit_spec hn).1
        have hhead := congrArg UInt8.toNat (cons_eq_cons.mp h).1
        rw [UInt8.toNat_ofNat', Nat.mod_eq_of_lt (by omega)] at hhead
        exact absurd hlt (by rw [hhead]; decide)
      · intro h
        exact absurd ⟨[], r, rfl⟩ (h d hd)
  | case5 b rest hplus hpercent ih =>
    rw [decodeWith_plain _ _ hplus hpercent, cons_inj_right, ih,
      signFree_cons fun hb => absurd hb hpercent]

/-! ## Encoded text -/

/-- `Encodes v e`: `e` is the byte string `v` with spaces as `+` or escaped, and with any
bytes escaped among them `%`, `+`, `&` and `=`. -/
inductive Encodes : Bytes → Bytes → Prop
  | nil : Encodes [] []
  | plain {b : UInt8} {v e : Bytes} : b ∉ [space, percent, ampersand, plus, equals] →
      Encodes v e → Encodes (b :: v) (b :: e)
  | blank {v e : Bytes} : Encodes v e → Encodes (space :: v) (plus :: e)
  | escape {x y : UInt8} {hi lo : Nat} {v e : Bytes} : hexDigit x = some hi → hexDigit y = some lo →
      Encodes v e → Encodes (UInt8.ofNat (16 * hi + lo) :: v) (percent :: x :: y :: e)

theorem Encodes.decode {v e : Bytes} (h : Encodes v e) : decodeLoop e = v := by
  rw [decodeLoop]
  induction h with
  | nil => simp [decodeWith]
  | @plain b v e hb _ ih =>
    simp only [mem_cons, not_or] at hb
    rw [decodeWith_plain _ _ hb.2.2.2.1 hb.2.1, ih]
  | blank _ ih => rw [decodeWith_plus, ih]
  | @escape x y hi lo v e hx hy _ ih =>
    have hval : escaped (x :: y :: e) = some (UInt8.ofNat (16 * hi + lo)) := by
      rw [escaped_hexPair hx, hexPair, hx, hy]
      rfl
    rw [decodeWith_some _ _ hval]
    exact congrArg _ ih

theorem Encodes.separators {v e : Bytes} (h : Encodes v e) : ampersand ∉ e ∧ equals ∉ e := by
  induction h with
  | nil => exact ⟨nofun, nofun⟩
  | plain hb _ ih => grind
  | blank _ ih =>
    exact ⟨not_mem_cons_of_ne_of_not_mem (by decide) ih.1,
      not_mem_cons_of_ne_of_not_mem (by decide) ih.2⟩
  | escape hx hy _ ih =>
    have hx' := (hexDigit_spec hx).2.2
    have hy' := (hexDigit_spec hy).2.2
    grind [percent, ampersand, equals]

theorem fromUtf8Lossy_utf8 (s : String) : fromUtf8Lossy (utf8 s) = s := by
  rw [fromUtf8Lossy, fromUtf8_utf8]
  rfl

theorem percentDecode_of_encodes {v enc : String} (h : Encodes (utf8 v) (utf8 enc)) :
    percentDecode enc = v := by
  rw [percentDecode, h.decode, fromUtf8Lossy_utf8]

theorem notMem_toList {c : Char} {s : String} (hc : String.utf8EncodeChar c = [b])
    (h : b ∉ utf8 s) : c ∉ s.toList := by
  intro hmem
  have hutf8 := utf8_ofList s.toList
  rw [String.ofList_toList] at hutf8
  rw [hutf8] at h
  exact h (mem_flatMap.mpr ⟨c, hmem, by rw [hc]; exact mem_singleton_self b⟩)

theorem splitOnce_append {sep : Char} {k : List Char} (h : sep ∉ k) (v : List Char) :
    splitOnce sep (k ++ sep :: v) = some (String.ofList k, String.ofList v) := by
  have hk : ∀ c ∈ k, decide (c ≠ sep) = true := fun c hc => decide_eq_true fun heq => h (heq ▸ hc)
  rw [splitOnce, dropWhile_append_of_pos hk, takeWhile_append_of_pos hk]
  simp

/-- The body of a form: its pairs, joined. -/
def formBody (es : List (String × String)) : String :=
  "&".intercalate (es.map fun e => e.1 ++ "=" ++ e.2)

theorem formParam_formBody (key : String) {ps es : List (String × String)}
    (h : Forall₂ (fun p e => Encodes (utf8 p.1) (utf8 e.1) ∧ Encodes (utf8 p.2) (utf8 e.2)) ps es) :
    formParam (formBody es) key = (ps.find? fun p => trim p.1 = key).map Prod.snd := by
  have hvalues : ((es.map fun e => e.1 ++ "=" ++ e.2).map String.toList).findSome? (pairValue key) =
      (ps.find? fun p => trim p.1 = key).map Prod.snd := by
    induction h with
    | nil => rfl
    | @cons p e ps es hpe _ ih =>
      have hkey : '=' ∉ e.1.toList := notMem_toList (by decide) hpe.1.separators.2
      have hvalue : pairValue key (e.1 ++ "=" ++ e.2).toList =
          if trim p.1 = key then some p.2 else none := by
        simp [pairValue, splitOnce_append hkey, percentDecode_of_encodes hpe.1,
          percentDecode_of_encodes hpe.2]
      rw [map_cons, map_cons, findSome?_cons, hvalue, find?_cons]
      by_cases hkey : trim p.1 = key
      · simp [hkey]
      · simpa [hkey] using ih
  have hclean : ∀ l ∈ (es.map fun e => e.1 ++ "=" ++ e.2).map String.toList, '&' ∉ l := by
    clear hvalues
    induction h with
    | nil => exact nofun
    | @cons p e ps es hpe _ ih =>
      have hk : '&' ∉ e.1.toList := notMem_toList (by decide) hpe.1.separators.1
      have hv : '&' ∉ e.2.toList := notMem_toList (by decide) hpe.2.separators.1
      exact forall_mem_cons.mpr ⟨by simp [hk, hv], ih⟩
  rw [← hvalues, formParam, formBody, String.toList_intercalate]
  rcases es with _ | ⟨e, es⟩
  · rfl
  · exact congrArg _ (splitOn_intercalate '&' hclean (cons_ne_nil _ _))

/-- Encoded text is read back, a `%` without two hexadecimal digits stands for itself unless
a sign and a digit follow it, and the parameters of a body are those of its pairs. -/
theorem formBodies_exact (v enc key : String) (ps es : List (String × String)) :
    (Encodes (utf8 v) (utf8 enc) → percentDecode enc = v) ∧
      (decodeLoop (utf8 enc) = formDecode (utf8 enc) ↔ SignFree (utf8 enc)) ∧
      (Forall₂ (fun p e => Encodes (utf8 p.1) (utf8 e.1) ∧ Encodes (utf8 p.2) (utf8 e.2)) ps es →
        formParam (formBody es) key = (ps.find? fun p => trim p.1 = key).map Prod.snd) :=
  ⟨percentDecode_of_encodes, decodeLoop_iff (utf8 enc), formParam_formBody key⟩

theorem formBodies_exact_ampersand : percentDecode "%26+" = "& " :=
  (formBodies_exact "& " "%26+" "" [] []).1 (.escape (x := 50) (y := 54) rfl rfl (.blank .nil))

/-- `%+5` is no escape, and is read as one. -/
theorem sign_read_as_escape : percentDecode "%+5" = "\u0005" ∧
    fromUtf8Lossy (formDecode (utf8 "%+5")) = "% 5" := by
  have hcode : decodeLoop [percent, plus, 53] = utf8 "\u0005" := by
    rw [decodeLoop, decodeWith_some _ _ (by rw [escaped_cons]; rfl)]
    simp [decodeWith]
    rfl
  have hform : formDecode [percent, plus, 53] = utf8 "% 5" := by
    rw [formDecode, decodeWith_none _ _ rfl, decodeWith_plus,
      decodeWith_plain _ _ (by decide) (by decide)]
    simp [decodeWith]
    rfl
  constructor
  · exact (congrArg fromUtf8Lossy hcode).trans (fromUtf8Lossy_utf8 _)
  · exact (congrArg fromUtf8Lossy hform).trans (fromUtf8Lossy_utf8 _)

end Nova.Server
