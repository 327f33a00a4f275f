import Nova.Core.Ids
import Nova.Lib.Blocks
import Nova.Lib.Varint
import Mathlib.Data.Prod.Lex
import Mathlib.Data.List.Lex
import Mathlib.Data.List.Sort
import Mathlib.Data.Nat.Size

/-!
# The compacted dictionary tier

Every regular term present when the dictionary is compacted is sorted by
`(tag, primary string)` and front-coded into one byte buffer, in blocks of a
fixed number of entries; each block starts a fresh prefix chain, so it can be
decoded on its own. Two arrays bridge insertion-ordered ids and sorted ranks.

The sort key leaves out the language tag and the datatype. A lookup searches
the block heads for the last one that is not above the target and scans from
there, so entries with equal keys that begin in an earlier block are never
looked at: `getId_hit` needs `NoStraddle`. Block starts and key offsets are stored
in 32 bits (`Addressable`).

The bit-packed permutation arrays are lists of numbers here.
-/

namespace Nova.DictCompact

open Nova.Lib List Reader

/-- `BLOCK_SIZE`. -/
def sourceBlockSize : Nat := 8

/-! ## Strings and widths -/

def writeStr (s : String) : Bytes := writeVarint (utf8 s).length ++ utf8 s

def expectUtf8 (bytes : Bytes) : Reader Panic String :=
  match fromUtf8 bytes with
  | some s => pure s
  | none => Reader.fail (.expect "dict_compact: term bytes are always valid utf8 on encode")

def readStr : Reader Panic String := do
  let len ← readVarint .outOfBounds
  let bytes ← readRun .outOfBounds len
  expectUtf8 bytes

def commonPrefixLen : Bytes → Bytes → Nat
  | x :: xs, y :: ys => if x = y then commonPrefixLen xs ys + 1 else 0
  | _, _ => 0

def bitWidthFor (maxVal : Nat) : Nat := max (Nat.size maxVal) 1

/-! ## Term ↔ (tag, primary, aux) -/

/-- What the tier is sorted by. -/
abbrev Key := UInt8 ×ₗ Bytes

def termSortKey : Term → Except Panic (UInt8 × Bytes)
  | .namedNode n => .ok (0, utf8 n.iri)
  | .blankNode b => .ok (1, utf8 b.id)
  | .literal l =>
    let tag : UInt8 :=
      if l.direction.isSome then 4
      else if l.language.isSome then 3
      else if l.datatype = xsdString then 2
      else 5
    .ok (tag, utf8 l.value)
  | .triple _ _ _ => .error (.unreachable "quoted triples never enter the compacted FC tier")

def directionByte : BaseDirection → UInt8
  | .ltr => 0
  | .rtl => 1

def termAuxBytes : Term → Except Panic Bytes
  | .namedNode _ => .ok []
  | .blankNode _ => .ok []
  | .literal l =>
    match l.direction with
    | some direction =>
      .ok (writeStr (l.language.getD "") ++ [directionByte direction])
    | none =>
      match l.language with
      | some lang => .ok (writeStr lang)
      | none => if l.datatype = xsdString then .ok [] else .ok (writeStr l.datatype.iri)
  | .triple _ _ _ => .error (.unreachable "quoted triples never enter the compacted FC tier")

/-- The fallible `String::from_utf8` of `term_from_parts`; the position detail
of the standard library's message is left out. -/
def utf8OrErr (bytes : Bytes) : Except Oxigraph String :=
  match fromUtf8 bytes with
  | some s => .ok s
  | none => .error (.storage "dict compact: invalid utf8")

def termFromParts (tag : UInt8) (primary aux : Bytes) : Except Panic (Except Oxigraph Term) :=
  match tag with
  | 0 => .ok do return .namedNode ⟨← utf8OrErr primary⟩
  | 1 => .ok do return .blankNode ⟨← utf8OrErr primary⟩
  | 2 => .ok do return .literal (.string (← utf8OrErr primary))
  | 3 => do
    let (lang, _) ← readStr aux 0
    return do return .literal (.languageTagged (← utf8OrErr primary) lang)
  | 4 => do
    let (lang, pos) ← readStr aux 0
    let (dirByte, _) ← readByte .outOfBounds aux pos
    match dirByte with
    | 0 => return do return .literal (.directional (← utf8OrErr primary) lang .ltr)
    | 1 => return do return .literal (.directional (← utf8OrErr primary) lang .rtl)
    | other => return .error (.storage s!"dict compact: invalid direction byte {other}")
  | 5 => do
    let (datatype, _) ← readStr aux 0
    return do return .literal (Literal.newTypedLiteral (← utf8OrErr primary) ⟨datatype⟩)
  | other => .ok (.error (.storage s!"dict compact: unknown term tag {other}"))

/-! ## Building the tier -/

/-- One `(tag, primary, aux, orig_id)` tuple. -/
structure Entry where
  tag : UInt8
  primary : Bytes
  aux : Bytes
  origId : Nat
deriving DecidableEq

def Entry.key (e : Entry) : Key := toLex (e.tag, e.primary)

/-- The buffers the loop of `build` grows. -/
structure Buffers where
  buf : Bytes
  blockStarts : List Nat
  blockTags : List UInt8
  keyFlat : Bytes
  keyOffsets : List Nat
  rank2id : List Nat
deriving DecidableEq

def Buffers.empty : Buffers := ⟨[], [], [], [], [], []⟩

structure CompactedTier extends Buffers where
  blockSize : Nat
  highWater : Nat
  encodedCount : Nat
  id2rank : List Nat
  rank2idBitWidth : Nat
  id2rankBitWidth : Nat
deriving DecidableEq

def CompactedTier.empty (blockSize : Nat) : CompactedTier :=
  { Buffers.empty with
    blockSize
    highWater := 0
    encodedCount := 0
    id2rank := []
    rank2idBitWidth := 1
    id2rankBitWidth := 1 }

/-- `x as u32`. -/
def asU32 (n : Nat) : Nat := n % 2 ^ 32

/-- One front-coded entry: shared prefix length, suffix, tag, aux. -/
def encodeEntry (prevPrimary : Bytes) (e : Entry) : Bytes :=
  let lcp := commonPrefixLen prevPrimary e.primary
  let suffix := e.primary.drop lcp
  writeVarint lcp ++ (writeVarint suffix.length ++ (suffix ++ (e.tag ::
    (writeVarint e.aux.length ++ e.aux))))

/-- The loop of `build` from entry `i` on; `prev` is the primary string of
entry `i - 1`. -/
def buildLoop (blockSize : Nat) (b : Buffers) (i : Nat) (prev : Bytes) : List Entry → Buffers
  | [] => b
  | e :: es =>
    let inBlockPos := i % blockSize
    let b := if inBlockPos = 0 then
        { b with
          blockStarts := b.blockStarts ++ [asU32 b.buf.length]
          blockTags := b.blockTags ++ [e.tag]
          keyOffsets := b.keyOffsets ++ [asU32 b.keyFlat.length]
          keyFlat := b.keyFlat ++ e.primary }
      else b
    let prevPrimary := if inBlockPos = 0 then [] else prev
    let b := { b with
      buf := b.buf ++ encodeEntry prevPrimary e
      rank2id := b.rank2id ++ [e.origId] }
    buildLoop blockSize b (i + 1) e.primary es

/-- `id2rank_vals`: ranks written into an array of zeros, in rank order. -/
def writeRanks (vals : List Nat) (rank : Nat) : List Entry → List Nat
  | [] => vals
  | e :: es => writeRanks (vals.set e.origId rank) (rank + 1) es

def build (blockSize : Nat) (entries : List Entry) (highWater : Nat) : CompactedTier :=
  { buildLoop blockSize .empty 0 [] entries with
    blockSize
    highWater
    encodedCount := entries.length
    id2rank := writeRanks (List.replicate highWater 0) 0 entries
    rank2idBitWidth := bitWidthFor (highWater - 1)
    id2rankBitWidth := bitWidthFor (entries.length - 1) }

/-! ## Reading the tier -/

/-- `v[i]`, which panics outside the vector. -/
def index {α : Type} (v : List α) (i : Nat) : Except Panic α :=
  match v[i]? with
  | some x => .ok x
  | none => .error .outOfBounds

/-- An entry after its shared prefix length has been read. -/
def readEntryTail (prevPrimary : Bytes) (lcp : Nat) : Reader Panic (UInt8 × Bytes × Bytes) := do
  let suffixLen ← readVarint .outOfBounds
  if lcp ≤ prevPrimary.length then do
    let suffix ← readRun .outOfBounds suffixLen
    let tag ← readByte .outOfBounds
    let auxLen ← readVarint .outOfBounds
    let aux ← readRun .outOfBounds auxLen
    pure (tag, prevPrimary.take lcp ++ suffix, aux)
  else Reader.fail .outOfBounds

/-- The body of the loop of `decode_block`. -/
def readEntry (prevPrimary : Bytes) : Reader Panic (UInt8 × Bytes × Bytes) := do
  let lcp ← readVarint .outOfBounds
  readEntryTail prevPrimary lcp

theorem forward_entryTail (prev : Bytes) (lcp : Nat) : Reader.Forward (readEntryTail prev lcp) := by
  apply forward_bind (forward_varint _)
  intro suffixLen
  split
  · apply forward_bind (forward_run _ _)
    intro suffix
    apply forward_bind (forward_byte _)
    intro tag
    apply forward_bind (forward_varint _)
    intro auxLen
    apply forward_bind (forward_run _ _)
    intro aux
    exact forward_pure _
  · exact forward_fail _

theorem readEntry_lt {prev buf : Bytes} {pos pos' : Nat} {r : UInt8 × Bytes × Bytes}
    (h : readEntry prev buf pos = .ok (r, pos')) : pos < pos' := by
  rcases bind_eq_ok h with ⟨lcp, p, hlcp, htail⟩
  exact Nat.lt_of_lt_of_le (readVarintLoop_lt hlcp) (forward_entryTail prev lcp _ _ _ _ htail)

/-- `while pos < end` of `decode_block`. -/
def decodeLoop (buf : Bytes) (stop pos : Nat) (prevPrimary : Bytes) :
    Except Panic (List (UInt8 × Bytes × Bytes)) :=
  if pos < stop then
    match _h : readEntry prevPrimary buf pos with
    | .error p => .error p
    | .ok ((tag, primary, aux), pos') =>
      match decodeLoop buf stop pos' primary with
      | .error p => .error p
      | .ok out => .ok ((tag, primary, aux) :: out)
  else .ok []
termination_by stop - pos
decreasing_by
  have hlt := readEntry_lt _h
  omega

namespace CompactedTier

variable (t : CompactedTier)

def numBlocks : Nat := t.blockStarts.length

def decodeBlock (blockIdx : Nat) : Except Panic (List (UInt8 × Bytes × Bytes)) := do
  let start ← index t.blockStarts blockIdx
  let stop := (t.blockStarts[blockIdx + 1]?).getD t.buf.length
  decodeLoop t.buf stop start []

def blockKeyBytes (blockIdx : Nat) : Except Panic Bytes := do
  let start ← index t.keyOffsets blockIdx
  let stop := (t.keyOffsets[blockIdx + 1]?).getD t.keyFlat.length
  if start ≤ stop ∧ stop ≤ t.keyFlat.length then .ok (slice t.keyFlat start (stop - start))
  else .error .outOfBounds

/-- `is_le` of the binary search: the head of block `mid` is not above the
target. -/
def headLe (target : Key) (mid : Nat) : Except Panic Bool := do
  let midTag ← index t.blockTags mid
  let midKey ← t.blockKeyBytes mid
  return decide (toLex (midTag, midKey) ≤ target)

/-- Where the scan of one block leaves the lookup. -/
inductive Scan where
  | passed
  | found (rank : Nat)
  | more (rank : Nat)

def scanBlock (target : Key) (aux : Bytes) : Nat → List (UInt8 × Bytes × Bytes) → Scan
  | rank, [] => .more rank
  | rank, (tg, p, a) :: rest =>
    let key : Key := toLex (tg, p)
    if target < key then .passed
    else if key = target ∧ a = aux then .found rank
    else scanBlock target aux (rank + 1) rest

/-- `for b in blk..num_blocks`, over the list of the blocks left. -/
def scanBlocks (target : Key) (aux : Bytes) : Nat → List Nat → Except Panic (Option Nat)
  | _, [] => .ok none
  | rank, b :: bs => do
    let decoded ← t.decodeBlock b
    match scanBlock target aux rank decoded with
    | .passed => return none
    | .found r => return some (← index t.rank2id r)
    | .more r => scanBlocks target aux r bs

def getId (term : Term) : Except Panic (Option Nat) := do
  if t.encodedCount = 0 then return none
  let (tag, primary) ← termSortKey term
  let aux ← termAuxBytes term
  let target : Key := toLex (tag, primary)
  let lo ← partitionPointM (t.headLe target) 0 t.numBlocks
  let blk := lo - 1
  t.scanBlocks target aux (blk * t.blockSize) (List.range' blk (t.numBlocks - blk))

def decodeId (id : Nat) : Except Panic (Option (Except Oxigraph Term)) := do
  if t.highWater ≤ id ∨ t.encodedCount = 0 then return none
  let rank ← index t.id2rank id
  let block := rank / t.blockSize
  let offset := rank % t.blockSize
  let decoded ← t.decodeBlock block
  match decoded[offset]? with
  | none => return none
  | some (tag, primary, aux) => return some (← termFromParts tag primary aux)

/-- The pairs of `decode_block_for_id`, from rank `rank` on. -/
def decodePairs : Nat → List (UInt8 × Bytes × Bytes) →
    Except Panic (List (Nat × Except Oxigraph Term))
  | _, [] => .ok []
  | rank, (tag, primary, aux) :: rest => do
    let origId ← index t.rank2id rank
    let term ← termFromParts tag primary aux
    let out ← decodePairs (rank + 1) rest
    return (origId, term) :: out

def decodeBlockForId (id : Nat) : Except Panic (Option (List (Nat × Except Oxigraph Term))) := do
  if t.highWater ≤ id ∨ t.encodedCount = 0 then return none
  let rank ← index t.id2rank id
  let block := rank / t.blockSize
  let decoded ← t.decodeBlock block
  return some (← t.decodePairs (block * t.blockSize) decoded)

end CompactedTier

/-! ## The term codec -/

/-- `e` is what the term `t` is stored as. -/
structure Entry.Codes (e : Entry) (t : Term) : Prop where
  key : termSortKey t = .ok (e.tag, e.primary)
  aux : termAuxBytes t = .ok e.aux

theorem reads_expectUtf8 (s : String) : Reader.Reads (expectUtf8 (utf8 s)) [] s := by
  rw [expectUtf8, fromUtf8_utf8]
  exact reads_pure s

theorem reads_str (s : String) : Reader.Reads readStr (writeStr s) s := by
  apply reads_bind (reads_varint _ _)
  have hrun := reads_bind (reads_run Panic.outOfBounds (utf8 s)) (reads_expectUtf8 s)
  rwa [append_nil] at hrun

theorem readStr_writeStr (s : String) (post : Bytes) :
    readStr (writeStr s ++ post) 0 = .ok (s, (writeStr s).length) := by
  have h := reads_str s [] post
  simpa using h

theorem utf8OrErr_utf8 (s : String) : utf8OrErr (utf8 s) = .ok s := by
  rw [utf8OrErr, fromUtf8_utf8]

variable {e : Entry}

/-- The parts of an entry give the term back, tag by tag. -/
theorem Entry.Codes.termFromParts {t : Term} (h : e.Codes t) :
    termFromParts e.tag e.primary e.aux = .ok (.ok t) := by
  rcases h with ⟨hkey, haux⟩
  rcases e with ⟨tag, primary, aux, origId⟩
  simp only at hkey haux ⊢
  cases t with
  | namedNode n =>
    cases hkey
    cases haux
    simp [DictCompact.termFromParts, utf8OrErr_utf8]
  | blankNode b =>
    cases hkey
    cases haux
    simp [DictCompact.termFromParts, utf8OrErr_utf8]
  | literal l =>
    cases l with
    | string value =>
      simp [termSortKey, termAuxBytes, Literal.direction, Literal.language, Literal.datatype,
        Literal.value] at hkey haux
      rcases hkey with ⟨rfl, rfl⟩
      simp [DictCompact.termFromParts, utf8OrErr_utf8]
    | languageTagged value lang =>
      simp [termSortKey, termAuxBytes, Literal.direction, Literal.language, Literal.value]
        at hkey haux
      rcases hkey with ⟨rfl, rfl⟩
      have hread := readStr_writeStr lang []
      rw [append_nil, haux] at hread
      simp [DictCompact.termFromParts, hread, utf8OrErr_utf8]
    | directional value lang direction =>
      simp [termSortKey, termAuxBytes, Literal.direction, Literal.language, Literal.value]
        at hkey haux
      rcases hkey with ⟨rfl, rfl⟩
      have hread := readStr_writeStr lang [directionByte direction]
      rw [haux] at hread
      have hbyte : readByte Panic.outOfBounds aux (writeStr lang).length =
          .ok (directionByte direction, (writeStr lang).length + 1) := by
        rw [← haux]
        simp [readByte]
      cases direction <;>
        simp [DictCompact.termFromParts, hread, hbyte, utf8OrErr_utf8, directionByte]
    | typed value datatype hdt =>
      simp [termSortKey, termAuxBytes, Literal.direction, Literal.language, Literal.datatype,
        Literal.value, hdt] at hkey haux
      rcases hkey with ⟨rfl, rfl⟩
      have hread := readStr_writeStr datatype.iri []
      rw [append_nil, haux] at hread
      simp [DictCompact.termFromParts, hread, utf8OrErr_utf8, Literal.newTypedLiteral, hdt]
  | triple s p o => cases hkey

theorem Entry.Codes.eq_of_parts {e' : Entry} {t t' : Term} (h : e.Codes t) (h' : e'.Codes t')
    (hkey : e.key = e'.key) (haux : e.aux = e'.aux) : t = t' := by
  have hparts : (e.tag, e.primary) = (e'.tag, e'.primary) := hkey
  simp only [Prod.mk.injEq] at hparts
  have h1 := h.termFromParts
  have h2 := h'.termFromParts
  rw [hparts.1, hparts.2, haux, h2] at h1
  simpa using h1.symm

theorem exists_codes {t : Term} (ht : ∀ s p o, t ≠ .triple s p o) (id : Nat) :
    ∃ e : Entry, e.Codes t ∧ e.origId = id := by
  cases t with
  | namedNode n => exact ⟨⟨0, utf8 n.iri, [], id⟩, ⟨rfl, rfl⟩, rfl⟩
  | blankNode b => exact ⟨⟨1, utf8 b.id, [], id⟩, ⟨rfl, rfl⟩, rfl⟩
  | literal l =>
    cases l with
    | string v => exact ⟨⟨2, utf8 v, [], id⟩, ⟨rfl, rfl⟩, rfl⟩
    | languageTagged v lang => exact ⟨⟨3, utf8 v, writeStr lang, id⟩, ⟨rfl, rfl⟩, rfl⟩
    | directional v lang d =>
      exact ⟨⟨4, utf8 v, writeStr lang ++ [directionByte d], id⟩, ⟨rfl, rfl⟩, rfl⟩
    | typed v dt hdt =>
      refine ⟨⟨5, utf8 v, writeStr dt.iri, id⟩, ⟨?_, ?_⟩, rfl⟩
      · simp [termSortKey, Literal.direction, Literal.language, Literal.datatype, hdt, Literal.value]
      · simp [termAuxBytes, Literal.direction, Literal.language, Literal.datatype, hdt]
  | triple s p o => exact absurd rfl (ht s p o)

/-! ## Layout of a built tier -/

def Entry.parts (e : Entry) : UInt8 × Bytes × Bytes := (e.tag, e.primary, e.aux)

/-- Entries front-coded one after another. -/
def encodeChain : Bytes → List Entry → Bytes
  | _, [] => []
  | prev, e :: es => encodeEntry prev e ++ encodeChain e.primary es

def encodeBlock (blk : List Entry) : Bytes := encodeChain [] blk

def headTag (blk : List Entry) : UInt8 := (blk.head?.map Entry.tag).getD 0

def headPrimary (blk : List Entry) : Bytes := (blk.head?.map Entry.primary).getD []

def lastPrimary (es : List Entry) (prev : Bytes) : Bytes := (es.getLast?.map Entry.primary).getD prev

/-- How the buffers store the entries `es`, cut into `blocks`. -/
structure Layout (b : Buffers) (bs : Nat) (es : List Entry) (blocks : List (List Entry)) : Prop where
  blocked : Blocked bs es blocks
  buf : b.buf = (blocks.map encodeBlock).flatten
  blockStarts : b.blockStarts = (offsets 0 (blocks.map encodeBlock)).map asU32
  blockTags : b.blockTags = blocks.map headTag
  keyFlat : b.keyFlat = (blocks.map headPrimary).flatten
  keyOffsets : b.keyOffsets = (offsets 0 (blocks.map headPrimary)).map asU32
  rank2id : b.rank2id = es.map Entry.origId

theorem encodeChain_snoc (prev : Bytes) (es : List Entry) (e : Entry) :
    encodeChain prev (es ++ [e]) = encodeChain prev es ++ encodeEntry (lastPrimary es prev) e := by
  induction es generalizing prev with
  | nil => simp [encodeChain, lastPrimary]
  | cons x es ih =>
    have hlast : lastPrimary (x :: es) prev = lastPrimary es x.primary := by
      cases es with
      | nil => simp [lastPrimary]
      | cons y ys =>
        cases h : (y :: ys).getLast? with
        | none => simp at h
        | some z => simp [lastPrimary, getLast?_cons_cons, h]
    rw [cons_append, encodeChain, encodeChain, ih, hlast, append_assoc]

/-- One iteration of the loop of `build`. -/
def pushEntry (bs : Nat) (b : Buffers) (i : Nat) (prev : Bytes) (e : Entry) : Buffers :=
  buildLoop bs b i prev [e]

theorem buildLoop_cons (bs : Nat) (b : Buffers) (i : Nat) (prev : Bytes) (e : Entry)
    (es : List Entry) :
    buildLoop bs b i prev (e :: es) = buildLoop bs (pushEntry bs b i prev e) (i + 1) e.primary es :=
  rfl

/-- One more entry keeps the layout: it starts a block when the earlier ones
are full and extends the last one otherwise. -/
theorem Layout.pushEntry {bs : Nat} (hbs : 0 < bs) {b : Buffers} {es : List Entry}
    {blocks : List (List Entry)} (h : Layout b bs es blocks) (e : Entry) :
    ∃ blocks', Layout (DictCompact.pushEntry bs b es.length (lastPrimary es []) e) bs (es ++ [e])
      blocks' := by
  by_cases hpos : es.length % bs = 0
  · -- a new block
    refine ⟨blocks ++ [[e]], ?_⟩
    constructor
    · exact h.blocked.snoc_new hbs hpos e
    · simp [DictCompact.pushEntry, buildLoop, hpos, h.buf, encodeBlock, encodeChain]
    · simp [DictCompact.pushEntry, buildLoop, hpos, h.buf, h.blockStarts, offsets_append, offsets]
    · simp [DictCompact.pushEntry, buildLoop, hpos, h.blockTags, headTag]
    · simp [DictCompact.pushEntry, buildLoop, hpos, h.keyFlat, headPrimary]
    · simp [DictCompact.pushEntry, buildLoop, hpos, h.keyFlat, h.keyOffsets, offsets_append, offsets]
    · simp [DictCompact.pushEntry, buildLoop, hpos, h.rank2id]
  · -- the last block has room
    rcases h.blocked.exists_last hpos with ⟨init, last, rfl⟩
    have hne : last ≠ [] := h.blocked.ne_nil last (by simp)
    have hlast : lastPrimary es [] = lastPrimary last [] := by
      rw [← h.blocked.flatten]
      simp [lastPrimary, getLast?_append_of_ne_nil _ hne]
    have htag : headTag (last ++ [e]) = headTag last := by
      rcases last with _ | ⟨x, xs⟩
      · exact absurd rfl hne
      · simp [headTag]
    have hprim : headPrimary (last ++ [e]) = headPrimary last := by
      rcases last with _ | ⟨x, xs⟩
      · exact absurd rfl hne
      · simp [headPrimary]
    refine ⟨init ++ [last ++ [e]], ?_⟩
    constructor
    · exact h.blocked.snoc_extend hpos e
    · simp [DictCompact.pushEntry, buildLoop, hpos, h.buf, encodeBlock, encodeChain_snoc, hlast]
    · simp [DictCompact.pushEntry, buildLoop, hpos, h.blockStarts, offsets_append, offsets]
    · simp [DictCompact.pushEntry, buildLoop, hpos, h.blockTags, htag]
    · simp [DictCompact.pushEntry, buildLoop, hpos, h.keyFlat, hprim]
    · simp [DictCompact.pushEntry, buildLoop, hpos, h.keyOffsets, offsets_append, offsets]
    · simp [DictCompact.pushEntry, buildLoop, hpos, h.rank2id]

theorem Layout.buildLoop {bs : Nat} (hbs : 0 < bs) (es : List Entry) :
    ∀ {b : Buffers} {done : List Entry} {blocks : List (List Entry)}, Layout b bs done blocks →
      ∃ blocks', Layout (buildLoop bs b done.length (lastPrimary done []) es) bs (done ++ es)
        blocks' := by
  induction es with
  | nil =>
    intro b done blocks h
    exact ⟨blocks, by simpa [DictCompact.buildLoop] using h⟩
  | cons e es ih =>
    intro b done blocks h
    rcases h.pushEntry hbs e with ⟨blocks', h'⟩
    have hrec := ih h'
    have hlast : lastPrimary (done ++ [e]) [] = e.primary := by simp [lastPrimary]
    rw [length_append, length_singleton, hlast, append_assoc,
      singleton_append] at hrec
    rw [buildLoop_cons]
    exact hrec

theorem exists_layout {bs : Nat} (hbs : 0 < bs) (es : List Entry) (highWater : Nat) :
    ∃ blocks, Layout (build bs es highWater).toBuffers bs es blocks := by
  have hnil : Layout .empty bs [] [] := by
    constructor <;> simp [Buffers.empty, Blocked.nil, offsets]
  have h := Layout.buildLoop hbs es hnil
  simpa [lastPrimary, build] using h

/-! ## Decoding a block -/

theorem commonPrefixLen_le_left (a b : Bytes) : commonPrefixLen a b ≤ a.length := by
  induction a generalizing b with
  | nil => simp [commonPrefixLen]
  | cons x a ih =>
    cases b with
    | nil => simp [commonPrefixLen]
    | cons y b =>
      have hrec := ih b
      rw [commonPrefixLen]
      split
      · simpa using hrec
      · simp

theorem take_commonPrefixLen (a b : Bytes) :
    a.take (commonPrefixLen a b) ++ b.drop (commonPrefixLen a b) = b := by
  induction a generalizing b with
  | nil => simp [commonPrefixLen]
  | cons x a ih =>
    cases b with
    | nil => simp [commonPrefixLen]
    | cons y b =>
      rw [commonPrefixLen]
      split
      · rename_i hxy
        rw [hxy, take_succ_cons, drop_succ_cons, cons_append, ih]
      · simp

theorem reads_entry (prev : Bytes) (e : Entry) :
    Reader.Reads (readEntry prev) (encodeEntry prev e) e.parts := by
  apply reads_bind (reads_varint _ _)
  apply reads_bind (reads_varint _ _)
  rw [if_pos (commonPrefixLen_le_left prev e.primary)]
  apply reads_bind (reads_run _ _)
  rw [← singleton_append]
  apply reads_bind (reads_byte _ _)
  apply reads_bind (reads_varint _ _)
  rw [take_commonPrefixLen]
  exact reads_bind_pure (reads_run _ _)

theorem encodeEntry_length_pos (prev : Bytes) (e : Entry) : 0 < (encodeEntry prev e).length := by
  rw [encodeEntry, length_append]
  have h := length_pos_of_ne_nil (writeVarint_ne_nil (commonPrefixLen prev e.primary))
  omega

theorem decodeLoop_step {buf : Bytes} {stop pos pos' : Nat} {prev : Bytes}
    {out : List (UInt8 × Bytes × Bytes)} (hlt : pos < stop)
    (hread : readEntry prev buf pos = .ok (e.parts, pos'))
    (hrest : decodeLoop buf stop pos' e.primary = .ok out) :
    decodeLoop buf stop pos prev = .ok (e.parts :: out) := by
  rw [decodeLoop, if_pos hlt]
  split
  · rename_i p hp
    rw [hread] at hp
    cases hp
  · rename_i tag primary aux p hp
    rw [hread] at hp
    simp only [Except.ok.injEq, Prod.mk.injEq, Entry.parts] at hp
    rcases hp with ⟨⟨rfl, rfl, rfl⟩, rfl⟩
    rw [hrest]
    rfl

/-- The loop reads back the entries of a chain, wherever it stands in the bytes. -/
theorem decodeLoop_encodeChain (blk : List Entry) :
    ∀ (prev pre post : Bytes),
      decodeLoop (pre ++ encodeChain prev blk ++ post) (pre.length + (encodeChain prev blk).length)
        pre.length prev = .ok (blk.map Entry.parts) := by
  induction blk with
  | nil =>
    intro prev pre post
    rw [decodeLoop]
    simp [encodeChain]
  | cons e blk ih =>
    intro prev pre post
    have hpos := encodeEntry_length_pos prev e
    -- one entry is read, and the rest against its primary text
    have hread := reads_entry prev e pre (encodeChain e.primary blk ++ post)
    have hrec := ih e.primary (pre ++ encodeEntry prev e) post
    have hbuf : pre ++ encodeChain prev (e :: blk) ++ post =
        pre ++ encodeEntry prev e ++ (encodeChain e.primary blk ++ post) := by
      simp [encodeChain]
    have hstop : pre.length + (encodeChain prev (e :: blk)).length =
        (pre ++ encodeEntry prev e).length + (encodeChain e.primary blk).length := by
      simp [encodeChain]
      omega
    rw [append_assoc, length_append] at hrec
    rw [hbuf, hstop, length_append, map_cons]
    exact decodeLoop_step (by omega) hread hrec

/-- Block starts and key offsets fit the 32 bits they are stored in. -/
def Addressable (bs : Nat) (es : List Entry) : Prop :=
  ∀ blocks, Blocked bs es blocks →
    (∀ x ∈ offsets 0 (blocks.map encodeBlock), x < 2 ^ 32) ∧
      (∀ x ∈ offsets 0 (blocks.map headPrimary), x < 2 ^ 32)

theorem map_asU32_of_lt {l : List Nat} (h : ∀ x ∈ l, x < 2 ^ 32) : l.map asU32 = l := by
  conv_rhs => rw [← map_id l]
  apply map_congr_left
  intro x hx
  exact Nat.mod_eq_of_lt (h x hx)

variable {b : Nat}

theorem offsets_bounds (pieces : List Bytes) {p : Bytes} (hb : pieces[b]? = some p) :
    index (offsets 0 pieces) b = .ok (pieces.take b).flatten.length ∧
      ((offsets 0 pieces)[b + 1]?).getD pieces.flatten.length =
        (pieces.take b).flatten.length + p.length := by
  have hlt : b < pieces.length := (List.getElem?_eq_some_iff.mp hb).1
  constructor
  · rw [index, getElem?_offsets, if_pos hlt]
    simp
  · have h := getD_offsets_succ 0 pieces hb
    simpa using h

variable {t : CompactedTier} {bs hw : Nat} {es : List Entry} {blocks : List (List Entry)}

/-- Every block starts at an offset that its 32 bits can hold. -/
def StartsFit (bs : Nat) (es : List Entry) : Prop :=
  ∀ blocks, Blocked bs es blocks → ∀ x ∈ offsets 0 (blocks.map encodeBlock), x < 2 ^ 32

theorem Addressable.startsFit (h : Addressable bs es) : StartsFit bs es :=
  fun blocks hblocked => (h blocks hblocked).1

variable {blk : List Entry}

section

variable (h : Layout t.toBuffers bs es blocks) (hfit : StartsFit bs es) (hb : blocks[b]? = some blk)
include h hfit hb

/-- Where the block lies in the buffer. -/
theorem Layout.block_bounds : index t.blockStarts b = .ok ((blocks.map encodeBlock).take b).flatten.length ∧
      (t.blockStarts[b + 1]?).getD t.buf.length =
        ((blocks.map encodeBlock).take b).flatten.length + (encodeBlock blk).length ∧
      t.buf = ((blocks.map encodeBlock).take b).flatten ++ encodeBlock blk ++
        ((blocks.map encodeBlock).drop (b + 1)).flatten := by
  have hstarts := map_asU32_of_lt (hfit blocks h.blocked)
  have hpiece : (blocks.map encodeBlock)[b]? = some (encodeBlock blk) := by
    rw [getElem?_map, hb]
    rfl
  rcases offsets_bounds _ hpiece with ⟨hstart, hstop⟩
  rw [h.blockStarts, hstarts, h.buf]
  exact ⟨hstart, hstop, flatten_split _ hpiece⟩

theorem Layout.decodeBlock : t.decodeBlock b = .ok (blk.map Entry.parts) := by
  rcases h.block_bounds hfit hb with ⟨hstart, hstop, hbuf⟩
  rw [CompactedTier.decodeBlock, hstart, ok_bind, hstop, hbuf]
  exact decodeLoop_encodeChain blk [] _ _

end

theorem Layout.blockKeyBytes (h : Layout t.toBuffers bs es blocks) (haddr : Addressable bs es)
    (hb : blocks[b]? = some blk) : t.blockKeyBytes b = .ok (headPrimary blk) := by
  have hoffs := map_asU32_of_lt (haddr blocks h.blocked).2
  have hpiece : (blocks.map headPrimary)[b]? = some (headPrimary blk) := by
    rw [getElem?_map, hb]
    rfl
  rcases offsets_bounds _ hpiece with ⟨hstart, hstop⟩
  have hslice := slice_flatten _ hpiece
  have hend : ((blocks.map headPrimary).take b).flatten.length + (headPrimary blk).length ≤
      (blocks.map headPrimary).flatten.length := by
    have hlen := congrArg List.length (flatten_split _ hpiece)
    simp only [length_append] at hlen
    omega
  rw [CompactedTier.blockKeyBytes, h.keyOffsets, hoffs, h.keyFlat, hstart, ok_bind, hstop]
  rw [if_pos ⟨by omega, hend⟩, Nat.add_sub_cancel_left, hslice]

/-! ## Lookup -/

/-- The scan of a lookup over the entries themselves. -/
def lookupFrom (target : Key) (aux : Bytes) : List Entry → Option Entry
  | [] => none
  | e :: es =>
    if target < e.key then none
    else if e.key = target ∧ e.aux = aux then some e
    else lookupFrom target aux es

theorem scanBlock_cons (target : Key) (aux : Bytes) (r : Nat) (e : Entry)
    (rest : List (UInt8 × Bytes × Bytes)) :
    CompactedTier.scanBlock target aux r (e.parts :: rest) =
      if target < e.key then .passed
      else if e.key = target ∧ e.aux = aux then .found r
      else CompactedTier.scanBlock target aux (r + 1) rest :=
  rfl

/-- Scanning one block, with the entries `rest` still to come. -/
theorem scanBlock_spec (target : Key) (aux : Bytes) (rest : List Entry) (blk : List Entry) :
    ∀ {r : Nat}, es.drop r = blk ++ rest →
      match CompactedTier.scanBlock target aux r (blk.map Entry.parts) with
      | .passed => lookupFrom target aux (blk ++ rest) = none
      | .found r' => ∃ e, es[r']? = some e ∧ lookupFrom target aux (blk ++ rest) = some e
      | .more r' => es.drop r' = rest ∧
          lookupFrom target aux (blk ++ rest) = lookupFrom target aux rest := by
  induction blk with
  | nil =>
    intro r hdrop
    exact ⟨hdrop, rfl⟩
  | cons e blk ih =>
    intro r hdrop
    have hhead : es[r]? = some e := by
      have h0 : es[r]? = (es.drop r)[0]? := by simp
      rw [h0, hdrop]
      rfl
    have htail : es.drop (r + 1) = blk ++ rest := by
      rw [← drop_drop, hdrop]
      rfl
    rw [map_cons, scanBlock_cons, cons_append, lookupFrom]
    by_cases hpast : target < e.key
    · rw [if_pos hpast]
      simp [hpast]
    · by_cases hit : e.key = target ∧ e.aux = aux
      · rw [if_neg hpast, if_pos hit]
        exact ⟨e, hhead, by rw [if_neg hpast, if_pos hit]⟩
      · rw [if_neg hpast, if_neg hit, if_neg hpast, if_neg hit]
        exact ih htail

theorem index_rank2id (h : Layout t.toBuffers bs es blocks) {r : Nat}
    (hr : es[r]? = some e) : index t.rank2id r = .ok e.origId := by
  rw [index, h.rank2id, getElem?_map, hr]
  rfl

/-- Scanning block after block is one scan over the entries. -/
theorem scanBlocks_eq (h : Layout t.toBuffers bs es blocks) (haddr : Addressable bs es)
    (target : Key) (aux : Bytes) (n : Nat) :
    ∀ {b r : Nat}, b + n = blocks.length → es.drop r = (blocks.drop b).flatten →
      t.scanBlocks target aux r (List.range' b n) =
        .ok ((lookupFrom target aux (es.drop r)).map Entry.origId) := by
  induction n with
  | zero =>
    intro b r hlen hdrop
    have hnil : blocks.drop b = [] := drop_eq_nil_of_le (by omega)
    rw [hdrop, hnil]
    rfl
  | succ n ih =>
    intro b r hlen hdrop
    have hlt : b < blocks.length := by omega
    have hblk : blocks[b]? = some blocks[b] := getElem?_eq_getElem hlt
    rw [drop_eq_getElem_cons hlt, flatten_cons] at hdrop
    have hspec := scanBlock_spec target aux _ _ hdrop
    rw [range'_succ, CompactedTier.scanBlocks, h.decodeBlock haddr.startsFit hblk, ok_bind, hdrop]
    cases hscan : CompactedTier.scanBlock target aux r (blocks[b].map Entry.parts) with
    | passed =>
      rw [hscan] at hspec
      simp only at hspec ⊢
      rw [hspec]
      rfl
    | found r' =>
      rw [hscan] at hspec
      simp only at hspec ⊢
      rcases hspec with ⟨e, hr', hfound⟩
      rw [index_rank2id h hr', hfound]
      rfl
    | more r' =>
      rw [hscan] at hspec
      simp only at hspec ⊢
      rw [hspec.2, ← hspec.1]
      exact ih (by omega) hspec.1

/-- The head of block `b` is not above the target. -/
def headNotAbove (bs : Nat) (es : List Entry) (target : Key) (b : Nat) : Bool :=
  (es[b * bs]?).any fun e => decide (e.key ≤ target)

theorem Layout.headLe (h : Layout t.toBuffers bs es blocks) (haddr : Addressable bs es)
    (target : Key) (hb : b < blocks.length) : t.headLe target b = .ok (headNotAbove bs es target b) := by
  have hblk : blocks[b]? = some blocks[b] := getElem?_eq_getElem hb
  have hne : blocks[b] ≠ [] := h.blocked.ne_nil _ (mem_of_getElem? hblk)
  have hhead := h.blocked.head_eq hblk
  have htag : index t.blockTags b = .ok (headTag blocks[b]) := by
    rw [index, h.blockTags, getElem?_map, hblk]
    rfl
  rw [CompactedTier.headLe, htag, ok_bind, h.blockKeyBytes haddr hblk, ok_bind,
    headNotAbove, hhead]
  rcases hcons : blocks[b] with _ | ⟨e, rest⟩
  · exact absurd hcons hne
  · rfl

/-- The block a lookup starts in. -/
def startBlock (bs : Nat) (es : List Entry) (target : Key) (numBlocks : Nat) : Nat :=
  partitionPoint (headNotAbove bs es target) 0 numBlocks - 1

variable {term : Term}

theorem Layout.getId (h : Layout t.toBuffers bs es blocks) (haddr : Addressable bs es)
    (hbs : t.blockSize = bs) (hcount : t.encodedCount = es.length) (hcodes : e.Codes term) :
    t.getId term = .ok ((lookupFrom e.key e.aux
      (es.drop (startBlock bs es e.key blocks.length * bs))).map Entry.origId) := by
  have hnum : t.numBlocks = blocks.length := by
    rw [CompactedTier.numBlocks, h.blockStarts]
    simp
  rw [CompactedTier.getId]
  by_cases hzero : t.encodedCount = 0
  · have hes : es = [] := length_eq_zero_iff.mp (by omega)
    rw [if_pos hzero, hes, drop_nil]
    rfl
  · rw [if_neg hzero, hcodes.key, ok_bind]
    simp only
    rw [hcodes.aux, ok_bind, hnum]
    have hsearch : partitionPointM (t.headLe e.key) 0 blocks.length =
        .ok (partitionPoint (headNotAbove bs es e.key) 0 blocks.length) :=
      partitionPointM_eq fun i hi => h.headLe haddr e.key hi
    have hkey : (toLex (e.tag, e.primary) : Key) = e.key := rfl
    simp only [hkey, hsearch, ok_bind, hbs]
    have hne : blocks ≠ [] := by
      intro hnil
      have hflat := h.blocked.flatten
      rw [hnil] at hflat
      rw [hcount, ← hflat] at hzero
      exact hzero rfl
    have hpos : 0 < blocks.length := length_pos_of_ne_nil hne
    have hle : partitionPoint (headNotAbove bs es e.key) 0 blocks.length ≤ blocks.length :=
      partitionPoint_le _ (Nat.zero_le _)
    change t.scanBlocks e.key e.aux (startBlock bs es e.key blocks.length * bs)
      (List.range' (startBlock bs es e.key blocks.length) _) = _
    have hlt : startBlock bs es e.key blocks.length < blocks.length := by
      rw [startBlock]
      omega
    exact scanBlocks_eq h haddr _ _ _ (Nat.add_sub_of_le (Nat.le_of_lt hlt))
      (h.blocked.flatten_drop hlt).symm

/-! ## What a lookup finds -/

/-- Sorted the way `compact` sorts: by key, entries with equal keys in any
order. -/
abbrev SortedByKey (es : List Entry) : Prop := es.Pairwise fun a b => a.key ≤ b.key

/-- No run of equal keys crosses a block boundary. -/
def NoStraddle (bs : Nat) (es : List Entry) : Prop :=
  ∀ b, 0 < b → ∀ e e', es[b * bs - 1]? = some e → es[b * bs]? = some e' → e.key ≠ e'.key

theorem noStraddle_of_length_le (h : es.length ≤ bs) : NoStraddle bs es := by
  intro b hb e e' _ he'
  have hlt := (List.getElem?_eq_some_iff.mp he').1
  have hmul : 1 * bs ≤ b * bs := Nat.mul_le_mul_right bs hb
  omega

theorem addressable_of_length_le (h : es.length ≤ bs) : Addressable bs es := by
  intro blocks hblocked
  have hone : blocks.length ≤ 1 := by
    by_contra hgt
    have hlt : 1 < blocks.length := by omega
    have hblk : blocks[1]? = some blocks[1] := getElem?_eq_getElem hlt
    have hhead := hblocked.head_eq hblk
    rw [getElem?_eq_none (by omega)] at hhead
    exact hblocked.ne_nil _ (mem_of_getElem? hblk) (head?_eq_none_iff.mp hhead.symm)
  rcases blocks with _ | ⟨blk, _ | ⟨blk', rest⟩⟩
  · simp [offsets]
  · simp [offsets]
  · simp at hone

theorem lookupFrom_eq_none {target : Key} {aux : Bytes} {l : List Entry}
    (h : ∀ e ∈ l, ¬(e.key = target ∧ e.aux = aux)) : lookupFrom target aux l = none := by
  induction l with
  | nil => rfl
  | cons x l ih =>
    rw [lookupFrom, if_neg (h x mem_cons_self), ih fun e he => h e (mem_cons_of_mem x he)]
    simp

theorem lookupFrom_eq_some {l : List Entry} (hsorted : SortedByKey l) (he : e ∈ l)
    (huniq : ∀ e' ∈ l, e'.key = e.key → e'.aux = e.aux → e' = e) : lookupFrom e.key e.aux l = some e := by
  induction l with
  | nil => cases he
  | cons x l ih =>
    rcases pairwise_cons.mp hsorted with ⟨hhead, htail⟩
    have hle : x.key ≤ e.key := by
      rcases mem_cons.mp he with heq | hmem
      · rw [heq]
      · exact hhead e hmem
    rw [lookupFrom, if_neg (not_lt_of_ge hle)]
    by_cases hit : x.key = e.key ∧ x.aux = e.aux
    · rw [if_pos hit, huniq x mem_cons_self hit.1 hit.2]
    · have hmem : e ∈ l := by
        rcases mem_cons.mp he with heq | hmem
        · exact absurd ⟨by rw [heq], by rw [heq]⟩ hit
        · exact hmem
      rw [if_neg hit]
      exact ih htail hmem fun e' he' => huniq e' (mem_cons_of_mem x he')

theorem SortedByKey.le {es : List Entry} (h : SortedByKey es) {i j : Nat} {a b : Entry} (hij : i ≤ j)
    (ha : es[i]? = some a) (hb : es[j]? = some b) : a.key ≤ b.key := by
  rcases List.getElem?_eq_some_iff.mp ha with ⟨hi, rfl⟩
  rcases List.getElem?_eq_some_iff.mp hb with ⟨hj, rfl⟩
  rcases Nat.eq_or_lt_of_le hij with heq | hlt
  · simp [heq]
  · exact pairwise_iff_getElem.mp h i j hi hj hlt

theorem headNotAbove_iff {target : Key} (he : es[b * bs]? = some e) :
    headNotAbove bs es target b = true ↔ e.key ≤ target := by
  simp [headNotAbove, he]

/-- The heads of the blocks before the one a lookup starts in, and its own, are
not above the target; the later ones are. -/
theorem startBlock_spec (hsorted : SortedByKey es) (target : Key) {n : Nat}
    (hn : ∀ b < n, b * bs < es.length) :
    (∀ b, b < partitionPoint (headNotAbove bs es target) 0 n →
        headNotAbove bs es target b = true) ∧
      (∀ b, partitionPoint (headNotAbove bs es target) 0 n ≤ b → b < n →
        headNotAbove bs es target b = false) := by
  have hspec := partitionPoint_spec (headNotAbove bs es target) 0 n ?_
  · exact ⟨fun b hb => hspec.1 b (Nat.zero_le b) hb, hspec.2⟩
  · intro i j _ hij hj hp
    have hjlen := hn j hj
    have hmul : i * bs ≤ j * bs := Nat.mul_le_mul_right bs hij
    have hi : es[i * bs]? = some es[i * bs] := getElem?_eq_getElem (by omega)
    have hj' : es[j * bs]? = some es[j * bs] := getElem?_eq_getElem hjlen
    rw [headNotAbove_iff hj'] at hp
    rw [headNotAbove_iff hi]
    exact (hsorted.le hmul hi hj').trans hp

theorem Layout.mul_lt_length (h : Layout t.toBuffers bs es blocks)
    (hb : b < blocks.length) : b * bs < es.length := by
  have hblk : blocks[b]? = some blocks[b] := getElem?_eq_getElem hb
  have hhead := h.blocked.head_eq hblk
  have hne : blocks[b] ≠ [] := h.blocked.ne_nil _ (mem_of_getElem? hblk)
  by_contra hge
  rw [getElem?_eq_none (by omega)] at hhead
  exact hne (head?_eq_none_iff.mp hhead.symm)

/-- Without straddling runs every entry with the target key stands in or after
the block a lookup starts in. -/
theorem key_ne_of_lt_startBlock (h : Layout t.toBuffers bs es blocks) (hsorted : SortedByKey es)
    (hstr : NoStraddle bs es) {target : Key} {j : Nat}
    (hj : j < startBlock bs es target blocks.length * bs) (he : es[j]? = some e) : e.key ≠ target := by
  have hspec := startBlock_spec hsorted target fun b hb => h.mul_lt_length hb
  have hle := partitionPoint_le (headNotAbove bs es target) (Nat.zero_le blocks.length)
  -- the start block is not the first one, and its head is not above the target
  have hpos : 0 < startBlock bs es target blocks.length := by
    rcases Nat.eq_zero_or_pos (startBlock bs es target blocks.length) with hz | hp
    · rw [hz, Nat.zero_mul] at hj
      omega
    · exact hp
  have hlt : startBlock bs es target blocks.length <
      partitionPoint (headNotAbove bs es target) 0 blocks.length := by
    rw [startBlock] at hpos ⊢
    omega
  have hlen := h.mul_lt_length (Nat.lt_of_lt_of_le hlt hle)
  have hhead := getElem?_eq_getElem hlen
  have hheadLe := (headNotAbove_iff hhead).mp (hspec.1 _ hlt)
  -- the entry just before that head is strictly below it
  have hprev := getElem?_eq_getElem
    (show startBlock bs es target blocks.length * bs - 1 < es.length by omega)
  have hne := hstr _ hpos _ _ hprev hhead
  have hprevLe := hsorted.le (Nat.sub_le _ 1) hprev hhead
  have hprevLt := lt_of_le_of_ne hprevLe hne
  have heLe := hsorted.le (show j ≤ startBlock bs es target blocks.length * bs - 1 by omega) he hprev
  exact ne_of_lt (lt_of_le_of_lt heLe (lt_of_lt_of_le hprevLt hheadLe))

section Lookup

variable (h : Layout t.toBuffers bs es blocks) (haddr : Addressable bs es)
  (hbs : t.blockSize = bs) (hcount : t.encodedCount = es.length)

include h haddr hbs hcount

theorem Layout.getId_none (hcodes : e.Codes term)
    (hnone : ∀ e' ∈ es, ¬(e'.key = e.key ∧ e'.aux = e.aux)) : t.getId term = .ok none := by
  rw [h.getId haddr hbs hcount hcodes, lookupFrom_eq_none]
  · rfl
  · intro e' he'
    exact hnone e' (mem_of_mem_drop he')

/-- Without straddling runs a term with an entry is found. -/
theorem Layout.getId_hit (hsorted : SortedByKey es) (hstr : NoStraddle bs es)
    (hcodes : e.Codes term) (he : e ∈ es)
    (huniq : ∀ e' ∈ es, e'.key = e.key → e'.aux = e.aux → e' = e) : t.getId term = .ok (some e.origId) := by
  have hmem : e ∈ es.drop (startBlock bs es e.key blocks.length * bs) := by
    rcases mem_iff_getElem?.mp he with ⟨j, hj⟩
    rcases Nat.lt_or_ge j (startBlock bs es e.key blocks.length * bs) with hlt | hge
    · exact absurd rfl (key_ne_of_lt_startBlock h hsorted hstr hlt hj)
    · apply mem_iff_getElem?.mpr
      refine ⟨j - startBlock bs es e.key blocks.length * bs, ?_⟩
      rw [getElem?_drop, Nat.add_sub_of_le hge, hj]
  rw [h.getId haddr hbs hcount hcodes, lookupFrom_eq_some (hsorted.drop) hmem]
  · rfl
  · intro e' he'
    exact huniq e' (mem_of_mem_drop he')

end Lookup

/-! ## Decoding an id -/

theorem writeRanks_of_notMem {id : Nat} (es : List Entry) (vals : List Nat) (r : Nat)
    (h : id ∉ es.map Entry.origId) : (writeRanks vals r es)[id]? = vals[id]? := by
  induction es generalizing vals r with
  | nil => rfl
  | cons e es ih =>
    rw [map_cons, mem_cons, not_or] at h
    rw [writeRanks, ih _ _ h.2, getElem?_set_ne (Ne.symm h.1)]

theorem writeRanks_getElem? (es : List Entry) (hnodup : (es.map Entry.origId).Nodup) :
    ∀ (vals : List Nat) (r i : Nat) (e : Entry), es[i]? = some e → e.origId < vals.length →
      (writeRanks vals r es)[e.origId]? = some (r + i) := by
  induction es with
  | nil =>
    intro vals r i e he
    simp at he
  | cons x es ih =>
    intro vals r i e he hlt
    rw [map_cons, nodup_cons] at hnodup
    rw [writeRanks]
    cases i with
    | zero =>
      have hx : x = e := by simpa using he
      rw [← hx] at hlt ⊢
      rw [writeRanks_of_notMem es _ _ hnodup.1, getElem?_set_self hlt, Nat.add_zero]
    | succ i =>
      have hrec := ih hnodup.2 (vals.set x.origId r) (r + 1) i e (by simpa using he) (by simpa using hlt)
      rw [hrec]
      congr 1
      omega

section Decode

variable (h : Layout (build bs es hw).toBuffers bs es blocks) (hfit : StartsFit bs es)
  (hpos : 0 < bs) (hnodup : (es.map Entry.origId).Nodup) (hhw : ∀ e ∈ es, e.origId < hw)

include h hfit hpos hnodup hhw

theorem Layout.locate {r : Nat} (he : es[r]? = some e) : index (build bs es hw).id2rank e.origId = .ok r ∧
      ∃ blk, blocks[r / bs]? = some blk ∧ blk[r % bs]? = some e ∧
        (build bs es hw).decodeBlock (r / bs) = .ok (blk.map Entry.parts) := by
  have hlt : r < es.length := (List.getElem?_eq_some_iff.mp he).1
  have hid := hhw e (mem_of_getElem? he)
  have hrank := writeRanks_getElem? es hnodup (List.replicate hw 0) 0 r e he (by simpa using hid)
  rcases h.blocked.getElem?_div_mod hpos hlt with ⟨blk, hblk, hoff⟩
  constructor
  · simp only [index, build]
    rw [hrank, Nat.zero_add]
  · exact ⟨blk, hblk, by rw [hoff, he], h.decodeBlock hfit hblk⟩

theorem Layout.decodeId (he : e ∈ es) (hcodes : e.Codes term) :
    (build bs es hw).decodeId e.origId = .ok (some (.ok term)) := by
  rcases mem_iff_getElem?.mp he with ⟨r, hr⟩
  rcases h.locate hfit hpos hnodup hhw hr with ⟨hrank, blk, hblk, hoff, hdec⟩
  have hid := hhw e he
  have hne : ¬(hw ≤ e.origId ∨ es.length = 0) := by
    have hlt : r < es.length := (List.getElem?_eq_some_iff.mp hr).1
    omega
  have hget : (blk.map Entry.parts)[r % bs]? = some e.parts := by
    rw [getElem?_map, hoff]
    rfl
  change (if hw ≤ e.origId ∨ es.length = 0 then _ else _) = _
  rw [if_neg hne, hrank, ok_bind]
  change ((build bs es hw).decodeBlock (r / bs) >>= _) = _
  rw [hdec, ok_bind]
  change (match (blk.map Entry.parts)[r % bs]? with | none => _ | some (tag, primary, aux) => _) = _
  rw [hget]
  simp [Entry.parts, hcodes.termFromParts]

end Decode

/-- A decoded pair belongs to the entry: its id, and the term it codes. -/
def PairOf (e : Entry) (pair : Nat × Except Oxigraph Term) : Prop :=
  pair.1 = e.origId ∧ ∃ term, e.Codes term ∧ pair.2 = .ok term

theorem decodePairs_spec (h : Layout t.toBuffers bs es blocks)
    (hall : ∀ e ∈ es, ∃ term, e.Codes term) (rest : List Entry) (blk : List Entry) :
    ∀ {r : Nat}, es.drop r = blk ++ rest →
      ∃ pairs, t.decodePairs r (blk.map Entry.parts) = .ok pairs ∧ List.Forall₂ PairOf blk pairs := by
  induction blk with
  | nil =>
    intro r hdrop
    exact ⟨[], rfl, .nil⟩
  | cons e blk ih =>
    intro r hdrop
    have hhead : es[r]? = some e := by
      have h0 : es[r]? = (es.drop r)[0]? := by simp
      rw [h0, hdrop]
      rfl
    have htail : es.drop (r + 1) = blk ++ rest := by
      rw [← drop_drop, hdrop]
      rfl
    rcases hall e (mem_of_getElem? hhead) with ⟨term, hcodes⟩
    rcases ih htail with ⟨pairs, hpairs, hforall⟩
    refine ⟨(e.origId, .ok term) :: pairs, ?_, .cons ⟨rfl, term, hcodes, rfl⟩ hforall⟩
    rw [map_cons, Entry.parts, CompactedTier.decodePairs, index_rank2id h hhead, ok_bind,
      hcodes.termFromParts, ok_bind, hpairs]
    rfl

/-- Decoding the block of an id: every pair belongs to an entry, and the one
asked for is among them. -/
theorem Layout.decodeBlockForId (h : Layout (build bs es hw).toBuffers bs es blocks)
    (hfit : StartsFit bs es) (hpos : 0 < bs) (hnodup : (es.map Entry.origId).Nodup)
    (hhw : ∀ e ∈ es, e.origId < hw) (hall : ∀ e ∈ es, ∃ term, e.Codes term) (he : e ∈ es) :
    ∃ pairs, (build bs es hw).decodeBlockForId e.origId = .ok (some pairs) ∧
      (∀ pair ∈ pairs, ∃ e' ∈ es, PairOf e' pair) ∧ ∃ pair ∈ pairs, PairOf e pair := by
  rcases mem_iff_getElem?.mp he with ⟨r, hr⟩
  rcases h.locate hfit hpos hnodup hhw hr with ⟨hrank, blk, hblk, hoff, hdec⟩
  have hlt : r / bs < blocks.length := (List.getElem?_eq_some_iff.mp hblk).1
  have hget : blocks[r / bs] = blk := (List.getElem?_eq_some_iff.mp hblk).2
  have hdrop : es.drop (r / bs * bs) = blk ++ (blocks.drop (r / bs + 1)).flatten := by
    rw [← h.blocked.flatten_drop hlt, drop_eq_getElem_cons hlt, hget, flatten_cons]
  rcases decodePairs_spec h hall _ _ hdrop with ⟨pairs, hpairs, hforall⟩
  have hne : ¬(hw ≤ e.origId ∨ es.length = 0) := by
    have hr' : r < es.length := (List.getElem?_eq_some_iff.mp hr).1
    have hid := hhw e he
    omega
  refine ⟨pairs, ?_, ?_, ?_⟩
  · rw [CompactedTier.decodeBlockForId]
    change (if hw ≤ e.origId ∨ es.length = 0 then _ else _) = _
    rw [if_neg hne, hrank, ok_bind]
    change ((build bs es hw).decodeBlock (r / bs) >>= _) = _
    rw [hdec, ok_bind]
    change ((build bs es hw).decodePairs (r / bs * bs) _ >>= _) = _
    rw [hpairs]
    rfl
  · intro pair hpair
    rcases mem_iff_getElem.mp hpair with ⟨i, hi, rfl⟩
    have hlen := hforall.length_eq
    refine ⟨blk[i], ?_, hforall.get (by omega) hi⟩
    have hmem : blk[i] ∈ es.drop (r / bs * bs) := by
      rw [hdrop]
      exact mem_append_left _ (getElem_mem _)
    exact mem_of_mem_drop hmem
  · rcases List.getElem?_eq_some_iff.mp hoff with ⟨hi, hei⟩
    have hlen := hforall.length_eq
    refine ⟨pairs[r % bs], getElem_mem _, ?_⟩
    have hpair := hforall.get hi (by omega)
    simpa [hei] using hpair

/-- A buffer that 32 bits address has its block starts in 32 bits. -/
theorem Layout.startsFit (h : Layout t.toBuffers bs es blocks) (hpos : 0 < bs)
    (hbuf : t.buf.length < 2 ^ 32) : StartsFit bs es := by
  intro blocks' hblocks x hx
  rw [hblocks.eq_chunks hpos, ← h.blocked.eq_chunks hpos] at hx
  have hle := le_of_mem_offsets hx
  rw [← h.buf] at hle
  omega

/-- Every entry decodes to the term it was made of, alone and with its block,
whatever the prefixes that its block shares. -/
theorem decode_inverts_build (terms : Nat → Term) (hpos : 0 < bs)
    (hnodup : (es.map Entry.origId).Nodup) (hhw : ∀ e ∈ es, e.origId < hw)
    (hcodes : ∀ e ∈ es, e.Codes (terms e.origId)) (hbuf : (build bs es hw).buf.length < 2 ^ 32)
    {e : Entry} (he : e ∈ es) :
    (build bs es hw).decodeId e.origId = .ok (some (.ok (terms e.origId))) ∧
      ∃ pairs, (build bs es hw).decodeBlockForId e.origId = .ok (some pairs) ∧
        (e.origId, .ok (terms e.origId)) ∈ pairs ∧ ∀ pair ∈ pairs, pair.2 = .ok (terms pair.1) := by
  rcases exists_layout hpos es hw with ⟨blocks, h⟩
  have hfit := h.startsFit hpos hbuf
  have hpair : ∀ e ∈ es, ∀ pair, PairOf e pair → pair = (e.origId, .ok (terms e.origId)) := by
    rintro e he ⟨id, res⟩ ⟨hid, term, hterm, hres⟩
    exact Prod.ext hid (hres.trans (by rw [hterm.eq_of_parts (hcodes e he) rfl rfl]))
  rcases h.decodeBlockForId hfit hpos hnodup hhw (fun e he => ⟨_, hcodes e he⟩) he with
    ⟨pairs, hdec, hpairs, pair, hmem, hof⟩
  refine ⟨h.decodeId hfit hpos hnodup hhw he (hcodes e he), pairs, hdec, hpair e he pair hof ▸ hmem, ?_⟩
  intro pair hmem
  rcases hpairs pair hmem with ⟨e', he', hof'⟩
  rw [hpair e' he' pair hof']

/-- The second literal shares half of a character with the first. -/
theorem decode_inverts_build_half_character :
    (build 2 [⟨2, utf8 "è", [], 0⟩, ⟨2, utf8 "é", [], 1⟩] 2).decodeId 1 =
      .ok (some (.ok (.literal (.string "é")))) :=
  (decode_inverts_build (fun id => .literal (.string (if id = 0 then "è" else "é"))) (by decide)
    (by decide) (by decide)
    (forall_mem_cons.mpr ⟨⟨rfl, rfl⟩, forall_mem_singleton.mpr ⟨rfl, rfl⟩⟩) (by decide +kernel)
    (mem_cons_of_mem _ (mem_singleton_self _))).1

end Nova.DictCompact
