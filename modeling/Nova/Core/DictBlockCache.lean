import Nova.Core.DictCompact
import Nova.Lib.Lru
import Nova.Lib.Machine

/-!
# The block-cached dictionary tier

A compacted tier whose Front-Coded buffer stays compressed: the buffer is cut into
blocks of its own, each compressed by itself, and a bounded cache keeps the blocks
that were decompressed last. Front-coded blocks and compressed blocks have
different sizes, so that a front-coded block is put together from any number of
compressed ones.

`cached_answers_alike`: whatever it is asked and whatever it has cached, the tier
answers as the owned tier it was made of, as long as every front-coded block of
that tier starts below 2^32; `cached_panics_past_u32` is a tier where one does not.

The compressor is a parameter. All that is asked of it is that a block of at most
the block size comes back as it was.
-/

namespace Nova

open Nova.Lib List Nat

/-- `lz4_flex::block::{compress_prepend_size, decompress_size_prepended}`. The error
is the text of the decompressor's error. -/
structure Lz4 where
  compress : Bytes → Bytes
  decompress : Bytes → Except String Bytes

/-- Blocks of at most `blockSize` bytes come back. -/
def Lz4.RoundTrips (codec : Lz4) (blockSize : Nat) : Prop :=
  ∀ b, b.length ≤ blockSize → codec.decompress (codec.compress b) = .ok b

namespace DictCompact

/-! ## The tier -/

/-- A compacted tier without its buffer. -/
structure CompactedTierIndex where
  blockSize : Nat
  highWater : Nat
  encodedCount : Nat
  bufLen : Nat
  blockStarts : List Nat
  blockTags : List UInt8
  keyFlat : Bytes
  keyOffsets : List Nat
  rank2id : List Nat
  id2rank : List Nat
  rank2idBitWidth : Nat
  id2rankBitWidth : Nat
deriving DecidableEq

namespace CompactedTierIndex

def fromOwnedTier (tier : CompactedTier) : CompactedTierIndex where
  blockSize := tier.blockSize
  highWater := tier.highWater
  encodedCount := tier.encodedCount
  bufLen := tier.buf.length
  blockStarts := tier.blockStarts
  blockTags := tier.blockTags
  keyFlat := tier.keyFlat
  keyOffsets := tier.keyOffsets
  rank2id := tier.rank2id
  id2rank := tier.id2rank
  rank2idBitWidth := tier.rank2idBitWidth
  id2rankBitWidth := tier.id2rankBitWidth

variable (x : CompactedTierIndex)

def numFcBlocks : Nat := x.blockStarts.length

def blockKeyBytes (blockIdx : Nat) : Except Panic Bytes := do
  let start ← index x.keyOffsets blockIdx
  let stop := (x.keyOffsets[blockIdx + 1]?).getD x.keyFlat.length
  if start ≤ stop ∧ stop ≤ x.keyFlat.length then .ok (slice x.keyFlat start (stop - start))
  else .error .outOfBounds

def fcBlockRange (fcBlockIdx : Nat) : Except Panic (Nat × Nat) := do
  let start ← index x.blockStarts fcBlockIdx
  return (start, (x.blockStarts[fcBlockIdx + 1]?).getD x.bufLen)

/-- `is_le` of the binary search. -/
def headLe (target : Key) (mid : Nat) : Except Panic Bool := do
  let midTag ← index x.blockTags mid
  let midKey ← x.blockKeyBytes mid
  return decide (toLex (midTag, midKey) ≤ target)

end CompactedTierIndex

/-- The compressed buffer: `offsets` are the starts of its blocks in `data`, and the
end of the last one. -/
structure Lz4BufBlocks where
  blockSize : Nat
  rawLen : Nat
  offsets : List Nat
  data : Bytes
deriving DecidableEq

namespace Lz4BufBlocks

/-- The blocks one after another, and where they start. -/
def ofBlocks (blockSize rawLen : Nat) (compressed : List Bytes) : Lz4BufBlocks where
  blockSize := blockSize
  rawLen := rawLen
  offsets := Lib.offsets 0 compressed ++ [compressed.flatten.length]
  data := compressed.flatten

def compress (codec : Lz4) (raw : Bytes) (blockSize : Nat) : Except Oxigraph Lz4BufBlocks :=
  if blockSize = 0 then .error (.storage "dict block cache: block_size must be non-zero")
  else .ok (ofBlocks blockSize raw.length ((chunks blockSize raw).map codec.compress))

variable (codec : Lz4) (z : Lz4BufBlocks)

def nBlocks : Nat := z.offsets.length - 1

def decompressBlock (idx : Nat) : Except Panic (Except Oxigraph Bytes) :=
  if z.nBlocks ≤ idx then
    .ok (.error (.storage s!"dict block cache: lz4 block {idx} out of range (n={z.nBlocks})"))
  else do
    let start ← index z.offsets idx
    let stop ← index z.offsets (idx + 1)
    if start ≤ stop ∧ stop ≤ z.data.length then
      match codec.decompress (slice z.data start (stop - start)) with
      | .ok raw => return .ok raw
      | .error e =>
        return .error (.storage s!"dict block cache: decompress lz4 block {idx} failed: {e}")
    else throw .outOfBounds

def blockForOffset (pos : Nat) : Option Nat :=
  if z.rawLen = 0 ∨ z.rawLen ≤ pos then none else some (pos / z.blockSize)

end Lz4BufBlocks

structure BlockCachedCompactedTier where
  index : CompactedTierIndex
  lz4 : Lz4BufBlocks
  cache : Lru Nat Bytes

namespace BlockCachedCompactedTier

/-- A result and the tier, whose cache has changed. -/
abbrev Outcome (α : Type) := Except Panic (α × BlockCachedCompactedTier)

/-- `x?` for a `Result`. -/
def andThen {α β : Type} (x : Outcome (Except Oxigraph α))
    (k : α → BlockCachedCompactedTier → Outcome (Except Oxigraph β)) : Outcome (Except Oxigraph β) :=
  match x with
  | .error p => .error p
  | .ok (.error e, t) => .ok (.error e, t)
  | .ok (.ok a, t) => k a t

def new (index : CompactedTierIndex) (lz4 : Lz4BufBlocks) (cacheCapacity : Nat) :
    Except Oxigraph BlockCachedCompactedTier :=
  if index.bufLen ≠ lz4.rawLen then
    .error (.storage
      s!"dict block cache: index buf_len {index.bufLen} != lz4 raw_len {lz4.rawLen}")
  else .ok ⟨index, lz4, ⟨max cacheCapacity 1, []⟩⟩

def fromOwnedTier (codec : Lz4) (tier : CompactedTier) (lz4BlockSize cacheCapacity : Nat) :
    Except Oxigraph BlockCachedCompactedTier := do
  let lz4 ← Lz4BufBlocks.compress codec tier.buf lz4BlockSize
  new (.fromOwnedTier tier) lz4 cacheCapacity

variable (codec : Lz4)

def getLz4Block (t : BlockCachedCompactedTier) (idx : Nat) : Outcome (Except Oxigraph Bytes) :=
  match t.cache.get idx with
  | (some hit, cache) => .ok (.ok hit, { t with cache })
  | (none, cache) =>
    match t.lz4.decompressBlock codec idx with
    | .error p => .error p
    | .ok (.error e) => .ok (.error e, { t with cache })
    | .ok (.ok raw) => .ok (.ok raw, { t with cache := cache.put idx raw })

/-- `for b in first..=last` of `raw_slice`, over the blocks left. -/
def copyBlocks (start stop : Nat) : BlockCachedCompactedTier → List Nat → Outcome (Except Oxigraph Bytes)
  | t, [] => .ok (.ok [], t)
  | t, b :: bs =>
    andThen (getLz4Block codec t b) fun block t =>
      let blockRawStart := b * t.lz4.blockSize
      let localStart := start - blockRawStart
      let localEnd := min (stop - blockRawStart) block.length
      if localStart ≤ localEnd then
        andThen (copyBlocks start stop t bs) fun rest t =>
          .ok (.ok (slice block localStart (localEnd - localStart) ++ rest), t)
      else .error .outOfBounds

def rawSlice (t : BlockCachedCompactedTier) (start stop : Nat) : Outcome (Except Oxigraph Bytes) :=
  if stop < start ∨ t.index.bufLen < stop then
    .ok (.error (.storage
      s!"dict block cache: bad range {start}..{stop} (buf_len={t.index.bufLen})"), t)
  else if start = stop then .ok (.ok [], t)
  else
    match t.lz4.blockForOffset start with
    | none => .ok (.error (.storage "dict block cache: start OOB"), t)
    | some first =>
      match t.lz4.blockForOffset (stop - 1) with
      | none => .ok (.error (.storage "dict block cache: end OOB"), t)
      | some last => copyBlocks codec start stop t (List.range' first (last + 1 - first))

def decodeFcBlock (t : BlockCachedCompactedTier) (fcBlockIdx : Nat) :
    Outcome (Except Oxigraph (List (UInt8 × Bytes × Bytes))) :=
  match t.index.fcBlockRange fcBlockIdx with
  | .error p => .error p
  | .ok (start, stop) =>
    andThen (rawSlice codec t start stop) fun buf t =>
      match decodeLoop buf buf.length 0 [] with
      | .error p => .error p
      | .ok out => .ok (.ok out, t)

/-- `for b in blk..num_blocks` of `get_id`; a block that does not decode ends the
lookup with `None`. -/
def scanBlocks (target : Key) (aux : Bytes) :
    BlockCachedCompactedTier → Nat → List Nat → Outcome (Option Nat)
  | t, _, [] => .ok (none, t)
  | t, rank, b :: bs =>
    match decodeFcBlock codec t b with
    | .error p => .error p
    | .ok (.error _, t) => .ok (none, t)
    | .ok (.ok decoded, t) =>
      match CompactedTier.scanBlock target aux rank decoded with
      | .passed => .ok (none, t)
      | .found r =>
        match DictCompact.index t.index.rank2id r with
        | .error p => .error p
        | .ok id => .ok (some id, t)
      | .more r => scanBlocks target aux t r bs

def getId (t : BlockCachedCompactedTier) (term : Term) :
    Except Panic (Option Nat × BlockCachedCompactedTier) :=
  if t.index.encodedCount = 0 then .ok (none, t)
  else do
    let (tag, primary) ← termSortKey term
    let aux ← termAuxBytes term
    let target : Key := toLex (tag, primary)
    let lo ← partitionPointM (t.index.headLe target) 0 t.index.numFcBlocks
    let blk := lo - 1
    scanBlocks codec target aux t (blk * t.index.blockSize)
      (List.range' blk (t.index.numFcBlocks - blk))

def decodeId (t : BlockCachedCompactedTier) (id : Nat) :
    Except Panic (Option (Except Oxigraph Term) × BlockCachedCompactedTier) :=
  if t.index.highWater ≤ id ∨ t.index.encodedCount = 0 then .ok (none, t)
  else do
    let rank ← DictCompact.index t.index.id2rank id
    let block := rank / t.index.blockSize
    let offset := rank % t.index.blockSize
    match ← decodeFcBlock codec t block with
    | (.error e, t) => return (some (.error e), t)
    | (.ok decoded, t) =>
      match decoded[offset]? with
      | none => return (none, t)
      | some (tag, primary, aux) => return (some (← termFromParts tag primary aux), t)

/-- The pairs of `decode_block_for_id`, from rank `rank` on. -/
def decodePairs (x : CompactedTierIndex) : Nat → List (UInt8 × Bytes × Bytes) →
    Except Panic (List (Nat × Except Oxigraph Term))
  | _, [] => .ok []
  | rank, (tag, primary, aux) :: rest => do
    let origId ← DictCompact.index x.rank2id rank
    let term ← termFromParts tag primary aux
    let out ← decodePairs x (rank + 1) rest
    return (origId, term) :: out

def decodeBlockForId (t : BlockCachedCompactedTier) (id : Nat) :
    Except Panic (Option (List (Nat × Except Oxigraph Term)) × BlockCachedCompactedTier) :=
  if t.index.highWater ≤ id ∨ t.index.encodedCount = 0 then .ok (none, t)
  else do
    let rank ← DictCompact.index t.index.id2rank id
    let block := rank / t.index.blockSize
    match ← decodeFcBlock codec t block with
    | (.error e, t) => return (some [(id, .error e)], t)
    | (.ok decoded, t) => return (some (← decodePairs t.index (block * t.index.blockSize) decoded), t)

/-! ## Reading through the cache -/

variable {codec}

/-- The tier is the compressed form of `tier`, and what it has cached is true. -/
structure Serves (codec : Lz4) (blockSize : Nat) (tier : CompactedTier)
    (t : BlockCachedCompactedTier) : Prop where
  index : t.index = .fromOwnedTier tier
  lz4 : t.lz4 = .ofBlocks blockSize tier.buf.length ((chunks blockSize tier.buf).map codec.compress)
  cache : ∀ e ∈ t.cache.entries, (chunks blockSize tier.buf)[e.1]? = some e.2

/-- The answer of the cached tier is that of the owned one, and it still serves. -/
def Agrees {α : Type} (codec : Lz4) (blockSize : Nat) (tier : CompactedTier) (x : Except Panic α)
    (y : Except Panic (α × BlockCachedCompactedTier)) : Prop :=
  match x with
  | .ok a => ∃ t', y = .ok (a, t') ∧ Serves codec blockSize tier t'
  | .error p => y = .error p

variable {blockSize : Nat} {tier : CompactedTier} {t : BlockCachedCompactedTier}

/-- Reading one piece of a concatenation through its offsets, the end among them. -/
theorem offsets_end_bounds (pieces : List Bytes) {b : Nat} {p : Bytes} (hb : pieces[b]? = some p) :
    DictCompact.index (offsets 0 pieces ++ [pieces.flatten.length]) b =
        .ok (pieces.take b).flatten.length ∧
      DictCompact.index (offsets 0 pieces ++ [pieces.flatten.length]) (b + 1) =
        .ok ((pieces.take b).flatten.length + p.length) ∧
      (pieces.take b).flatten.length + p.length ≤ pieces.flatten.length := by
  have hlt : b < pieces.length := (List.getElem?_eq_some_iff.mp hb).1
  refine ⟨?_, ?_, ?_⟩
  · rw [DictCompact.index, getElem?_append_left (by simpa using hlt), getElem?_offsets, if_pos hlt,
      zero_add]
  · have hnext := getD_offsets_succ 0 pieces hb
    rw [zero_add, zero_add] at hnext
    rw [DictCompact.index]
    by_cases hmore : b + 1 < pieces.length
    · rw [getElem?_append_left (by simpa using hmore)]
      rw [getElem?_offsets, if_pos hmore, zero_add, Option.getD_some] at hnext
      rw [getElem?_offsets, if_pos hmore, zero_add, hnext]
    · have hlast : b + 1 = pieces.length := by omega
      rw [getElem?_offsets, if_neg hmore, Option.getD_none] at hnext
      rw [getElem?_append_right (by simp [hlast]), hnext]
      simp [hlast]
  · have hsplit := congrArg List.length (flatten_split pieces hb)
    rw [length_append, length_append] at hsplit
    omega

theorem decompressBlock_spec (hcodec : codec.RoundTrips blockSize) (hbs : 0 < blockSize) {raw : Bytes}
    {idx : Nat} {blk : Bytes} (hidx : (chunks blockSize raw)[idx]? = some blk) :
    (Lz4BufBlocks.ofBlocks blockSize raw.length ((chunks blockSize raw).map codec.compress)).decompressBlock
      codec idx = .ok (.ok blk) := by
  have hblocked := Blocked.chunks_blocked hbs raw
  have hround := hcodec blk (hblocked.le blk (mem_of_getElem? hidx))
  generalize hc : (chunks blockSize raw).map codec.compress = compressed
  have hpiece : compressed[idx]? = some (codec.compress blk) := by
    rw [← hc, getElem?_map, hidx]
    rfl
  have hlen : idx < compressed.length := (List.getElem?_eq_some_iff.mp hpiece).1
  rcases offsets_end_bounds compressed hpiece with ⟨hstart, hstop, hbound⟩
  rw [Lz4BufBlocks.decompressBlock, Lz4BufBlocks.ofBlocks, if_neg (by simp [Lz4BufBlocks.nBlocks]; omega)]
  simp only [hstart, hstop, ok_bind]
  rw [if_pos ⟨by omega, hbound⟩, Nat.add_sub_cancel_left, slice_flatten compressed hpiece, hround]
  rfl


theorem Serves.getLz4Block (h : Serves codec blockSize tier t) (hcodec : codec.RoundTrips blockSize)
    (hbs : 0 < blockSize) {idx : Nat} {blk : Bytes}
    (hidx : (chunks blockSize tier.buf)[idx]? = some blk) :
    ∃ t', getLz4Block codec t idx = .ok (.ok blk, t') ∧ Serves codec blockSize tier t' := by
  have hspec := t.cache.get_spec idx
  unfold BlockCachedCompactedTier.getLz4Block
  rcases hget : t.cache.get idx with ⟨hit, cache⟩
  rw [hget] at hspec
  have hcache : ∀ e ∈ cache.entries, (chunks blockSize tier.buf)[e.1]? = some e.2 :=
    fun e he => h.cache e (hspec.2 e he)
  cases hit with
  | some b =>
    have hb := h.cache _ (hspec.1 b rfl)
    rw [hidx] at hb
    cases hb
    exact ⟨_, rfl, h.index, h.lz4, hcache⟩
  | none =>
    simp only [h.lz4, decompressBlock_spec hcodec hbs hidx]
    refine ⟨_, rfl, h.index, rfl, ?_⟩
    intro e he
    rcases Lru.mem_put he with rfl | he
    · exact hidx
    · exact hcache e he

theorem Serves.copyBlocks (hcodec : codec.RoundTrips blockSize) (hbs : 0 < blockSize) {start stop : Nat}
    (hlt : start < stop) (hle : stop ≤ tier.buf.length) (count : Nat) :
    ∀ {t : BlockCachedCompactedTier} {b : Nat}, Serves codec blockSize tier t → start / blockSize ≤ b →
      b + count = (stop - 1) / blockSize + 1 →
      ∃ t', copyBlocks codec start stop t (List.range' b count) =
        .ok (.ok ((List.range' b count).flatMap fun b => Blocked.part blockSize start stop b
          ((tier.buf.drop (b * blockSize)).take blockSize)), t') ∧ Serves codec blockSize tier t' := by
  induction count with
  | zero => exact fun h _ _ => ⟨_, rfl, h⟩
  | succ count ih =>
    intro t b h hfirst hb
    have hblocked := Blocked.chunks_blocked hbs tier.buf
    have hlast : b * blockSize < stop := by
      have hdiv : (stop - 1) / blockSize * blockSize ≤ stop - 1 := div_mul_le_self _ _
      have hmul : b * blockSize ≤ (stop - 1) / blockSize * blockSize :=
        mul_le_mul_right blockSize (by omega)
      omega
    have hin : b < (chunks blockSize tier.buf).length := hblocked.lt_length_iff.mpr (by omega)
    have hidx := getElem?_eq_getElem hin
    rcases h.getLz4Block hcodec hbs hidx with ⟨t₁, hget, h₁⟩
    rcases ih h₁ (b := b + 1) (by omega) (by omega) with ⟨t₂, hrest, h₂⟩
    refine ⟨t₂, ?_, h₂⟩
    have hsize : t₁.lz4.blockSize = blockSize := by rw [h₁.lz4]; rfl
    rw [hblocked.getElem?_eq hidx] at hget
    have hlocal : start - b * blockSize ≤ min (stop - b * blockSize)
        ((tier.buf.drop (b * blockSize)).take blockSize).length := by
      have hnext : start < (b + 1) * blockSize := by
        have hdiv := lt_div_mul_add hbs (a := start)
        have hmul : start / blockSize * blockSize ≤ b * blockSize := mul_le_mul_right blockSize hfirst
        rw [succ_mul]
        omega
      rw [succ_mul] at hnext
      rw [List.length_take, length_drop]
      omega
    rw [range'_succ, BlockCachedCompactedTier.copyBlocks, hget]
    simp only [andThen, hsize, hrest]
    rw [if_pos hlocal, flatMap_cons]
    rfl

theorem Serves.rawSlice (h : Serves codec blockSize tier t) (hcodec : codec.RoundTrips blockSize)
    (hbs : 0 < blockSize) {start stop : Nat} (hlt : start ≤ stop) (hle : stop ≤ tier.buf.length) :
    ∃ t', rawSlice codec t start stop = .ok (.ok (slice tier.buf start (stop - start)), t') ∧
      Serves codec blockSize tier t' := by
  have hlen : t.index.bufLen = tier.buf.length := by rw [h.index]; rfl
  have hraw : t.lz4.rawLen = tier.buf.length := by rw [h.lz4]; rfl
  have hsize : t.lz4.blockSize = blockSize := by rw [h.lz4]; rfl
  rw [BlockCachedCompactedTier.rawSlice, hlen, if_neg (by omega)]
  by_cases heq : start = stop
  · rw [if_pos heq, heq, Nat.sub_self]
    refine ⟨t, ?_, h⟩
    simp [slice]
  · rw [if_neg heq]
    have hfirst : t.lz4.blockForOffset start = some (start / blockSize) := by
      rw [Lz4BufBlocks.blockForOffset, hraw, hsize, if_neg (by omega)]
    have hlast : t.lz4.blockForOffset (stop - 1) = some ((stop - 1) / blockSize) := by
      rw [Lz4BufBlocks.blockForOffset, hraw, hsize, if_neg (by omega)]
    have hmono : start / blockSize ≤ (stop - 1) / blockSize := Nat.div_le_div_right (by omega)
    have hcount : start / blockSize + ((stop - 1) / blockSize + 1 - start / blockSize) =
        (stop - 1) / blockSize + 1 := by omega
    rcases Serves.copyBlocks hcodec hbs (by omega) hle _ h (Nat.le_refl _) hcount with ⟨t', hr, h'⟩
    refine ⟨t', ?_, h'⟩
    simp only [hfirst, hlast]
    rw [hr, Blocked.flatMap_part hbs (by omega) hle _ (Nat.le_refl _) hcount,
      Nat.max_eq_left (Nat.div_mul_le_self start blockSize)]

/-! ## The two tiers agree -/

section

variable {bs : Nat} {es : List Entry} {blocks : List (List Entry)}
variable (hcodec : codec.RoundTrips blockSize) (hbs : 0 < blockSize)
variable (hlayout : Layout tier.toBuffers bs es blocks) (hfit : StartsFit bs es)
include hcodec hbs hlayout hfit

theorem Serves.decodeFcBlock (h : Serves codec blockSize tier t) (b : Nat) :
    match tier.decodeBlock b with
    | .ok out => ∃ t', decodeFcBlock codec t b = .ok (.ok out, t') ∧ Serves codec blockSize tier t'
    | .error p => decodeFcBlock codec t b = .error p := by
  have hstarts : t.index.blockStarts = tier.blockStarts := by rw [h.index]; rfl
  have hlen : t.index.bufLen = tier.buf.length := by rw [h.index]; rfl
  cases hb : blocks[b]? with
  | none =>
    -- there is no such block in either tier
    have hout : DictCompact.index tier.blockStarts b = .error .outOfBounds := by
      rw [DictCompact.index, hlayout.blockStarts]
      have hge : blocks.length ≤ b := List.getElem?_eq_none_iff.mp hb
      rw [getElem?_eq_none (by simpa using hge)]
    rw [CompactedTier.decodeBlock, hout]
    rw [BlockCachedCompactedTier.decodeFcBlock, CompactedTierIndex.fcBlockRange, hstarts, hout]
    rfl
  | some blk =>
    rcases hlayout.block_bounds hfit hb with ⟨hstart, hstop, hbuf⟩
    rw [hlayout.decodeBlock hfit hb]
    have hrange : t.index.fcBlockRange b = .ok (((blocks.map encodeBlock).take b).flatten.length,
        ((blocks.map encodeBlock).take b).flatten.length + (encodeBlock blk).length) := by
      rw [CompactedTierIndex.fcBlockRange, hstarts, hstart, ok_bind, hlen, hstop]
      rfl
    have hbound : ((blocks.map encodeBlock).take b).flatten.length + (encodeBlock blk).length ≤
        tier.buf.length := by
      rw [hbuf, length_append, length_append]
      omega
    rcases h.rawSlice hcodec hbs (Nat.le_add_right _ _) hbound with ⟨t', hr, h'⟩
    refine ⟨t', ?_, h'⟩
    have hslice : slice tier.buf ((blocks.map encodeBlock).take b).flatten.length
        (encodeBlock blk).length = encodeBlock blk := by
      rw [hbuf]
      exact slice_middle _ _ _
    have hloop := decodeLoop_encodeChain blk [] [] []
    rw [nil_append, append_nil, length_nil, Nat.zero_add] at hloop
    rw [BlockCachedCompactedTier.decodeFcBlock, hrange]
    simp only [hr, andThen, Nat.add_sub_cancel_left, hslice]
    rw [encodeBlock, hloop]

theorem Serves.scanBlocks (target : Key) (aux : Bytes) (bs' : List Nat) :
    ∀ {t : BlockCachedCompactedTier} {rank : Nat}, Serves codec blockSize tier t →
      Agrees codec blockSize tier (tier.scanBlocks target aux rank bs')
        (scanBlocks codec target aux t rank bs') := by
  induction bs' with
  | nil => exact fun h => ⟨_, rfl, h⟩
  | cons b bs' ih =>
    intro t rank h
    have hdecode := h.decodeFcBlock hcodec hbs hlayout hfit b
    rw [CompactedTier.scanBlocks, BlockCachedCompactedTier.scanBlocks]
    cases hd : tier.decodeBlock b with
    | error p =>
      rw [hd] at hdecode
      rw [hdecode]
      rfl
    | ok decoded =>
      rw [hd] at hdecode
      rcases hdecode with ⟨t', hr, h'⟩
      simp only [hr, ok_bind]
      cases hscan : CompactedTier.scanBlock target aux rank decoded with
      | passed => exact ⟨_, rfl, h'⟩
      | found r =>
        have hids : t'.index.rank2id = tier.rank2id := by rw [h'.index]; rfl
        simp only [hids]
        cases hi : DictCompact.index tier.rank2id r with
        | error p => rfl
        | ok id => exact ⟨_, rfl, h'⟩
      | more r => exact ih h'

theorem Serves.getId (h : Serves codec blockSize tier t) (term : Term) :
    Agrees codec blockSize tier (tier.getId term) (getId codec t term) := by
  have hcount : t.index.encodedCount = tier.encodedCount := by rw [h.index]; rfl
  have hnum : t.index.numFcBlocks = tier.numBlocks := by rw [h.index]; rfl
  have hsize : t.index.blockSize = tier.blockSize := by rw [h.index]; rfl
  have hhead : t.index.headLe = tier.headLe := by rw [h.index]; rfl
  rw [CompactedTier.getId, BlockCachedCompactedTier.getId, hcount]
  by_cases hzero : tier.encodedCount = 0
  · rw [if_pos hzero, if_pos hzero]
    exact ⟨t, rfl, h⟩
  · rw [if_neg hzero, if_neg hzero, hnum, hsize, hhead]
    cases hkey : termSortKey term with
    | error p => rfl
    | ok key =>
      cases haux : termAuxBytes term with
      | error p => rfl
      | ok aux =>
        simp only [ok_bind]
        cases hlo : partitionPointM (tier.headLe (toLex (key.1, key.2))) 0 tier.numBlocks with
        | error p => rfl
        | ok lo => exact Serves.scanBlocks hcodec hbs hlayout hfit _ _ _ h

theorem Serves.decodeId (h : Serves codec blockSize tier t) (id : Nat) :
    Agrees codec blockSize tier (tier.decodeId id) (decodeId codec t id) := by
  have hcount : t.index.encodedCount = tier.encodedCount := by rw [h.index]; rfl
  have hhigh : t.index.highWater = tier.highWater := by rw [h.index]; rfl
  have hsize : t.index.blockSize = tier.blockSize := by rw [h.index]; rfl
  have hranks : t.index.id2rank = tier.id2rank := by rw [h.index]; rfl
  rw [CompactedTier.decodeId, BlockCachedCompactedTier.decodeId, hcount, hhigh, hsize, hranks]
  by_cases hnone : tier.highWater ≤ id ∨ tier.encodedCount = 0
  · rw [if_pos hnone, if_pos hnone]
    exact ⟨t, rfl, h⟩
  · rw [if_neg hnone, if_neg hnone]
    cases hrank : DictCompact.index tier.id2rank id with
    | error p => rfl
    | ok rank =>
      simp only [ok_bind]
      have hdecode := h.decodeFcBlock hcodec hbs hlayout hfit (rank / tier.blockSize)
      cases hd : tier.decodeBlock (rank / tier.blockSize) with
      | error p =>
        rw [hd] at hdecode
        rw [hdecode]
        rfl
      | ok decoded =>
        rw [hd] at hdecode
        rcases hdecode with ⟨t', hr, h'⟩
        simp only [hr, ok_bind]
        cases hoff : decoded[rank % tier.blockSize]? with
        | none => exact ⟨_, rfl, h'⟩
        | some e =>
          rcases e with ⟨tag, primary, aux⟩
          simp only
          cases hterm : termFromParts tag primary aux with
          | error p => rfl
          | ok r => exact ⟨_, rfl, h'⟩

omit hcodec hbs hlayout hfit in
theorem decodePairs_eq (tier : CompactedTier) (decoded : List (UInt8 × Bytes × Bytes)) :
    ∀ rank, decodePairs (.fromOwnedTier tier) rank decoded = tier.decodePairs rank decoded := by
  induction decoded with
  | nil => exact fun _ => rfl
  | cons e decoded ih =>
    intro rank
    rcases e with ⟨tag, primary, aux⟩
    rw [decodePairs, CompactedTier.decodePairs, ih]
    rfl

theorem Serves.decodeBlockForId (h : Serves codec blockSize tier t) (id : Nat) :
    Agrees codec blockSize tier (tier.decodeBlockForId id) (decodeBlockForId codec t id) := by
  have hcount : t.index.encodedCount = tier.encodedCount := by rw [h.index]; rfl
  have hhigh : t.index.highWater = tier.highWater := by rw [h.index]; rfl
  have hsize : t.index.blockSize = tier.blockSize := by rw [h.index]; rfl
  have hranks : t.index.id2rank = tier.id2rank := by rw [h.index]; rfl
  rw [CompactedTier.decodeBlockForId, BlockCachedCompactedTier.decodeBlockForId, hcount, hhigh, hsize,
    hranks]
  by_cases hnone : tier.highWater ≤ id ∨ tier.encodedCount = 0
  · rw [if_pos hnone, if_pos hnone]
    exact ⟨t, rfl, h⟩
  · rw [if_neg hnone, if_neg hnone]
    cases hrank : DictCompact.index tier.id2rank id with
    | error p => rfl
    | ok rank =>
      simp only [ok_bind]
      have hdecode := h.decodeFcBlock hcodec hbs hlayout hfit (rank / tier.blockSize)
      cases hd : tier.decodeBlock (rank / tier.blockSize) with
      | error p =>
        rw [hd] at hdecode
        rw [hdecode]
        rfl
      | ok decoded =>
        rw [hd] at hdecode
        rcases hdecode with ⟨t', hr, h'⟩
        have hblock : (CompactedTierIndex.fromOwnedTier tier).blockSize = tier.blockSize := rfl
        simp only [hr, ok_bind, h'.index, decodePairs_eq, hblock]
        cases hp : tier.decodePairs (rank / tier.blockSize * tier.blockSize) decoded with
        | error p => rfl
        | ok pairs => exact ⟨_, rfl, h'⟩

end

/-! ## Sessions -/

/-- What a tier is asked. -/
inductive Query where
  | getId (term : Term)
  | decodeId (id : Nat)
  | decodeBlockForId (id : Nat)

inductive Answer where
  | id (r : Option Nat)
  | term (r : Option (Except Oxigraph Term))
  | pairs (r : Option (List (Nat × Except Oxigraph Term)))
deriving DecidableEq

/-- The owned tier; no query changes it. -/
def ask (tier : CompactedTier) : Query → Except Panic Answer
  | .getId term => do return .id (← tier.getId term)
  | .decodeId id => do return .term (← tier.decodeId id)
  | .decodeBlockForId id => do return .pairs (← tier.decodeBlockForId id)

/-- An answer of the cached tier, and the cache it leaves. -/
def answering {α : Type} (wrap : α → Answer) (t : BlockCachedCompactedTier) :
    Except Panic (α × BlockCachedCompactedTier) → Except Panic Answer × BlockCachedCompactedTier
  | .ok (a, t') => (.ok (wrap a), t')
  | .error p => (.error p, t)

def step (codec : Lz4) : Machine BlockCachedCompactedTier Query Panic Answer
  | t, .getId term => answering .id t (getId codec t term)
  | t, .decodeId id => answering .term t (decodeId codec t id)
  | t, .decodeBlockForId id => answering .pairs t (decodeBlockForId codec t id)

theorem Agrees.answering {α : Type} (wrap : α → Answer) (h : Serves codec blockSize tier t)
    {x : Except Panic α} {y : Except Panic (α × BlockCachedCompactedTier)}
    (hagrees : Agrees codec blockSize tier x y) :
    (answering wrap t y).1 = (do return wrap (← x)) ∧
      Serves codec blockSize tier (answering wrap t y).2 := by
  cases x with
  | error p =>
    rw [hagrees]
    exact ⟨rfl, h⟩
  | ok a =>
    rcases hagrees with ⟨t', rfl, h'⟩
    exact ⟨rfl, h'⟩

/-- One query. -/
theorem Serves.step {bs : Nat} {es : List Entry} {blocks : List (List Entry)}
    (hcodec : codec.RoundTrips blockSize) (hbs : 0 < blockSize)
    (hlayout : Layout tier.toBuffers bs es blocks) (hfit : StartsFit bs es)
    (h : Serves codec blockSize tier t) (q : Query) :
    (step codec t q).1 = ask tier q ∧ Serves codec blockSize tier (step codec t q).2 := by
  cases q with
  | getId term => exact (h.getId hcodec hbs hlayout hfit term).answering .id h
  | decodeId id => exact (h.decodeId hcodec hbs hlayout hfit id).answering .term h
  | decodeBlockForId id =>
    exact (h.decodeBlockForId hcodec hbs hlayout hfit id).answering .pairs h

/-- A session up to its first panic. -/
theorem Serves.batch {bs : Nat} {es : List Entry} {blocks : List (List Entry)}
    (hcodec : codec.RoundTrips blockSize) (hbs : 0 < blockSize)
    (hlayout : Layout tier.toBuffers bs es blocks) (hfit : StartsFit bs es)
    (h : Serves codec blockSize tier t) (queries : List Query) :
    (Machine.batch (BlockCachedCompactedTier.step codec) t queries).1 = queries.mapM (ask tier) := by
  induction queries generalizing t with
  | nil => rfl
  | cons q queries ih =>
    rcases h.step hcodec hbs hlayout hfit q with ⟨hans, h'⟩
    have hrest := ih h'
    rw [Machine.batch, mapM_cons, ← hans, ← hrest]
    rcases hs : BlockCachedCompactedTier.step codec t q with ⟨r, t'⟩
    cases r with
    | error p => rfl
    | ok a =>
      simp only [ok_bind]
      rcases Machine.batch (BlockCachedCompactedTier.step codec) t' queries with ⟨r', t''⟩
      cases r' <;> rfl

theorem fromOwnedTier_serves (codec : Lz4) (tier : CompactedTier) (hbs : 0 < blockSize)
    (cacheCapacity : Nat) :
    ∃ t, fromOwnedTier codec tier blockSize cacheCapacity = .ok t ∧ Serves codec blockSize tier t := by
  refine ⟨⟨.fromOwnedTier tier, .ofBlocks blockSize tier.buf.length
    ((chunks blockSize tier.buf).map codec.compress), ⟨max cacheCapacity 1, []⟩⟩, ?_, ?_⟩
  · rw [fromOwnedTier, Lz4BufBlocks.compress, if_neg (by omega), ok_bind, new]
    exact if_neg (by simp [CompactedTierIndex.fromOwnedTier, Lz4BufBlocks.ofBlocks])
  · constructor
    · rfl
    · rfl
    · intro e he
      cases he

/-- Made of the same entries, the cached tier and the owned one answer alike, through
any session and with any cache. -/
theorem cached_answers_alike {codec : Lz4} {bs lz4BlockSize : Nat} {entries : List Entry}
    (hbs : 0 < bs) (hlz4 : 0 < lz4BlockSize) (hcodec : codec.RoundTrips lz4BlockSize)
    (hfit : StartsFit bs entries) (highWater cacheCapacity : Nat) :
    ∃ cached, fromOwnedTier codec (build bs entries highWater) lz4BlockSize cacheCapacity = .ok cached ∧
      ∀ queries, (Machine.batch (step codec) cached queries).1 =
        queries.mapM (ask (build bs entries highWater)) := by
  rcases exists_layout hbs entries highWater with ⟨blocks, hlayout⟩
  rcases fromOwnedTier_serves codec (build bs entries highWater) hlz4 cacheCapacity with
    ⟨cached, hmade, hserves⟩
  exact ⟨cached, hmade, hserves.batch hcodec hlz4 hlayout hfit⟩

/-- What the compressor makes of blocks too short to hold a match: the size, a token
with the number of literals, the literals. -/
def storeLiterals (b : Bytes) : Bytes := leBytes 4 b.length ++ UInt8.ofNat (b.length * 16) :: b

def loadLiterals (bytes : Bytes) : Except String Bytes :=
  match bytes.drop 4 with
  | [] => .error "the size is not followed by a token"
  | token :: literals =>
    if literals.length = token.toNat / 16 ∧ leNat (bytes.take 4) = literals.length then .ok literals
    else .error "the literals are not those announced"

def literalsOnly : Lz4 := ⟨storeLiterals, loadLiterals⟩

theorem literalsOnly_roundTrips : literalsOnly.RoundTrips 12 := by
  intro b hb
  show loadLiterals (storeLiterals b) = .ok b
  have hdrop : (storeLiterals b).drop 4 = UInt8.ofNat (b.length * 16) :: b :=
    drop_left' (length_leBytes 4 b.length)
  have htake : (storeLiterals b).take 4 = leBytes 4 b.length :=
    take_left' (length_leBytes 4 b.length)
  have htoken : (UInt8.ofNat (b.length * 16)).toNat / 16 = b.length := by
    rw [UInt8.toNat_ofNat', Nat.mod_eq_of_lt (by omega), Nat.mul_div_cancel _ (by omega)]
  have hsize : leNat (leBytes 4 b.length) = b.length := by
    rw [leNat_leBytes, Nat.mod_eq_of_lt (by omega)]
  rw [loadLiterals, hdrop]
  simp only [htake, hsize, htoken, and_self, if_true]

/-- Eight one-letter literals in a front-coded block, and two more in a second. -/
def tenLetters : List Entry := (List.range 10).map fun i => ⟨2, [97 + UInt8.ofNat i], [], i⟩

/-- Compressed in blocks of twelve bytes, two of them cached. -/
theorem cached_answers_alike_tenLetters :
    ∃ cached, fromOwnedTier literalsOnly (build sourceBlockSize tenLetters 10) 12 2 = .ok cached ∧
      ∀ queries, (Machine.batch (step literalsOnly) cached queries).1 =
        queries.mapM (ask (build sourceBlockSize tenLetters 10)) := by
  refine cached_answers_alike (by decide) (by decide) literalsOnly_roundTrips ?_ 10 2
  intro blocks hblocked
  rw [hblocked.eq_chunks (by decide)]
  decide +kernel

/-! ## Offsets past 32 bits -/

/-- A front-coded block of eight: an IRI, the empty literal and six of one letter. -/
def iriBlock (iri : String) : List Entry :=
  ⟨0, utf8 iri, [], 0⟩ :: ⟨2, [], [], 1⟩ ::
    (List.range 6).map fun i => ⟨2, [97 + UInt8.ofNat i], [], i + 2⟩

/-- The block, and a literal that starts the next one. -/
def iriEntries (iri : String) : List Entry := iriBlock iri ++ [⟨2, [103], [], 8⟩]

/-- The entries after the IRI in its block. -/
def afterIri : Bytes :=
  encodeChain [] (⟨2, [], [], 1⟩ :: (List.range 6).map fun i => ⟨2, [97 + UInt8.ofNat i], [], i + 2⟩)

/-- What the block takes besides the `n` bytes of the IRI. -/
def iriOverhead (n : Nat) : Nat := (writeVarint 0 ++ writeVarint n).length + (2 + afterIri.length)

theorem encodeChain_of_empty (prev : Bytes) (e : Entry) (es : List Entry) (he : e.primary = []) :
    encodeChain prev (e :: es) = encodeChain [] (e :: es) := by
  have hlcp : ∀ p : Bytes, commonPrefixLen p e.primary = 0 := by
    intro p
    rw [he]
    cases p <;> rfl
  rw [encodeChain, encodeChain, encodeEntry, encodeEntry, hlcp, hlcp]

theorem encodeBlock_iri (iri : String) :
    encodeBlock (iriBlock iri) = writeVarint 0 ++ writeVarint (utf8 iri).length ++
      (utf8 iri ++ (0 :: 0 :: afterIri)) := by
  have hzero : writeVarint 0 = [0] := by decide +kernel
  rw [encodeBlock, iriBlock, encodeChain, encodeChain_of_empty _ _ _ rfl]
  show encodeEntry [] _ ++ afterIri = _
  simp [encodeEntry, commonPrefixLen, hzero]

theorem length_encodeBlock_iri (iri : String) :
    (encodeBlock (iriBlock iri)).length = (utf8 iri).length + iriOverhead (utf8 iri).length := by
  rw [encodeBlock_iri, iriOverhead]
  simp only [length_append, length_cons]
  omega

theorem iriOverhead_lt : iriOverhead (2 ^ 32) < 2 ^ 32 := by decide +kernel

theorem decodeLoop_of_short {piece post : Bytes} {n : Nat}
    (hpiece : piece = writeVarint 0 ++ writeVarint n ++ post) (hshort : post.length < n) :
    decodeLoop piece piece.length 0 [] = .error .outOfBounds := by
  have hlcp := reads_varint Panic.outOfBounds 0 [] (writeVarint n ++ post)
  have hlen := reads_varint Panic.outOfBounds n (writeVarint 0) post
  rw [nil_append, ← append_assoc, ← hpiece] at hlcp
  rw [← hpiece] at hlen
  have hread : readEntry [] piece 0 = .error .outOfBounds := by
    rw [readEntry, Reader.bind_apply]
    rw [length_nil, zero_add] at hlcp
    rw [hlcp]
    simp only
    rw [readEntryTail, Reader.bind_apply, hlen]
    simp only [length_nil, Nat.le_refl, if_true]
    rw [Reader.bind_apply, readRun, if_neg]
    rw [hpiece, length_append, length_append]
    omega
  have hpos : 0 < piece.length := by
    have hne := length_pos_of_ne_nil (writeVarint_ne_nil 0)
    rw [hpiece, length_append, length_append]
    omega
  rw [decodeLoop, if_pos hpos]
  split
  · rename_i p hp
    rw [hread] at hp
    cases hp
    rfl
  · rename_i tag primary aux p hp
    rw [hread] at hp
    cases hp

section

variable {iri : String} (hiri : (utf8 iri).length = 2 ^ 32)
include hiri

theorem layout_iri : Layout (build 8 (iriEntries iri) 9).toBuffers 8 (iriEntries iri)
      [iriBlock iri, [⟨2, [103], [], 8⟩]] ∧
    (build 8 (iriEntries iri) 9).blockStarts = [0, iriOverhead (2 ^ 32)] := by
  rcases exists_layout (by decide : 0 < 8) (iriEntries iri) 9 with ⟨blocks, hlayout⟩
  have hblocks : blocks = [iriBlock iri, [⟨2, [103], [], 8⟩]] := hlayout.blocked.eq_chunks (by decide)
  rw [hblocks] at hlayout
  refine ⟨hlayout, ?_⟩
  rw [hlayout.blockStarts]
  simp only [map_cons, map_nil, offsets, length_encodeBlock_iri, hiri, asU32, zero_add,
    zero_mod, add_mod_left, mod_eq_of_lt iriOverhead_lt]

theorem owned_decodes_iri :
    (build 8 (iriEntries iri) 9).decodeId 0 = .ok (some (.ok (.namedNode ⟨iri⟩))) := by
  rcases layout_iri hiri with ⟨hlayout, hstarts⟩
  have hranks : DictCompact.index (build 8 (iriEntries iri) 9).id2rank 0 = .ok 0 := rfl
  have hbuf : (build 8 (iriEntries iri) 9).buf = [] ++ encodeEntry [] ⟨0, utf8 iri, [], 0⟩ ++
      (encodeChain (utf8 iri) (iriBlock iri).tail ++ encodeBlock [⟨2, [103], [], 8⟩]) := by
    rw [hlayout.buf]
    simp [encodeBlock, encodeChain, iriBlock]
  have hlong : iriOverhead (2 ^ 32) ≤ (encodeEntry [] ⟨0, utf8 iri, [], 0⟩).length := by
    have hlt := iriOverhead_lt
    simp only [encodeEntry, commonPrefixLen, drop_zero, length_append, length_cons]
    omega
  have hread := reads_entry [] ⟨0, utf8 iri, [], 0⟩ []
    (encodeChain (utf8 iri) (iriBlock iri).tail ++ encodeBlock [⟨2, [103], [], 8⟩])
  -- the entry ends past the stored start of the next block, so the loop stops there
  have hdecode : (build 8 (iriEntries iri) 9).decodeBlock 0 = .ok [(0, utf8 iri, [])] := by
    rw [CompactedTier.decodeBlock, hstarts]
    show decodeLoop _ (iriOverhead (2 ^ 32)) 0 [] = _
    rw [hbuf]
    refine decodeLoop_step (e := ⟨0, utf8 iri, [], 0⟩) (by decide +kernel) hread ?_
    rw [decodeLoop, if_neg]
    omega
  have hnone : ¬((build 8 (iriEntries iri) 9).highWater ≤ 0 ∨
      (build 8 (iriEntries iri) 9).encodedCount = 0) := by
    show ¬(9 ≤ 0 ∨ 9 = 0)
    omega
  rw [CompactedTier.decodeId, if_neg hnone, hranks, ok_bind]
  simp only [Nat.zero_div, Nat.zero_mod]
  rw [hdecode, ok_bind]
  simp [termFromParts, utf8OrErr_utf8]

theorem cached_panics_on_iri {cached : BlockCachedCompactedTier}
    (h : Serves literalsOnly 12 (build 8 (iriEntries iri) 9) cached) :
    decodeId literalsOnly cached 0 = .error .outOfBounds := by
  rcases layout_iri hiri with ⟨hlayout, hstarts⟩
  have hbuf : (build 8 (iriEntries iri) 9).buf = writeVarint 0 ++ writeVarint (2 ^ 32) ++
      (utf8 iri ++ (0 :: 0 :: afterIri) ++ encodeBlock [⟨2, [103], [], 8⟩]) := by
    rw [hlayout.buf]
    simp [encodeBlock_iri, hiri]
  have hfits : iriOverhead (2 ^ 32) ≤ (build 8 (iriEntries iri) 9).buf.length := by
    have hlt := iriOverhead_lt
    rw [hbuf]
    simp only [length_append, length_cons]
    omega
  rcases h.rawSlice literalsOnly_roundTrips (by decide) (Nat.zero_le _) hfits with ⟨t', hr, -⟩
  -- the lengths are read, and the IRI is longer than what is left
  have hloop : ∀ piece : Bytes, piece = slice (build 8 (iriEntries iri) 9).buf 0 (iriOverhead (2 ^ 32)) →
      decodeLoop piece piece.length 0 [] = .error .outOfBounds := by
    intro piece hpiece
    have hsplit : piece = writeVarint 0 ++ writeVarint (2 ^ 32) ++
        (utf8 iri ++ (0 :: 0 :: afterIri) ++ encodeBlock [⟨2, [103], [], 8⟩]).take
          (2 + afterIri.length) := by
      rw [hpiece, hbuf, iriOverhead, slice, drop_zero, take_length_add_append]
    have hafter : 2 + afterIri.length < 2 ^ 32 := by decide +kernel
    refine decodeLoop_of_short hsplit ?_
    rw [List.length_take]
    omega
  have hrange : cached.index.fcBlockRange 0 = .ok (0, iriOverhead (2 ^ 32)) := by
    rw [CompactedTierIndex.fcBlockRange, h.index]
    show (DictCompact.index (build 8 (iriEntries iri) 9).blockStarts 0 >>= fun start =>
      Except.ok (start, ((build 8 (iriEntries iri) 9).blockStarts[0 + 1]?).getD _)) = _
    rw [hstarts]
    rfl
  have hdecode : decodeFcBlock literalsOnly cached 0 = .error .outOfBounds := by
    rw [decodeFcBlock, hrange]
    simp only [hr, andThen, Nat.sub_zero]
    rw [hloop _ rfl]
  have hhigh : cached.index.highWater = 9 := by rw [h.index]; rfl
  have hcount : cached.index.encodedCount = 9 := by rw [h.index]; rfl
  have hrank : DictCompact.index cached.index.id2rank 0 = .ok 0 := by rw [h.index]; rfl
  rw [decodeId, hhigh, hcount, if_neg (by decide), hrank, ok_bind]
  simp only [Nat.zero_div]
  rw [hdecode]
  rfl

end


/-- The letter `a`, `n` times. -/
def longIri (n : Nat) : String := String.ofList (List.replicate n 'a')

theorem length_longIri (n : Nat) : (utf8 (longIri n)).length = n := by
  rw [longIri, length_utf8_replicate]
  exact mul_one n

theorem tiers_differ {iri : String} (hiri : (utf8 iri).length = 2 ^ 32) :
    ∃ cached, fromOwnedTier literalsOnly (build sourceBlockSize (iriEntries iri) 9) 12 2 = .ok cached ∧
      (Machine.batch (step literalsOnly) cached [.decodeId 0]).1 = .error .outOfBounds ∧
      [Query.decodeId 0].mapM (ask (build sourceBlockSize (iriEntries iri) 9)) =
        .ok [.term (some (.ok (.namedNode ⟨iri⟩)))] := by
  rcases fromOwnedTier_serves literalsOnly (build sourceBlockSize (iriEntries iri) 9) (by decide : 0 < 12) 2
    with ⟨cached, hmade, hserves⟩
  refine ⟨cached, hmade, ?_, ?_⟩
  · rw [Machine.batch, step, cached_panics_on_iri hiri hserves]
    rfl
  · rw [mapM_cons, ask, sourceBlockSize, owned_decodes_iri hiri]
    rfl

/-- An IRI of four gibibytes: the owned tier decodes it, the cached one panics. -/
theorem cached_panics_past_u32 :
    ∃ cached, fromOwnedTier literalsOnly (build sourceBlockSize (iriEntries (longIri (2 ^ 32))) 9) 12 2 =
        .ok cached ∧
      (Machine.batch (step literalsOnly) cached [.decodeId 0]).1 = .error .outOfBounds ∧
      [Query.decodeId 0].mapM (ask (build sourceBlockSize (iriEntries (longIri (2 ^ 32))) 9)) =
        .ok [.term (some (.ok (.namedNode ⟨longIri (2 ^ 32)⟩)))] :=
  tiers_differ (length_longIri (2 ^ 32))

end BlockCachedCompactedTier

end DictCompact

end Nova
