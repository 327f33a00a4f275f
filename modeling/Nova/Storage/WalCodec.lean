import Nova.Core.Term
import Nova.Lib.Reader

/-!
# The write-ahead log: record codec

Every WAL record is self-contained: it carries the whole quad (or graph name)
with its strings written out, so replay never depends on the dictionary. The
codec is driven by tags, and subject, predicate, object and graph positions
have their own writers and readers:

| term tag | meaning | fields |
|---|---|---|
| 0 | IRI | string |
| 1 | blank node | string |
| 2 | simple literal | value |
| 3 | language-tagged literal | value, language |
| 4 | directional literal | value, language, direction byte |
| 5 | typed literal | value, datatype |
| 6 | quoted triple (objects only) | subject, predicate, object |

A string is a 32-bit little-endian length followed by its UTF-8 octets; the
length is a truncating cast, so it is faithful only below `2 ^ 32` octets.

Main results: `reads_record` (what the encoder wrote is read back, and the
reader stops exactly at its end), `local_record` (the reader never depends on
octets it did not consume) and `ensures_record` (a decoded record has short
strings only).
-/

namespace Nova.Wal

open Nova.Lib List Reader

/-- One durable, self-contained WAL record. -/
inductive WalRecord where
  | insertQuad (q : Quad)
  | removeQuad (q : Quad)
  | registerGraph (g : GraphName)
deriving DecidableEq, Repr

def WalRecord.tag : WalRecord → UInt8
  | .insertQuad _ => 1
  | .removeQuad _ => 2
  | .registerGraph _ => 3

/-- A reader of the WAL codec. -/
abbrev Read (α : Type) := Reader Oxigraph α

/-! ## Primitive encoding -/

/-- `(len as u32).to_le_bytes()`: the cast keeps the low 32 bits. -/
def u32le (n : Nat) : Bytes := leBytes 4 n

def writeString (s : String) : Bytes := u32le (utf8 s).length ++ utf8 s

def readString : Read String := fun buf pos =>
  if pos + 4 > buf.length then
    .error (.storage "WAL: truncated string length")
  else
    let len := leNat (slice buf pos 4)
    let pos := pos + 4
    if pos + len > buf.length then
      .error (.storage "WAL: truncated string content")
    else
      match fromUtf8 (slice buf pos len) with
      -- the position detail of the standard library's message is left out
      | none => .error (.storage "WAL: invalid utf8")
      | some s => .ok (s, pos + len)

def readTag : Read UInt8 := fun buf pos =>
  if h : pos < buf.length then .ok (buf[pos], pos + 1)
  else .error (.storage "WAL: truncated tag byte")

/-! ## Terms, subjects and graph names -/

def directionByte : BaseDirection → UInt8
  | .ltr => 0
  | .rtl => 1

/-- Every term but a quoted triple. The last case is `unreachable!` in the
source: `writeObjectTerm` keeps triples for itself. -/
def writeTerm : Term → Bytes
  | .namedNode n => 0 :: writeString n.iri
  | .blankNode b => 1 :: writeString b.id
  | .literal l =>
    match l.direction with
    | some direction =>
      4 :: (writeString l.value ++ writeString (l.language.getD "")) ++ [directionByte direction]
    | none =>
      match l.language with
      | some lang => 3 :: (writeString l.value ++ writeString lang)
      | none =>
        if l.datatype = xsdString then 2 :: writeString l.value
        else 5 :: (writeString l.value ++ writeString l.datatype.iri)
  | .triple _ _ _ => []

def writeSubject : Subject → Bytes
  | .namedNode n => 0 :: writeString n.iri
  | .blankNode b => 1 :: writeString b.id

/-- Object terms may be quoted triples; those are written recursively. -/
def writeObjectTerm : Term → Bytes
  | .triple s p o => 6 :: (writeSubject s ++ (writeString p.iri ++ writeObjectTerm o))
  | t => writeTerm t

def readTermFromTag (tag : UInt8) : Read Term :=
  match tag with
  | 0 => do
    let s ← readString
    pure (.namedNode ⟨s⟩)
  | 1 => do
    let s ← readString
    pure (.blankNode ⟨s⟩)
  | 2 => do
    let s ← readString
    pure (.literal (.string s))
  | 3 => do
    let value ← readString
    let lang ← readString
    pure (.literal (.languageTagged value lang))
  | 4 => do
    let value ← readString
    let lang ← readString
    let dirByte ← readTag
    match dirByte with
    | 0 => pure (.literal (.directional value lang .ltr))
    | 1 => pure (.literal (.directional value lang .rtl))
    | _ => Reader.fail (.storage "WAL: invalid direction byte")
  | 5 => do
    let value ← readString
    let datatype ← readString
    pure (.literal (Literal.newTypedLiteral value ⟨datatype⟩))
  | other => Reader.fail (.storage s!"WAL: unknown term tag {other}")

def readSubjectFromTag : Read Subject := do
  let tag ← readTag
  match tag with
  | 0 => do
    let s ← readString
    pure (.namedNode ⟨s⟩)
  | 1 => do
    let s ← readString
    pure (.blankNode ⟨s⟩)
  | other => Reader.fail (.storage s!"WAL: unknown subject tag {other}")

/-- `read_object_term`, with the recursion into quoted triples bounded by
`fuel`; see `readObjectTerm`. -/
def readObjectTermAux : Nat → Read Term
  | 0 => Reader.fail (.storage "WAL: truncated tag byte")
  | fuel + 1 => do
    let tag ← readTag
    if tag = 6 then do
      let subject ← readSubjectFromTag
      let predicate ← readString
      let object ← readObjectTermAux fuel
      pure (.triple subject ⟨predicate⟩ object)
    else readTermFromTag tag

/-- Each level of nesting consumes a tag byte, so the buffer length bounds the
depth: `readObjectTerm_eq` is the unbounded recursion of the source. -/
def readObjectTerm : Read Term := fun buf pos => readObjectTermAux (buf.length + 1) buf pos

def writeGraphName : GraphName → Bytes
  | .defaultGraph => [2]
  | .namedNode n => 0 :: writeString n.iri
  | .blankNode b => 1 :: writeString b.id

def readGraphName : Read GraphName := do
  let tag ← readTag
  match tag with
  | 0 => do
    let s ← readString
    pure (.namedNode ⟨s⟩)
  | 1 => do
    let s ← readString
    pure (.blankNode ⟨s⟩)
  | 2 => pure .defaultGraph
  | other => Reader.fail (.storage s!"WAL: unknown graph-name tag {other}")

/-! ## Quads and records -/

def writeQuad (q : Quad) : Bytes :=
  writeGraphName q.graphName ++
    (writeSubject q.subject ++ (writeString q.predicate.iri ++ writeObjectTerm q.object))

def readQuad : Read Quad := do
  let graphName ← readGraphName
  let subject ← readSubjectFromTag
  let predicate ← readString
  let object ← readObjectTerm
  pure ⟨subject, ⟨predicate⟩, object, graphName⟩

def encodeRecord (r : WalRecord) : Bytes :=
  r.tag ::
    match r with
    | .insertQuad q | .removeQuad q => writeQuad q
    | .registerGraph g => writeGraphName g

/-- `decode_record` with the cursor it ends at. -/
def readRecord : Read WalRecord := do
  let tag ← readTag
  match tag with
  | 1 => do
    let q ← readQuad
    pure (.insertQuad q)
  | 2 => do
    let q ← readQuad
    pure (.removeQuad q)
  | 3 => do
    let g ← readGraphName
    pure (.registerGraph g)
  | other => Reader.fail (.storage s!"WAL: unknown record tag {other}")

/-- `decode_record`: the cursor is local to the function and dropped. -/
def decodeRecord (buf : Bytes) : Except Oxigraph WalRecord :=
  (readRecord buf 0).map Prod.fst

/-! ## The recursion into quoted triples -/

theorem readTag_of_ge {buf : Bytes} {pos : Nat} (h : buf.length ≤ pos) :
    readTag buf pos = .error (.storage "WAL: truncated tag byte") := by
  simp [readTag, Nat.not_lt.mpr h]

theorem local_tag : Reader.Local readTag := by
  intro buf pos a pos' h
  unfold readTag at h
  split at h
  · rename_i hlt
    cases h
    refine ⟨Nat.le_succ pos, fun _ => hlt, fun ext => ?_⟩
    have hlt' : pos < (buf ++ ext).length := by
      rw [length_append]
      omega
    unfold readTag
    rw [dif_pos hlt', getElem_append_left hlt]
  · cases h

theorem local_string : Reader.Local readString := by
  intro buf pos s pos' h
  simp only [readString] at h
  split at h
  · cases h
  · rename_i hlen
    split at h
    · cases h
    · rename_i hcontent
      split at h
      · cases h
      · rename_i s' hutf
        cases h
        refine ⟨by omega, fun _ => by omega, fun ext => ?_⟩
        have h4 : slice (buf ++ ext) pos 4 = slice buf pos 4 := slice_append _ _ _ _ (by omega)
        have hc := slice_append buf ext (pos + 4) (leNat (slice buf pos 4)) (by omega)
        simp only [readString, h4, hc, hutf, length_append]
        rw [if_neg (by omega), if_neg (by omega)]

theorem local_subject : Reader.Local readSubjectFromTag := by
  refine local_bind local_tag fun tag => ?_
  split
  · exact local_bind local_string fun _ => local_pure _
  · exact local_bind local_string fun _ => local_pure _
  · exact local_fail _

theorem local_graphName : Reader.Local readGraphName := by
  refine local_bind local_tag fun tag => ?_
  split
  · exact local_bind local_string fun _ => local_pure _
  · exact local_bind local_string fun _ => local_pure _
  · exact local_pure _
  · exact local_fail _

theorem local_termFromTag (tag : UInt8) : Reader.Local (readTermFromTag tag) := by
  unfold readTermFromTag
  split
  · exact local_bind local_string fun _ => local_pure _
  · exact local_bind local_string fun _ => local_pure _
  · exact local_bind local_string fun _ => local_pure _
  · exact local_bind local_string fun _ =>
      local_bind local_string fun _ => local_pure _
  · refine local_bind local_string fun _ => local_bind local_string fun _ =>
      local_bind local_tag fun dirByte => ?_
    split
    · exact local_pure _
    · exact local_pure _
    · exact local_fail _
  · exact local_bind local_string fun _ =>
      local_bind local_string fun _ => local_pure _
  · exact local_fail _

theorem local_objectTermAux (fuel : Nat) : Reader.Local (readObjectTermAux fuel) := by
  induction fuel with
  | zero => exact local_fail _
  | succ fuel ih =>
    refine local_bind local_tag fun tag => ?_
    split
    · exact local_bind local_subject fun _ => local_bind local_string fun _ =>
        local_bind ih fun _ => local_pure _
    · exact local_termFromTag tag

/-- Once the fuel reaches past the end of the buffer, more of it changes
nothing: a reader that would run out has no tag byte left to read either. -/
theorem readObjectTermAux_succ (fuel : Nat) (buf : Bytes) (pos : Nat)
    (h : buf.length < fuel + pos) :
    readObjectTermAux (fuel + 1) buf pos = readObjectTermAux fuel buf pos := by
  induction fuel generalizing pos with
  | zero =>
    have hge : buf.length ≤ pos := by omega
    simp only [readObjectTermAux, bind_apply, readTag_of_ge hge, Reader.fail]
  | succ fuel ih =>
    conv_lhs => rw [readObjectTermAux]
    conv_rhs => rw [readObjectTermAux]
    simp only [bind_apply]
    cases htag : readTag buf pos with
    | error e => rfl
    | ok r =>
      obtain ⟨tag, p1⟩ := r
      have hp1 : p1 = pos + 1 := by
        unfold readTag at htag
        split at htag <;> cases htag
        rfl
      simp only
      split
      · simp only [bind_apply]
        cases hsub : readSubjectFromTag buf p1 with
        | error e => rfl
        | ok r =>
          obtain ⟨subject, p2⟩ := r
          have hp2 := (local_subject _ _ _ _ hsub).1
          simp only
          cases hstr : readString buf p2 with
          | error e => rfl
          | ok r =>
            obtain ⟨predicate, p3⟩ := r
            have hp3 := (local_string _ _ _ _ hstr).1
            simp only
            rw [ih p3 (by omega)]
      · rfl

theorem readObjectTermAux_eq {fuel fuel' : Nat} {buf : Bytes} {pos : Nat} (hle : fuel ≤ fuel')
    (h : buf.length < fuel + pos) :
    readObjectTermAux fuel' buf pos = readObjectTermAux fuel buf pos := by
  obtain ⟨k, rfl⟩ := Nat.exists_eq_add_of_le hle
  induction k with
  | zero => rfl
  | succ k ih =>
    rw [← Nat.add_assoc, readObjectTermAux_succ _ _ _ (by omega), ih (by omega)]

/-- The recursion of the source: `readObjectTerm` calls itself on the object of
a quoted triple. -/
theorem readObjectTerm_eq : readObjectTerm = (do
    let tag ← readTag
    if tag = 6 then do
      let subject ← readSubjectFromTag
      let predicate ← readString
      let object ← readObjectTerm
      pure (.triple subject ⟨predicate⟩ object)
    else readTermFromTag tag) := by
  funext buf pos
  have hstep : readObjectTerm buf pos = readObjectTermAux (buf.length + 2) buf pos := by
    exact (readObjectTermAux_eq (by omega) (by omega)).symm
  rw [hstep, readObjectTermAux, bind_apply, bind_apply]
  cases readTag buf pos with
  | error e => rfl
  | ok r =>
    simp only
    split <;> rfl

theorem readObjectTermAux_mono {fuel : Nat} {buf : Bytes} {pos : Nat} {r : Term × Nat}
    (h : readObjectTermAux fuel buf pos = .ok r) (k : Nat) :
    readObjectTermAux (fuel + k) buf pos = .ok r := by
  induction fuel generalizing pos r with
  | zero => cases h
  | succ fuel ih =>
    rw [Nat.add_right_comm]
    rw [readObjectTermAux] at h ⊢
    obtain ⟨tag, p1, htag, hrest⟩ := bind_eq_ok h
    simp only [bind_apply, htag]
    split at hrest
    · rename_i h6
      obtain ⟨subject, p2, hsub, hrest⟩ := bind_eq_ok hrest
      obtain ⟨predicate, p3, hstr, hrest⟩ := bind_eq_ok hrest
      obtain ⟨object, p4, hobj, hrest⟩ := bind_eq_ok hrest
      simp only [if_pos h6, bind_apply, hsub, hstr, ih hobj]
      exact hrest
    · rename_i h6
      rw [if_neg h6]
      exact hrest

theorem local_objectTerm : Reader.Local readObjectTerm := by
  intro buf pos t pos' h
  obtain ⟨hle, hin, hext⟩ := local_objectTermAux _ _ _ _ _ h
  refine ⟨hle, hin, fun ext => ?_⟩
  have hmono := readObjectTermAux_mono (hext ext) ext.length
  have hlen : buf.length + 1 + ext.length = (buf ++ ext).length + 1 := by
    rw [length_append]
    omega
  rw [hlen] at hmono
  exact hmono

theorem local_quad : Reader.Local readQuad :=
  local_bind local_graphName fun _ => local_bind local_subject fun _ =>
    local_bind local_string fun _ => local_bind local_objectTerm fun _ =>
      local_pure _

/-- The record reader never depends on octets it did not consume. -/
theorem local_record : Reader.Local readRecord := by
  refine local_bind local_tag fun tag => ?_
  split
  · exact local_bind local_quad fun _ => local_pure _
  · exact local_bind local_quad fun _ => local_pure _
  · exact local_bind local_graphName fun _ => local_pure _
  · exact local_fail _

/-! ## Reading back what was written -/

/-- A string the 32-bit length prefix can describe. -/
def ShortString (s : String) : Prop := (utf8 s).length < 2 ^ 32

theorem reads_tag (b : UInt8) : Reader.Reads readTag [b] b := by
  intro pre post
  unfold readTag
  simp

theorem reads_string {s : String} (h : ShortString s) :
    Reader.Reads readString (writeString s) s := by
  intro pre post
  have hlen : leNat (u32le (utf8 s).length) = (utf8 s).length := by
    rw [u32le, leNat_leBytes]
    exact Nat.mod_eq_of_lt h
  have h4 : slice (pre ++ writeString s ++ post) pre.length 4 = u32le (utf8 s).length := by
    have hs := slice_middle pre (u32le (utf8 s).length) (utf8 s ++ post)
    simpa [writeString, u32le] using hs
  have hc : slice (pre ++ writeString s ++ post) (pre.length + 4) (utf8 s).length = utf8 s := by
    have hs := slice_middle (pre ++ u32le (utf8 s).length) (utf8 s) post
    simpa [writeString, u32le] using hs
  simp only [readString, h4, hlen, hc, fromUtf8_utf8]
  simp [writeString, u32le, Nat.add_assoc]

theorem reads_tagged {α : Type} {f : UInt8 → Read α} {b : UInt8} {enc : Bytes} {a : α}
    (h : Reader.Reads (f b) enc a) : Reader.Reads (readTag >>= f) (b :: enc) a :=
  reads_bind (reads_tag b) h

/-- The strings of a record, in the order they are written. -/
def WalRecord.strings : WalRecord → List String
  | .insertQuad q | .removeQuad q => Quad.strings q
  | .registerGraph g => GraphName.strings g

theorem reads_subject {s : Subject} (h : ∀ x ∈ Subject.strings s, ShortString x) :
    Reader.Reads readSubjectFromTag (writeSubject s) s := by
  cases s with
  | namedNode n => exact reads_tagged (reads_bind_pure (reads_string (h _ (by simp [Subject.strings]))))
  | blankNode b => exact reads_tagged (reads_bind_pure (reads_string (h _ (by simp [Subject.strings]))))

theorem reads_graphName {g : GraphName} (h : ∀ x ∈ GraphName.strings g, ShortString x) :
    Reader.Reads readGraphName (writeGraphName g) g := by
  cases g with
  | defaultGraph => exact reads_tagged (reads_pure _)
  | namedNode n => exact reads_tagged (reads_bind_pure (reads_string (h _ (by simp [GraphName.strings]))))
  | blankNode b => exact reads_tagged (reads_bind_pure (reads_string (h _ (by simp [GraphName.strings]))))


theorem reads_two_strings {α : Type} {g : String → String → α} {v l : String}
    (hv : ShortString v) (hl : ShortString l) :
    Reader.Reads (do let x ← readString; let y ← readString; pure (g x y) : Read α)
      (writeString v ++ writeString l) (g v l) :=
  reads_bind (reads_string hv) (reads_bind_pure (reads_string hl))

/-- The literal kinds: the tag decides which of language, direction and
datatype follow the value. -/
theorem reads_literal {l : Literal} (h : ∀ x ∈ Literal.strings l, ShortString x) :
    ∃ tag enc, writeTerm (.literal l) = tag :: enc ∧ tag ≠ 6 ∧
      Reader.Reads (readTermFromTag tag) enc (.literal l) := by
  cases l with
  | string v =>
    have hv := h v (by simp [Literal.strings])
    exact ⟨2, writeString v, by simp [writeTerm, Literal.direction, Literal.language,
      Literal.datatype, Literal.value], by decide, reads_bind_pure (reads_string hv)⟩
  | languageTagged v l =>
    have hv := h v (by simp [Literal.strings])
    have hl := h l (by simp [Literal.strings])
    exact ⟨3, writeString v ++ writeString l, by simp [writeTerm, Literal.direction,
      Literal.language, Literal.value], by decide, reads_two_strings hv hl⟩
  | directional v l d =>
    have hv := h v (by simp [Literal.strings])
    have hl := h l (by simp [Literal.strings])
    refine ⟨4, writeString v ++ (writeString l ++ [directionByte d]), by simp [writeTerm,
      Literal.direction, Literal.language, Literal.value], by decide, ?_⟩
    refine reads_bind (reads_string hv) (reads_bind (reads_string hl) ?_)
    cases d <;> exact reads_tagged (reads_pure _)
  | typed v d hd =>
    have hv := h v (by simp [Literal.strings])
    have hl := h d.iri (by simp [Literal.strings])
    have hnew : Literal.newTypedLiteral v d = .typed v d hd := by
      simp [Literal.newTypedLiteral, hd]
    refine ⟨5, writeString v ++ writeString d.iri, by simp [writeTerm, Literal.direction,
      Literal.language, Literal.datatype, Literal.value, hd], by decide, ?_⟩
    rw [← hnew]
    exact reads_two_strings (g := fun x y => Term.literal (Literal.newTypedLiteral x ⟨y⟩)) hv hl

theorem reads_objectTerm {t : Term} (h : ∀ x ∈ Term.strings t, ShortString x) :
    Reader.Reads readObjectTerm (writeObjectTerm t) t := by
  rw [readObjectTerm_eq]
  induction t with
  | namedNode n =>
    exact reads_tagged (reads_bind_pure (reads_string (h _ (by simp [Term.strings]))))
  | blankNode b =>
    exact reads_tagged (reads_bind_pure (reads_string (h _ (by simp [Term.strings]))))
  | literal l =>
    obtain ⟨tag, enc, henc, htag, hreads⟩ := reads_literal (l := l) h
    rw [writeObjectTerm, henc]
    · refine reads_tagged ?_
      rwa [if_neg htag]
    · intro s p o ht
      cases ht
  | triple s p o ih =>
    have hs : ∀ x ∈ Subject.strings s, ShortString x := fun x hx =>
      h x (by simp [Term.strings, hx])
    have hp : ShortString p.iri := h _ (by simp [Term.strings])
    have ho : ∀ x ∈ Term.strings o, ShortString x := fun x hx =>
      h x (by simp [Term.strings, hx])
    have hobj : Reader.Reads readObjectTerm (writeObjectTerm o) o := by
      rw [readObjectTerm_eq]
      exact ih ho
    refine reads_tagged ?_
    exact reads_bind (reads_subject hs) (reads_bind (reads_string hp)
      (reads_bind_pure (g := fun x => Term.triple s ⟨p.iri⟩ x) hobj))

theorem reads_quad {q : Quad} (h : ∀ x ∈ Quad.strings q, ShortString x) :
    Reader.Reads readQuad (writeQuad q) q := by
  have hg : ∀ x ∈ GraphName.strings q.graphName, ShortString x := fun x hx =>
    h x (by simp [Quad.strings, hx])
  have hs : ∀ x ∈ Subject.strings q.subject, ShortString x := fun x hx =>
    h x (by simp [Quad.strings, hx])
  have hp : ShortString q.predicate.iri := h _ (by simp [Quad.strings])
  have ho : ∀ x ∈ Term.strings q.object, ShortString x := fun x hx =>
    h x (by simp [Quad.strings, hx])
  exact reads_bind (reads_graphName hg) (reads_bind (reads_subject hs)
    (reads_bind (reads_string hp) (reads_bind_pure
      (g := fun x => Quad.mk q.subject ⟨q.predicate.iri⟩ x q.graphName) (reads_objectTerm ho))))

/-- What the encoder wrote is read back, and the cursor stops at its end. -/
theorem reads_record {r : WalRecord} (h : ∀ x ∈ WalRecord.strings r, ShortString x) :
    Reader.Reads readRecord (encodeRecord r) r := by
  cases r with
  | insertQuad q => exact reads_tagged (reads_bind_pure (reads_quad h))
  | removeQuad q => exact reads_tagged (reads_bind_pure (reads_quad h))
  | registerGraph g => exact reads_tagged (reads_bind_pure (reads_graphName h))

/-! ## What the reader can return -/

theorem ensures_string : Reader.Ensures readString ShortString := by
  intro buf pos s pos' h
  simp only [readString] at h
  split at h
  · cases h
  · rename_i hlen
    split at h
    · cases h
    · rename_i hcontent
      split at h
      · cases h
      · rename_i s' hutf
        cases h
        have h4 : (slice buf pos 4).length = 4 := slice_length _ _ _ (by omega)
        have hlt := leNat_lt (slice buf pos 4)
        rw [h4] at hlt
        have hsize : (utf8 s).length = leNat (slice buf pos 4) := by
          rw [utf8_of_fromUtf8 hutf]
          exact slice_length _ _ _ (by omega)
        rw [ShortString, hsize]
        exact hlt

theorem ensures_tag : Reader.Ensures readTag (fun _ => True) := fun _ _ _ _ _ => trivial

theorem ensures_subject :
    Reader.Ensures readSubjectFromTag (fun s => ∀ x ∈ s.strings, ShortString x) := by
  refine ensures_bind ensures_tag fun tag _ => ?_
  split
  · exact ensures_bind ensures_string fun s hs =>
      ensures_pure (by simpa [Subject.strings] using hs)
  · exact ensures_bind ensures_string fun s hs =>
      ensures_pure (by simpa [Subject.strings] using hs)
  · exact ensures_fail _ _

theorem ensures_graphName :
    Reader.Ensures readGraphName (fun g => ∀ x ∈ g.strings, ShortString x) := by
  refine ensures_bind ensures_tag fun tag _ => ?_
  split
  · exact ensures_bind ensures_string fun s hs =>
      ensures_pure (by simpa [GraphName.strings] using hs)
  · exact ensures_bind ensures_string fun s hs =>
      ensures_pure (by simpa [GraphName.strings] using hs)
  · exact ensures_pure (by simp [GraphName.strings])
  · exact ensures_fail _ _

theorem newTypedLiteral_strings {v : String} {d : NamedNode} {x : String}
    (h : x ∈ (Literal.newTypedLiteral v d).strings) : x = v ∨ x = d.iri := by
  unfold Literal.newTypedLiteral at h
  split at h <;> simp_all [Literal.strings]

theorem ensures_termFromTag (tag : UInt8) :
    Reader.Ensures (readTermFromTag tag) (fun t => ∀ x ∈ t.strings, ShortString x) := by
  unfold readTermFromTag
  split
  · exact ensures_bind ensures_string fun s hs =>
      ensures_pure (by simpa [Term.strings] using hs)
  · exact ensures_bind ensures_string fun s hs =>
      ensures_pure (by simpa [Term.strings] using hs)
  · exact ensures_bind ensures_string fun s hs =>
      ensures_pure (by simpa [Term.strings, Literal.strings] using hs)
  · exact ensures_bind ensures_string fun v hv => ensures_bind ensures_string
      fun l hl => ensures_pure (by simpa [Term.strings, Literal.strings] using ⟨hv, hl⟩)
  · refine ensures_bind ensures_string fun v hv => ensures_bind ensures_string
      fun l hl => ensures_bind ensures_tag fun dirByte _ => ?_
    split
    · exact ensures_pure (by simpa [Term.strings, Literal.strings] using ⟨hv, hl⟩)
    · exact ensures_pure (by simpa [Term.strings, Literal.strings] using ⟨hv, hl⟩)
    · exact ensures_fail _ _
  · refine ensures_bind ensures_string fun v hv => ensures_bind ensures_string
      fun d hd => ensures_pure fun x hx => ?_
    rcases newTypedLiteral_strings hx with rfl | rfl
    · exact hv
    · exact hd
  · exact ensures_fail _ _

theorem ensures_objectTerm :
    Reader.Ensures readObjectTerm (fun t => ∀ x ∈ t.strings, ShortString x) := by
  have haux : ∀ fuel, Reader.Ensures (readObjectTermAux fuel)
      (fun t => ∀ x ∈ t.strings, ShortString x) := by
    intro fuel
    induction fuel with
    | zero => exact ensures_fail _ _
    | succ fuel ih =>
      refine ensures_bind ensures_tag fun tag _ => ?_
      split
      · refine ensures_bind ensures_subject fun s hs => ensures_bind ensures_string
          fun p hp => ensures_bind ih fun o ho => ensures_pure fun x hx => ?_
        simp only [Term.strings, mem_append, mem_cons] at hx
        rcases hx with hx | rfl | hx
        · exact hs x hx
        · exact hp
        · exact ho x hx
      · exact ensures_termFromTag tag
  exact fun buf => haux (buf.length + 1) buf

theorem ensures_quad : Reader.Ensures readQuad (fun q => ∀ x ∈ q.strings, ShortString x) := by
  refine ensures_bind ensures_graphName fun g hg => ensures_bind ensures_subject
    fun s hs => ensures_bind ensures_string fun p hp =>
      ensures_bind ensures_objectTerm fun o ho => ensures_pure fun x hx => ?_
  simp only [Quad.strings, mem_append, mem_cons] at hx
  rcases hx with hx | hx | rfl | hx
  · exact hg x hx
  · exact hs x hx
  · exact hp
  · exact ho x hx

/-- A record that was read has short strings only. -/
theorem ensures_record :
    Reader.Ensures readRecord (fun r => ∀ x ∈ WalRecord.strings r, ShortString x) := by
  refine ensures_bind ensures_tag fun tag _ => ?_
  split
  · exact ensures_bind ensures_quad fun q hq => ensures_pure hq
  · exact ensures_bind ensures_quad fun q hq => ensures_pure hq
  · exact ensures_bind ensures_graphName fun g hg => ensures_pure hg
  · exact ensures_fail _ _

/-! ## The round trip -/

/-- The codec round trip: for every record with strings below `2 ^ 32` octets,
decoding the encoding gives the record back, and the decoder's cursor ends
exactly at the end of the encoding, whatever octets follow. -/
theorem decode_encode_record (r : WalRecord)
    (h : ∀ s ∈ WalRecord.strings r, (utf8 s).length < 2 ^ 32) :
    decodeRecord (encodeRecord r) = .ok r ∧
      ∀ rest, readRecord (encodeRecord r ++ rest) 0 = .ok (r, (encodeRecord r).length) := by
  have hreads := reads_record h
  have hrest : ∀ rest, readRecord (encodeRecord r ++ rest) 0 =
      .ok (r, (encodeRecord r).length) := by
    intro rest
    have hr := hreads [] rest
    simpa using hr
  refine ⟨?_, hrest⟩
  have hnil := hrest []
  rw [append_nil] at hnil
  rw [decodeRecord, hnil]
  rfl

/-- A quoted triple as object. -/
theorem decode_encode_record_nested :
    decodeRecord (encodeRecord (.insertQuad ⟨.blankNode ⟨"b"⟩, ⟨"p"⟩,
        .triple (.namedNode ⟨"s"⟩) ⟨"q"⟩ (.literal (.languageTagged "v" "en")), .defaultGraph⟩)) =
      .ok (.insertQuad ⟨.blankNode ⟨"b"⟩, ⟨"p"⟩,
        .triple (.namedNode ⟨"s"⟩) ⟨"q"⟩ (.literal (.languageTagged "v" "en")), .defaultGraph⟩) := by
  refine (decode_encode_record _ ?_).1
  decide

end Nova.Wal
