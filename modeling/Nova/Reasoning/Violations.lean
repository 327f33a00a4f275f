import Mathlib.Data.Sym.Sym2
import Nova.Query.Distinct
import Nova.Reasoning.Runs

/-!
# Violations

What the checks of `infer` report, against the witnesses in the closure of the dataset's
triples. The checks join the rows of the closure that `infer` has: the seed and the derived
triples (`Kept`), but no other triple of the dataset.

* `checked_exact_iff`: over any triples, the reports are exact but for `prp-asyp`, where a
  pair of terms is reported for one property only;
* `violations_exact_iff`: over a compacted store, the diagnostics are exact just when every
  edge of a witness is kept and no pair violates two properties (`Caught`);
* `violations_missed`: a property that is asymmetric by a derived declaration is not checked.
-/

namespace Nova.Reasoning

open Nova Nova.Lib Nova.Lib.SemiNaive List

/-! ## Witnesses and reports -/

/-- The property is asymmetric, and relates the terms in both directions. -/
def Asymmetric (C : Set Triple) (p x y : Term) : Prop :=
  ⟨p, Vocab.rdfType.term, Vocab.owlAsymmetricProperty.term⟩ ∈ C ∧ ⟨x, p, y⟩ ∈ C ∧ ⟨y, p, x⟩ ∈ C

/-- The property is irreflexive, and relates the term to itself. -/
def Irreflexive (C : Set Triple) (p x : Term) : Prop :=
  ⟨p, Vocab.rdfType.term, Vocab.owlIrreflexiveProperty.term⟩ ∈ C ∧ ⟨x, p, x⟩ ∈ C

/-- The classes are disjoint, and the term is in both. -/
def DisjointTypes (C : Set Triple) (c₁ c₂ x : Term) : Prop :=
  ⟨c₁, Vocab.owlDisjointWith.term, c₂⟩ ∈ C ∧ ⟨x, Vocab.rdfType.term, c₁⟩ ∈ C ∧ ⟨x, Vocab.rdfType.term, c₂⟩ ∈ C

namespace Diagnostic

/-- The property and the unordered pair of a report of `prp-asyp`. -/
def asymmetricKey : Diagnostic → Option (Option Term × Sym2 (Option Term))
  | .asymmetric p x y => some (p, s(x, y))
  | _ => none

def irreflexiveKey : Diagnostic → Option (Option Term × Option Term)
  | .irreflexive p x => some (p, x)
  | _ => none

def disjointKey : Diagnostic → Option (Option Term × Option Term × Option Term)
  | .disjoint x c₁ c₂ => some (c₁, c₂, x)
  | _ => none

end Diagnostic

/-- The list has exactly these elements, each once. -/
def Lists {α : Type} (xs : List α) (P : α → Prop) : Prop := xs.Nodup ∧ ∀ x, x ∈ xs ↔ P x

/-- The reports that the witnesses call for: for a property and an unordered pair, a property
and a term, two classes and a term. -/
def AsymmetricKey (C : Set Triple) (key : Option Term × Sym2 (Option Term)) : Prop :=
  ∃ p x y, Asymmetric C p x y ∧ key = (some p, s(some x, some y))

def IrreflexiveKey (C : Set Triple) (key : Option Term × Option Term) : Prop :=
  ∃ p x, Irreflexive C p x ∧ key = (some p, some x)

def DisjointKey (C : Set Triple) (key : Option Term × Option Term × Option Term) : Prop :=
  ∃ c₁ c₂ x, DisjointTypes C c₁ c₂ x ∧ key = (some c₁, some c₂, some x)

/-- There is one report for each witness, and none without. -/
structure ExactViolations (C : Set Triple) (out : List Diagnostic) : Prop where
  asymmetric : Lists (out.filterMap Diagnostic.asymmetricKey) (AsymmetricKey C)
  irreflexive : Lists (out.filterMap Diagnostic.irreflexiveKey) (IrreflexiveKey C)
  disjoint : Lists (out.filterMap Diagnostic.disjointKey) (DisjointKey C)

variable {α : Type}

theorem Lists.congr {xs : List α} {P Q : α → Prop} (h : ∀ x, P x ↔ Q x) : Lists xs P ↔ Lists xs Q :=
  and_congr_right fun _ => forall_congr' fun x => iff_congr Iff.rfl (h x)

theorem Lists.map {β : Type} {xs : List α} {P : α → Prop} {Q : β → Prop} {f : α → β} (h : Lists xs P)
    (hinj : ∀ x y, P x → P y → f x = f y → x = y) (hQ : ∀ z, Q z ↔ ∃ x, P x ∧ f x = z) : Lists (xs.map f) Q := by
  refine ⟨h.1.map_on fun x hx y hy heq => hinj x y ((h.2 x).mp hx) ((h.2 y).mp hy) heq, fun z => ?_⟩
  rw [mem_map, hQ]
  exact exists_congr fun x => and_congr_left fun _ => h.2 x

theorem filterMap_map_some {β γ : Type} {f : γ → Option β} {g : α → γ} {k : α → β} (h : ∀ x, f (g x) = some (k x))
    (xs : List α) : (xs.map g).filterMap f = xs.map k := by
  rw [filterMap_map, ← filterMap_eq_map]
  exact filterMap_congr fun x _ => h x

theorem filterMap_map_none {β γ : Type} {f : γ → Option β} {g : α → γ} (h : ∀ x, f (g x) = none)
    (xs : List α) : (xs.map g).filterMap f = [] := by
  rw [filterMap_map]
  exact filterMap_eq_nil_iff.mpr fun x _ => h x

/-! ## The checks over rows -/

section Rows

variable {num : Numbering} {k : Vocab → Nat} {enc : Term → Nat} {dec : Nat → Option Term}
  (hcode : Coding num k enc dec) {rows : List Row} {K : Set Triple}

/-- The rows stand for the triples. -/
structure RowsOf (enc : Term → Nat) (dec : Nat → Option Term) (rows : List Row) (K : Set Triple) : Prop where
  decodes : ∀ row ∈ rows, row.Decodes dec ∧ row.decode (termAt dec) ∈ K
  encodes : ∀ t ∈ K, t.encode enc ∈ rows ∧ t.Coded enc dec

theorem RowsOf.exists_terms (h : RowsOf enc dec rows K) {x p y : Nat} (hrow : ⟨x, p, y⟩ ∈ rows) :
    ∃ X P Y, dec x = some X ∧ dec p = some P ∧ dec y = some Y := by
  have hdec := (h.decodes _ hrow).1
  obtain ⟨X, hX⟩ := Option.ne_none_iff_exists'.mp (hdec 0)
  obtain ⟨P, hP⟩ := Option.ne_none_iff_exists'.mp (hdec 1)
  obtain ⟨Y, hY⟩ := Option.ne_none_iff_exists'.mp (hdec 2)
  exact ⟨X, P, Y, hX, hP, hY⟩

include hcode in
theorem RowsOf.mem_iff (h : RowsOf enc dec rows K) {x p y : Nat} {X P Y : Term} (hx : dec x = some X)
    (hp : dec p = some P) (hy : dec y = some Y) : ⟨x, p, y⟩ ∈ rows ↔ ⟨X, P, Y⟩ ∈ K := by
  constructor
  · intro hrow
    have hin := (h.decodes _ hrow).2
    rwa [Row.decode, termAt_of_some hx, termAt_of_some hp, termAt_of_some hy] at hin
  · intro hin
    have hrow := (h.encodes _ hin).1
    rwa [Triple.encode, hcode.enc_dec _ _ hx, hcode.enc_dec _ _ hp, hcode.enc_dec _ _ hy] at hrow

/-- The terms of three ids. -/
def terms (dec : Nat → Option Term) (b : Nat × Nat × Nat) : Option Term × Option Term × Option Term :=
  (dec b.1, dec b.2.1, dec b.2.2)

/-- Bindings of ids stand for witnesses. -/
structure StandFor (dec : Nat → Option Term) (bs : List (Nat × Nat × Nat))
    (W : Term → Term → Term → Prop) : Prop where
  sound : ∀ b ∈ bs, ∃ t₀ t₁ t₂, terms dec b = (some t₀, some t₁, some t₂) ∧ W t₀ t₁ t₂
  complete : ∀ t₀ t₁ t₂, W t₀ t₁ t₂ → ∃ b ∈ bs, terms dec b = (some t₀, some t₁, some t₂)

include hcode in
theorem dec_injective {i j : Nat} {t : Term} (hi : dec i = some t) (hj : dec j = dec i) : i = j := by
  rw [← hcode.enc_dec i t hi, ← hcode.enc_dec j t (hj.trans hi)]

variable {bs : List (Nat × Nat × Nat)}

include hcode in
theorem StandFor.injective {W : Term → Term → Term → Prop} (h : StandFor dec bs W)
    {b b' : Nat × Nat × Nat} (hb : b ∈ bs) (heq : terms dec b = terms dec b') : b = b' := by
  obtain ⟨t₀, t₁, t₂, hterms, -⟩ := h.sound b hb
  simp only [terms, Prod.mk.injEq] at hterms heq
  exact Prod.ext (dec_injective hcode hterms.1 heq.1.symm) (Prod.ext
    (dec_injective hcode hterms.2.1 heq.2.1.symm) (dec_injective hcode hterms.2.2 heq.2.2.symm))

include hcode in
theorem StandFor.lists {W : Term → Term → Term → Prop} (h : StandFor dec bs W) (hnodup : bs.Nodup) :
    Lists (bs.map (terms dec)) fun key => ∃ t₀ t₁ t₂, W t₀ t₁ t₂ ∧ key = (some t₀, some t₁, some t₂) := by
  refine ⟨hnodup.map_on fun b hb b' _ heq => h.injective hcode hb heq, fun key => ?_⟩
  rw [mem_map]
  constructor
  · rintro ⟨b, hb, rfl⟩
    obtain ⟨t₀, t₁, t₂, hterms, hw⟩ := h.sound b hb
    exact ⟨t₀, t₁, t₂, hw, hterms⟩
  · rintro ⟨t₀, t₁, t₂, hw, rfl⟩
    exact h.complete t₀ t₁ t₂ hw

include hcode in
theorem standFor_asymmetric (h : RowsOf enc dec rows K) (hbs : ∀ p x y, (p, x, y) ∈ bs ↔
      ⟨p, k .rdfType, k .owlAsymmetricProperty⟩ ∈ rows ∧ ⟨x, p, y⟩ ∈ rows ∧ ⟨y, p, x⟩ ∈ rows) :
    StandFor dec bs (Asymmetric K) where
  sound := by
    rintro ⟨p, x, y⟩ hb
    obtain ⟨hdecl, hxy, hyx⟩ := (hbs p x y).mp hb
    obtain ⟨X, P, Y, hX, hP, hY⟩ := h.exists_terms hxy
    refine ⟨P, X, Y, by rw [terms, hP, hX, hY], ?_, ?_, ?_⟩
    · exact (h.mem_iff hcode hP (hcode.dec_vocab _) (hcode.dec_vocab _)).mp hdecl
    · exact (h.mem_iff hcode hX hP hY).mp hxy
    · exact (h.mem_iff hcode hY hP hX).mp hyx
  complete := by
    rintro P X Y ⟨hdecl, hxy, hyx⟩
    obtain ⟨-, hX, hP, hY⟩ := h.encodes _ hxy
    refine ⟨(enc P, enc X, enc Y), (hbs _ _ _).mpr ⟨?_, (h.encodes _ hxy).1, (h.encodes _ hyx).1⟩, ?_⟩
    · exact (h.mem_iff hcode hP (hcode.dec_vocab _) (hcode.dec_vocab _)).mpr hdecl
    · exact congrArg₂ Prod.mk hP (congrArg₂ Prod.mk hX hY)

include hcode in
theorem standFor_irreflexive (h : RowsOf enc dec rows K)
    (hbs : ∀ p x y, (p, x, y) ∈ bs ↔ ⟨p, k .rdfType, k .owlIrreflexiveProperty⟩ ∈ rows ∧ ⟨x, p, y⟩ ∈ rows) :
    StandFor dec (bs.filter fun b => b.2.1 = b.2.2) fun p x y => Irreflexive K p x ∧ x = y where
  sound := by
    rintro ⟨p, x, y⟩ hb
    obtain ⟨hb, heq⟩ := mem_filter.mp hb
    obtain rfl : x = y := of_decide_eq_true heq
    obtain ⟨hdecl, hxx⟩ := (hbs p x x).mp hb
    obtain ⟨X, P, -, hX, hP, -⟩ := h.exists_terms hxx
    refine ⟨P, X, X, by rw [terms, hP, hX], ⟨?_, ?_⟩, rfl⟩
    · exact (h.mem_iff hcode hP (hcode.dec_vocab _) (hcode.dec_vocab _)).mp hdecl
    · exact (h.mem_iff hcode hX hP hX).mp hxx
  complete := by
    rintro P X Y ⟨⟨hdecl, hxx⟩, rfl⟩
    obtain ⟨-, hX, hP, -⟩ := h.encodes _ hxx
    refine ⟨(enc P, enc X, enc X), mem_filter.mpr ⟨(hbs _ _ _).mpr ⟨?_, (h.encodes _ hxx).1⟩, ?_⟩, ?_⟩
    · exact (h.mem_iff hcode hP (hcode.dec_vocab _) (hcode.dec_vocab _)).mpr hdecl
    · exact decide_eq_true rfl
    · exact congrArg₂ Prod.mk hP (congrArg₂ Prod.mk hX hX)

include hcode in
theorem standFor_disjoint (h : RowsOf enc dec rows K) (hbs : ∀ c₁ c₂ x, (c₁, c₂, x) ∈ bs ↔
      ⟨c₁, k .owlDisjointWith, c₂⟩ ∈ rows ∧ ⟨x, k .rdfType, c₁⟩ ∈ rows ∧ ⟨x, k .rdfType, c₂⟩ ∈ rows) :
    StandFor dec bs (DisjointTypes K) where
  sound := by
    rintro ⟨c₁, c₂, x⟩ hb
    obtain ⟨hdecl, h₁, h₂⟩ := (hbs c₁ c₂ x).mp hb
    obtain ⟨C₁, -, C₂, hC₁, -, hC₂⟩ := h.exists_terms hdecl
    obtain ⟨X, -, -, hX, -, -⟩ := h.exists_terms h₁
    refine ⟨C₁, C₂, X, by rw [terms, hC₁, hC₂, hX], ?_, ?_, ?_⟩
    · exact (h.mem_iff hcode hC₁ (hcode.dec_vocab _) hC₂).mp hdecl
    · exact (h.mem_iff hcode hX (hcode.dec_vocab _) hC₁).mp h₁
    · exact (h.mem_iff hcode hX (hcode.dec_vocab _) hC₂).mp h₂
  complete := by
    rintro C₁ C₂ X ⟨hdecl, h₁, h₂⟩
    obtain ⟨-, hC₁, -, hC₂⟩ := h.encodes _ hdecl
    obtain ⟨-, hX, -, -⟩ := h.encodes _ h₁
    refine ⟨(enc C₁, enc C₂, enc X), (hbs _ _ _).mpr ⟨?_, ?_, ?_⟩, ?_⟩
    · exact (h.mem_iff hcode hC₁ (hcode.dec_vocab _) hC₂).mpr hdecl
    · exact (h.mem_iff hcode hX (hcode.dec_vocab _) hC₁).mpr h₁
    · exact (h.mem_iff hcode hX (hcode.dec_vocab _) hC₂).mpr h₂
    · exact congrArg₂ Prod.mk hC₁ (congrArg₂ Prod.mk hC₂ hX)

/-- The terms of a report of `prp-asyp`. -/
def pairTerms (dec : Nat → Option Term) (b : Nat × Nat × Nat) : Option Term × Sym2 (Option Term) :=
  (dec b.1, s(dec b.2.1, dec b.2.2))

theorem pairKey_eq_iff {b b' : Nat × Nat × Nat} :
    pairKey b = pairKey b' ↔ s(b.2.1, b.2.2) = s(b'.2.1, b'.2.2) := by
  rw [Sym2.eq_iff, pairKey, pairKey, Prod.mk.injEq]
  omega

theorem lists_firstsBy_iff {κ γ : Type} [DecidableEq κ] [DecidableEq γ] {key : α → κ} {cls : α → γ} {xs : List α} :
    Lists ((firstsBy key [] xs).map cls) (· ∈ xs.map cls) ↔
      ∀ c ∈ xs.map cls, ((firstsBy key [] xs).map cls).count c = 1 := by
  have hkept : ∀ {c}, c ∈ (firstsBy key [] xs).map cls → c ∈ xs.map cls := by
    intro c hc
    obtain ⟨a, ha, rfl⟩ := mem_map.mp hc
    exact mem_map_of_mem (mem_of_mem_firstsBy ha).1
  constructor
  · rintro ⟨hnodup, hmem⟩ c hc
    exact count_eq_one_of_mem hnodup ((hmem c).mpr hc)
  · intro hcount
    refine ⟨nodup_iff_count_le_one.mpr fun c => ?_, fun c => ⟨hkept, fun hc => ?_⟩⟩
    · by_cases hc : c ∈ (firstsBy key [] xs).map cls
      · exact (hcount c (hkept hc)).le
      · rw [count_eq_zero_of_not_mem hc]
        exact Nat.zero_le 1
    · refine count_pos_iff.mp ?_
      rw [hcount c hc]
      exact Nat.one_pos

theorem Asymmetric.swap {p x y : Term} (h : Asymmetric K p x y) : Asymmetric K p y x := ⟨h.1, h.2.2, h.2.1⟩

theorem StandFor.exists_terms (h : StandFor dec bs (Asymmetric K)) {b : Nat × Nat × Nat} (hb : b ∈ bs) :
    ∃ p x y, (dec b.1 = some p ∧ dec b.2.1 = some x ∧ dec b.2.2 = some y) ∧ Asymmetric K p x y := by
  obtain ⟨p, x, y, heq, hw⟩ := h.sound b hb
  simp only [terms, Prod.mk.injEq] at heq
  exact ⟨p, x, y, heq, hw⟩

theorem StandFor.mem_pairTerms (h : StandFor dec bs (Asymmetric K))
    (key : Option Term × Sym2 (Option Term)) : key ∈ bs.map (pairTerms dec) ↔ AsymmetricKey K key := by
  rw [mem_map]
  constructor
  · rintro ⟨b, hb, rfl⟩
    obtain ⟨p, x, y, ⟨hp, hx, hy⟩, hw⟩ := h.exists_terms hb
    exact ⟨p, x, y, hw, by rw [pairTerms, hp, hx, hy]⟩
  · rintro ⟨p, x, y, hw, rfl⟩
    obtain ⟨b, hb, heq⟩ := h.complete p x y hw
    simp only [terms, Prod.mk.injEq] at heq
    exact ⟨b, hb, by rw [pairTerms, heq.1, heq.2.1, heq.2.2]⟩

include hcode in
theorem lists_asymmetric_iff (h : StandFor dec bs (Asymmetric K)) :
    Lists ((firstsBy pairKey [] bs).map (pairTerms dec)) (AsymmetricKey K) ↔
      ∀ p p' x y, Asymmetric K p x y → Asymmetric K p' x y → p = p' := by
  have hterms := fun b hb => h.exists_terms (b := b) hb
  -- one report has one pair of ids
  have hkey : ∀ a ∈ bs, ∀ b ∈ bs, pairTerms dec a = pairTerms dec b → pairKey a = pairKey b := by
    intro a ha b _ heq
    obtain ⟨p, x, y, ⟨-, hx, hy⟩, -⟩ := hterms a ha
    rw [pairKey_eq_iff, Sym2.eq_iff]
    rcases Sym2.eq_iff.mp (congrArg Prod.snd heq) with ⟨h₁, h₂⟩ | ⟨h₁, h₂⟩
    · exact Or.inl ⟨dec_injective hcode hx h₁.symm, dec_injective hcode hy h₂.symm⟩
    · exact Or.inr ⟨dec_injective hcode hx h₁.symm, dec_injective hcode hy h₂.symm⟩
  rw [← Lists.congr h.mem_pairTerms, lists_firstsBy_iff, firstsBy_once_iff hkey]
  constructor
  · intro hall p p' x y hw hw'
    obtain ⟨b, hb, heq⟩ := h.complete p x y hw
    obtain ⟨b', hb', heq'⟩ := h.complete p' x y hw'
    simp only [terms, Prod.mk.injEq] at heq heq'
    have hx := dec_injective hcode heq.2.1 (heq'.2.1.trans heq.2.1.symm)
    have hy := dec_injective hcode heq.2.2 (heq'.2.2.trans heq.2.2.symm)
    have hsame := congrArg Prod.fst (hall b hb b' hb' (by rw [pairKey, pairKey, hx, hy]))
    exact Option.some.inj (heq.1.symm.trans (hsame.trans heq'.1))
  · intro hapart a ha b hb heq
    obtain ⟨p, x, y, ⟨hp, hx, hy⟩, hw⟩ := hterms a ha
    obtain ⟨p', x', y', ⟨hp', hx', hy'⟩, hw'⟩ := hterms b hb
    have hpair : s(x, y) = s(x', y') := by
      have hids : s(dec a.2.1, dec a.2.2) = s(dec b.2.1, dec b.2.2) := by
        rw [← Sym2.map_mk, ← Sym2.map_mk, pairKey_eq_iff.mp heq]
      rw [hx, hy, hx', hy', Sym2.eq_iff] at hids
      simpa only [Sym2.eq_iff, Option.some.injEq] using hids
    have hprop : p = p' := by
      rcases Sym2.eq_iff.mp hpair with ⟨rfl, rfl⟩ | ⟨rfl, rfl⟩
      · exact hapart p p' _ _ hw hw'
      · exact hapart p p' _ _ hw hw'.swap
    rw [pairTerms, pairTerms, hp, hx, hy, hp', hx', hy', hprop, ← Sym2.map_mk some, ← Sym2.map_mk some, hpair]

include hcode in
/-- Over any triples the reports are exact but for the property of a pair. -/
theorem checked_keys (h : RowsOf enc dec rows K) {out : List Diagnostic} (hout : Checked dec k rows out) :
    (∀ key ∈ out.filterMap Diagnostic.asymmetricKey, AsymmetricKey K key) ∧
      (Lists (out.filterMap Diagnostic.asymmetricKey) (AsymmetricKey K) ↔
        ∀ p p' x y, Asymmetric K p x y → Asymmetric K p' x y → p = p') ∧
      Lists (out.filterMap Diagnostic.irreflexiveKey) (IrreflexiveKey K) ∧
      Lists (out.filterMap Diagnostic.disjointKey) (DisjointKey K) := by
  obtain ⟨as, is, dis, ⟨-, has⟩, ⟨hnodupi, his⟩, ⟨hnodupd, hdis⟩, rfl⟩ := hout
  have hasymmetric := standFor_asymmetric hcode h has
  have hirreflexive := (standFor_irreflexive hcode h his).lists hcode (hnodupi.filter _)
  simp only [filterMap_append]
  rw [filterMap_map_some (g := asymmetricReport dec) (k := pairTerms dec) fun _ => rfl,
    filterMap_map_some (g := irreflexiveReport dec) (k := fun b => (dec b.1, dec b.2.1)) fun _ => rfl,
    filterMap_map_some (g := disjointReport dec) (k := terms dec) fun _ => rfl]
  simp only [filterMap_map_none (f := Diagnostic.asymmetricKey) (g := irreflexiveReport dec) fun _ => rfl,
    filterMap_map_none (f := Diagnostic.asymmetricKey) (g := disjointReport dec) fun _ => rfl,
    filterMap_map_none (f := Diagnostic.irreflexiveKey) (g := asymmetricReport dec) fun _ => rfl,
    filterMap_map_none (f := Diagnostic.irreflexiveKey) (g := disjointReport dec) fun _ => rfl,
    filterMap_map_none (f := Diagnostic.disjointKey) (g := asymmetricReport dec) fun _ => rfl,
    filterMap_map_none (f := Diagnostic.disjointKey) (g := irreflexiveReport dec) fun _ => rfl,
    append_nil, nil_append]
  refine ⟨fun key hkey => ?_, lists_asymmetric_iff hcode hasymmetric, ?_,
    (standFor_disjoint hcode h hdis).lists hcode hnodupd⟩
  · obtain ⟨b, hb, rfl⟩ := mem_map.mp hkey
    exact (hasymmetric.mem_pairTerms _).mp (mem_map_of_mem (mem_of_mem_firstsBy hb).1)
  · -- the two terms of a loop are one
    have hmap := hirreflexive.map (Q := IrreflexiveKey K) (f := fun key => (key.1, key.2.1)) ?_ ?_
    · rwa [map_map] at hmap
    · rintro _ _ ⟨p, x, _, ⟨-, rfl⟩, rfl⟩ ⟨p', x', _, ⟨-, rfl⟩, rfl⟩ heq
      simp only [Prod.mk.injEq] at heq
      rw [heq.1, heq.2]
    · intro key
      constructor
      · rintro ⟨p, x, hw, rfl⟩
        exact ⟨_, ⟨p, x, x, ⟨hw, rfl⟩, rfl⟩, rfl⟩
      · rintro ⟨_, ⟨p, x, _, ⟨hw, rfl⟩, rfl⟩, rfl⟩
        exact ⟨p, x, hw, rfl⟩

end Rows

/-! ## The triples that the checks see -/

/-- The triples of the closure that `infer` has as rows: the seed and what is derived. -/
def Kept (T : Set Triple) : Set Triple := {t | (t ∈ T ∧ Seeded T t) ∨ Derived Entails T t}

/-- The closure of all triples. -/
def Whole (T : Set Triple) : Set Triple := {t | Derivable Entails T t}

/-- The edges of the witnesses are kept, and no pair violates two asymmetric properties. -/
structure Caught (T : Set Triple) : Prop where
  edges : ∀ p x y, Asymmetric (Whole T) p x y → ⟨x, p, y⟩ ∈ Kept T
  loops : ∀ p x, Irreflexive (Whole T) p x → ⟨x, p, x⟩ ∈ Kept T
  apart : ∀ p p' x y, Asymmetric (Whole T) p x y → Asymmetric (Whole T) p' x y → p = p'

section Kept

variable {T : Set Triple}

theorem kept_whole {t : Triple} (h : t ∈ Kept T) : t ∈ Whole T :=
  derivable_iff.mpr (h.imp_left And.left)

theorem kept_of_core {t : Triple} (h : t ∈ Whole T) (hcore : ∃ v ∈ corePredicates, t.predicate = v.term) :
    t ∈ Kept T :=
  (derivable_iff.mp h).imp_left fun ht => ⟨ht, Or.inl hcore⟩

theorem asymmetric_kept (hedges : ∀ p x y, Asymmetric (Whole T) p x y → ⟨x, p, y⟩ ∈ Kept T) {p x y : Term} :
    Asymmetric (Kept T) p x y ↔ Asymmetric (Whole T) p x y := by
  constructor
  · exact fun h => ⟨kept_whole h.1, kept_whole h.2.1, kept_whole h.2.2⟩
  · exact fun h => ⟨kept_of_core h.1 ⟨_, by decide, rfl⟩, hedges p x y h, hedges p y x h.swap⟩

theorem irreflexive_kept (hloops : ∀ p x, Irreflexive (Whole T) p x → ⟨x, p, x⟩ ∈ Kept T) {p x : Term} :
    Irreflexive (Kept T) p x ↔ Irreflexive (Whole T) p x := by
  constructor
  · exact fun h => ⟨kept_whole h.1, kept_whole h.2⟩
  · exact fun h => ⟨kept_of_core h.1 ⟨_, by decide, rfl⟩, hloops p x h⟩

/-- All triples of a `cax-dw` witness have core predicates. -/
theorem disjoint_kept {c₁ c₂ x : Term} : DisjointTypes (Kept T) c₁ c₂ x ↔ DisjointTypes (Whole T) c₁ c₂ x := by
  constructor
  · exact fun h => ⟨kept_whole h.1, kept_whole h.2.1, kept_whole h.2.2⟩
  · exact fun h => ⟨kept_of_core h.1 ⟨_, by decide, rfl⟩, kept_of_core h.2.1 ⟨_, by decide, rfl⟩,
      kept_of_core h.2.2 ⟨_, by decide, rfl⟩⟩

/-- Reports that are exact over what is kept, but for the property of a pair, are exact over
the whole closure just when the witnesses are caught. -/
theorem exact_iff_caught {out : List Diagnostic}
    (hsound : ∀ key ∈ out.filterMap Diagnostic.asymmetricKey, AsymmetricKey (Kept T) key)
    (hiff : Lists (out.filterMap Diagnostic.asymmetricKey) (AsymmetricKey (Kept T)) ↔
      ∀ p p' x y, Asymmetric (Kept T) p x y → Asymmetric (Kept T) p' x y → p = p')
    (hirreflexive : Lists (out.filterMap Diagnostic.irreflexiveKey) (IrreflexiveKey (Kept T)))
    (hdisjoint : Lists (out.filterMap Diagnostic.disjointKey) (DisjointKey (Kept T))) :
    ExactViolations (Whole T) out ↔ Caught T := by
  have hdisjoint' : Lists (out.filterMap Diagnostic.disjointKey) (DisjointKey (Whole T)) := by
    refine (Lists.congr fun key => ?_).mp hdisjoint
    unfold DisjointKey
    simp only [disjoint_kept]
  constructor
  · intro hexact
    -- a witness is reported, so that it was joined from rows
    have hedges : ∀ p x y, Asymmetric (Whole T) p x y → ⟨x, p, y⟩ ∈ Kept T := by
      intro p x y hw
      obtain ⟨p', x', y', hw', heq⟩ := hsound _ ((hexact.asymmetric.2 _).mpr ⟨p, x, y, hw, rfl⟩)
      simp only [Prod.mk.injEq, Option.some.injEq, Sym2.eq_iff] at heq
      rcases heq with ⟨rfl, ⟨rfl, rfl⟩ | ⟨rfl, rfl⟩⟩
      · exact hw'.2.1
      · exact hw'.2.2
    have hkept : Lists (out.filterMap Diagnostic.asymmetricKey) (AsymmetricKey (Kept T)) := by
      refine (Lists.congr fun key => ?_).mp hexact.asymmetric
      unfold AsymmetricKey
      simp only [asymmetric_kept hedges]
    refine ⟨hedges, fun p x hw => ?_, fun p p' x y hw hw' => ?_⟩
    · obtain ⟨p', x', hw', heq⟩ := (hirreflexive.2 _).mp ((hexact.irreflexive.2 _).mpr ⟨p, x, hw, rfl⟩)
      simp only [Prod.mk.injEq, Option.some.injEq] at heq
      rw [heq.1, heq.2]
      exact hw'.2
    · exact hiff.mp hkept p p' x y ((asymmetric_kept hedges).mpr hw) ((asymmetric_kept hedges).mpr hw')
  · rintro ⟨hedges, hloops, hapart⟩
    refine ⟨?_, ?_, hdisjoint'⟩
    · refine (Lists.congr fun key => ?_).mp (hiff.mpr fun p p' x y hw hw' => ?_)
      · unfold AsymmetricKey
        simp only [asymmetric_kept hedges]
      · exact hapart p p' x y ((asymmetric_kept hedges).mp hw) ((asymmetric_kept hedges).mp hw')
    · refine (Lists.congr fun key => ?_).mp hirreflexive
      unfold IrreflexiveKey
      simp only [irreflexive_kept hloops]

end Kept

/-! ## The diagnostics of a run -/

theorem infer_exact_iff {ds : Dataset} {num : Numbering} {live : Finset Quad} {compacted : Finset Row}
    (h : Backs ds num live compacted) (hagree : Concordant (merge live) (stored num compacted)) :
    ∃ quads diagnostics, Lib.Returns (fun fuel => infer fuel ds) (quads, diagnostics) ∧
      (ExactViolations (Whole (merge live)) diagnostics ↔ Caught (merge live)) := by
  obtain ⟨quads, before, violations, after, hret, hother, -, k, enc, dec, rows, hcode, hchecked, hdec, hrows⟩ :=
    infer_parts h (roused_of_concordant hagree)
  simp only [derived_visible_iff hagree] at hrows
  have hof : RowsOf enc dec rows (Kept (merge live)) := by
    constructor
    · intro row hrow
      refine ⟨hdec row hrow, ?_⟩
      rcases (hrows row).mp hrow with ⟨q, hq, hs, rfl⟩ | ⟨-, hd⟩
      · rw [(decode_encode_live hcode h.known hq).2]
        exact Or.inl ⟨⟨q, hq, rfl⟩, hs⟩
      · exact Or.inr hd
    · rintro t (⟨⟨q, hq, rfl⟩, hs⟩ | hd)
      · obtain ⟨hid, hip, hio⟩ := h.known q hq
        exact ⟨(hrows _).mpr (Or.inl ⟨q, hq, hs, rfl⟩), dec_enc hcode hid, dec_enc hcode hip, dec_enc hcode hio⟩
      · have hcoded := coded_of_derived hcode h.known ((derived_visible_iff hagree).mpr hd)
        obtain ⟨hdecodes, heq⟩ := hcoded.decode_encode
        exact ⟨(hrows _).mpr (Or.inr ⟨hdecodes, by rwa [heq]⟩), hcoded⟩
  obtain ⟨hsound, hiff, hirreflexive, hdisjoint⟩ := checked_keys hcode hof hchecked
  refine ⟨quads, _, hret, ?_⟩
  -- the other diagnostics are none of these reports
  have hskip : ∀ {γ : Type} {f : Diagnostic → Option γ}, (∀ d, d.isCheck = false → f d = none) →
      (before ++ violations ++ after).filterMap f = violations.filterMap f := by
    intro γ f hf
    have hb : before.filterMap f = [] :=
      filterMap_eq_nil_iff.mpr fun d hd => hf d (hother d (mem_append_left _ hd))
    have ha : after.filterMap f = [] :=
      filterMap_eq_nil_iff.mpr fun d hd => hf d (hother d (mem_append_right _ hd))
    rw [filterMap_append, filterMap_append, hb, ha, nil_append, append_nil]
  have hasym := hskip (f := Diagnostic.asymmetricKey) fun d hd => by cases d <;> first | rfl | cases hd
  have hirr := hskip (f := Diagnostic.irreflexiveKey) fun d hd => by cases d <;> first | rfl | cases hd
  have hdis := hskip (f := Diagnostic.disjointKey) fun d hd => by cases d <;> first | rfl | cases hd
  exact exact_iff_caught (by rwa [hasym]) (by rwa [hasym]) (by rwa [hirr]) (by rwa [hdis])

section Source

open LoudsStore Dictionary DictCompact

variable {bs : Nat}

/-- In every state reached without pending writes the diagnostics are exact just when the
witnesses are caught. -/
theorem violations_exact_iff (hbs : 0 < bs) (threshold : Option Nat)
    (shapes : GraphRing → PhysicalShape → Option (List (List Nat))) {events : List Event}
    (h : Machine.Meets (step (api bs)) (DictOk bs) (openNew bs threshold) events)
    {s : LoudsStore Dictionary} (hs : (Machine.run (step (api bs)) (openNew bs threshold) events).2 = s)
    (hempty : s.delta.isEmpty = true) :
    ∃ quads diagnostics,
      Returns (fun fuel => infer fuel (storeDataset (quadStore (api bs) shapes s))) (quads, diagnostics) ∧
        (ExactViolations (Whole (liveTriples (api bs) s)) diagnostics ↔ Caught (liveTriples (api bs) s)) := by
  obtain ⟨num, S, compacted, hbacks, hlive, hagree⟩ := compacted_backs shapes hbs threshold h hs hempty
  rw [hlive]
  exact infer_exact_iff hbacks hagree

def aliceHatesBob : Quad :=
  ⟨.namedNode ⟨"http://ex/alice"⟩, ⟨"http://ex/hates"⟩, .namedNode ⟨"http://ex/bob"⟩, .defaultGraph⟩

def bobHatesAlice : Quad :=
  ⟨.namedNode ⟨"http://ex/bob"⟩, ⟨"http://ex/hates"⟩, .namedNode ⟨"http://ex/alice"⟩, .defaultGraph⟩

def hatesEdges : List Quad := [aliceHatesBob, bobHatesAlice]

def hatesAsymmetric : Quad :=
  ⟨.namedNode ⟨"http://ex/hates"⟩, Vocab.rdfType.node, Vocab.owlAsymmetricProperty.term, .defaultGraph⟩

/-- The property is in a class, and all members of the class are asymmetric. -/
def hatesOneWay : Quad :=
  ⟨.namedNode ⟨"http://ex/hates"⟩, Vocab.rdfType.node, .namedNode ⟨"http://ex/OneWay"⟩, .defaultGraph⟩

def oneWayAsymmetric : Quad :=
  ⟨.namedNode ⟨"http://ex/OneWay"⟩, Vocab.rdfsSubClassOf.node, Vocab.owlAsymmetricProperty.term, .defaultGraph⟩

def hatesInClass : List Quad := [hatesOneWay, oneWayAsymmetric]

/-- Insertions, and a compaction. -/
def storing (qs : List Quad) : List Event := qs.map (fun q => .call (.insert q)) ++ [.call .compact]

/-- All the quads of the samples, as triples. -/
def hatesTriples : Set Triple := {t | ∃ q ∈ hatesAsymmetric :: (hatesInClass ++ hatesEdges), t = tripleOf q}

theorem mem_hatesTriples {t : Triple} : t ∈ hatesTriples ↔
    t = tripleOf hatesAsymmetric ∨ (∃ q ∈ hatesInClass, t = tripleOf q) ∨ ∃ q ∈ hatesEdges, t = tripleOf q := by
  simp only [hatesTriples, Set.mem_ofPred_eq, mem_cons, mem_append, or_and_right, exists_or, exists_eq_left]

theorem hates_closed : Closed Entails hatesTriples := by
  intro body a hent hbody
  cases hent with
  | type_subClassOf x c d =>
    have htype := mem_hatesTriples.mp (hbody _ mem_cons_self)
    have hclass := mem_hatesTriples.mp (hbody _ (mem_cons_of_mem _ mem_cons_self))
    simp [hatesAsymmetric, hatesInClass, hatesOneWay, oneWayAsymmetric, hatesEdges, aliceHatesBob, bobHatesAlice,
      tripleOf, Vocab.term, Vocab.node, Subject.toTerm] at htype hclass
    obtain ⟨rfl, rfl⟩ := hclass
    simp only [Term.namedNode.injEq, NamedNode.mk.injEq, and_true] at htype
    -- only the property has a type
    rw [mem_hatesTriples, htype.elim And.left id]
    exact Or.inl rfl
  | subClassOf_trans a b c =>
    have hab := mem_hatesTriples.mp (hbody _ mem_cons_self)
    have hbc := mem_hatesTriples.mp (hbody _ (mem_cons_of_mem _ mem_cons_self))
    simp [hatesAsymmetric, hatesInClass, hatesOneWay, oneWayAsymmetric, hatesEdges, aliceHatesBob, bobHatesAlice,
      tripleOf, Vocab.term, Vocab.node, Subject.toTerm] at hab hbc
    rw [hab.2] at hbc
    simp at hbc
  | _ =>
    have hrule := mem_hatesTriples.mp (hbody _ mem_cons_self)
    simp [hatesAsymmetric, hatesInClass, hatesOneWay, oneWayAsymmetric, hatesEdges, aliceHatesBob, bobHatesAlice,
      tripleOf, Vocab.term, Vocab.node, Subject.toTerm] at hrule

theorem hates_asymmetric {T : Set Triple} (hT : T ⊆ hatesTriples) {p x y : Term} (h : Asymmetric (Whole T) p x y) :
    p = .namedNode ⟨"http://ex/hates"⟩ ∧ ∃ q ∈ hatesEdges, ⟨x, p, y⟩ = tripleOf q := by
  have hin : ∀ t ∈ Whole T, t ∈ hatesTriples := fun t ht => Derivable.mem_of_closed hT hates_closed ht
  have hdecl := mem_hatesTriples.mp (hin _ h.1)
  have hedge := mem_hatesTriples.mp (hin _ h.2.1)
  have hp : p = .namedNode ⟨"http://ex/hates"⟩ := by
    simpa [hatesAsymmetric, hatesInClass, hatesOneWay, oneWayAsymmetric, hatesEdges, aliceHatesBob, bobHatesAlice,
      tripleOf, Vocab.term, Vocab.node, Subject.toTerm] using hdecl
  refine ⟨hp, ?_⟩
  rw [hp] at hedge ⊢
  rcases hedge with hedge | ⟨q, hq, hedge⟩ | hedge
  · simp [hatesAsymmetric, tripleOf, Vocab.node] at hedge
  · revert q
    simp [hatesInClass, hatesOneWay, oneWayAsymmetric, tripleOf, Vocab.node]
  · exact hedge

/-- Declared outright, the property is reported for Alice and Bob. -/
theorem violations_exact_declared :
    ∃ quads diagnostics, Returns (sampleInfer (storing (hatesAsymmetric :: hatesEdges))) (quads, diagnostics) ∧
      (some (.namedNode ⟨"http://ex/hates"⟩),
        s(some (.namedNode ⟨"http://ex/alice"⟩), some (.namedNode ⟨"http://ex/bob"⟩))) ∈
          diagnostics.filterMap Diagnostic.asymmetricKey := by
  have hmeets : Machine.Meets (step (api sourceBlockSize)) (fun s e =>
      (stepCompactsAt (api sourceBlockSize) s e).all (fitsBlock sourceBlockSize) = true)
      (openNew sourceBlockSize none) (storing (hatesAsymmetric :: hatesEdges)) := by
    decide +kernel
  have hread : readAll (api sourceBlockSize) (sampleState (storing (hatesAsymmetric :: hatesEdges))) =
      some ((hatesAsymmetric :: hatesEdges).map Quad.stored) := by
    decide +kernel
  obtain ⟨quads, diagnostics, hret, hiff⟩ := violations_exact_iff (by decide) none (fun _ _ => none)
    (hmeets.imp fun s e he => dictOk_of_fitsBlock he) (s := sampleState _) rfl (by decide +kernel)
  rw [liveTriples_of_readAll hread] at hiff
  have hsub : {t | ∃ q ∈ hatesAsymmetric :: hatesEdges, t = tripleOf q} ⊆ hatesTriples := by
    rintro t ⟨q, hq, rfl⟩
    refine ⟨q, ?_, rfl⟩
    revert q
    decide
  have hin : ∀ q ∈ hatesAsymmetric :: hatesEdges,
      tripleOf q ∈ Whole {t | ∃ q ∈ hatesAsymmetric :: hatesEdges, t = tripleOf q} :=
    fun q hq => .base ⟨q, hq, rfl⟩
  have hexact := hiff.mpr
    { edges := by
        intro p x y hw
        obtain ⟨rfl, q, hq, heq⟩ := hates_asymmetric hsub hw
        rw [heq]
        exact Or.inl ⟨⟨q, mem_cons_of_mem _ hq, rfl⟩, Or.inr ⟨(.owlAsymmetricProperty, "prp-asyp"), by decide,
          hatesAsymmetric, mem_cons_self, by rw [← heq]; rfl⟩⟩
      loops := by
        intro p x hw
        have hdecl := mem_hatesTriples.mp (Derivable.mem_of_closed hsub hates_closed hw.1)
        simp [hatesAsymmetric, hatesInClass, hatesOneWay, oneWayAsymmetric, hatesEdges,
          aliceHatesBob, bobHatesAlice,
          tripleOf, Vocab.term, Vocab.node] at hdecl
      apart := fun p p' x y hw hw' => (hates_asymmetric hsub hw).1.trans (hates_asymmetric hsub hw').1.symm }
  refine ⟨quads, diagnostics, hret, (hexact.asymmetric.2 _).mpr ⟨_, _, _, ⟨?_, ?_, ?_⟩, rfl⟩⟩
  · exact hin hatesAsymmetric (by decide)
  · exact hin aliceHatesBob (by decide)
  · exact hin bobHatesAlice (by decide)

/-- Declared through a class, it is derived to be asymmetric, and not reported. -/
theorem violations_missed :
    ∃ quads diagnostics, Returns (sampleInfer (storing (hatesInClass ++ hatesEdges))) (quads, diagnostics) ∧
      Asymmetric (Whole (liveTriples (api sourceBlockSize) (sampleState (storing (hatesInClass ++ hatesEdges)))))
        (.namedNode ⟨"http://ex/hates"⟩) (.namedNode ⟨"http://ex/alice"⟩) (.namedNode ⟨"http://ex/bob"⟩) ∧
      ¬ExactViolations (Whole (liveTriples (api sourceBlockSize)
        (sampleState (storing (hatesInClass ++ hatesEdges))))) diagnostics := by
  have hmeets : Machine.Meets (step (api sourceBlockSize)) (fun s e =>
      (stepCompactsAt (api sourceBlockSize) s e).all (fitsBlock sourceBlockSize) = true)
      (openNew sourceBlockSize none) (storing (hatesInClass ++ hatesEdges)) := by
    decide +kernel
  have hread : readAll (api sourceBlockSize) (sampleState (storing (hatesInClass ++ hatesEdges))) =
      some ((hatesInClass ++ hatesEdges).map Quad.stored) := by
    decide +kernel
  obtain ⟨num, S, compacted, hbacks, hlive, hagree⟩ := compacted_backs (fun _ _ => none) (by decide) none
    (hmeets.imp fun s e he => dictOk_of_fitsBlock he) (s := sampleState _) rfl (by decide +kernel)
  obtain ⟨quads, diagnostics, hret, hiff⟩ := infer_exact_iff hbacks hagree
  rw [← hlive] at hiff
  rw [liveTriples_of_readAll hread] at hiff ⊢
  have hsub : {t | ∃ q ∈ hatesInClass ++ hatesEdges, t = tripleOf q} ⊆ hatesTriples := by
    rintro t ⟨q, hq, rfl⟩
    exact ⟨q, mem_cons_of_mem _ hq, rfl⟩
  have hin : ∀ q ∈ hatesInClass ++ hatesEdges,
      tripleOf q ∈ Whole {t | ∃ q ∈ hatesInClass ++ hatesEdges, t = tripleOf q} :=
    fun q hq => .base ⟨q, hq, rfl⟩
  have hwitness : Asymmetric (Whole {t | ∃ q ∈ hatesInClass ++ hatesEdges, t = tripleOf q})
      (.namedNode ⟨"http://ex/hates"⟩) (.namedNode ⟨"http://ex/alice"⟩) (.namedNode ⟨"http://ex/bob"⟩) := by
    refine ⟨Derivable.step (Entails.type_subClassOf _ (.namedNode ⟨"http://ex/OneWay"⟩) _) fun t ht => ?_,
      hin aliceHatesBob (by decide), hin bobHatesAlice (by decide)⟩
    rcases mem_cons.mp ht with rfl | ht
    · exact hin hatesOneWay (by decide)
    · rw [mem_singleton.mp ht]
      exact hin oneWayAsymmetric (by decide)
  refine ⟨quads, diagnostics, hret, hwitness, fun hexact => ?_⟩
  -- the edge is neither seeded nor derived
  rcases (hiff.mp hexact).edges _ _ _ hwitness with ⟨-, ⟨v, hv, hp⟩ | ⟨c, hc, q, hq, heq⟩⟩ | ⟨body, hent, hbody⟩
  · have hnone : ∀ v ∈ corePredicates, (.namedNode ⟨"http://ex/hates"⟩ : Term) ≠ v.term := by decide
    exact hnone v hv hp
  · have hnone : ∀ c ∈ declaredClasses, ∀ q ∈ hatesInClass ++ hatesEdges,
        (⟨.namedNode ⟨"http://ex/hates"⟩, Vocab.rdfType.term, c.1.term⟩ : Triple) ≠ tripleOf q := by decide
    exact hnone c hc q hq heq
  · have hall : ∀ t ∈ body, t ∈ hatesTriples := fun t ht => (hbody t ht).mem_of_closed hsub hates_closed
    generalize hgoal : (⟨.namedNode ⟨"http://ex/alice"⟩, .namedNode ⟨"http://ex/hates"⟩, .namedNode ⟨"http://ex/bob"⟩⟩ :
      Triple) = t at hent
    cases hent
    all_goals
      have hrule := mem_hatesTriples.mp (hall _ mem_cons_self)
      simp [hatesAsymmetric, hatesInClass, hatesOneWay, oneWayAsymmetric, hatesEdges, aliceHatesBob, bobHatesAlice,
      tripleOf, Vocab.term, Vocab.node, Subject.toTerm] at hrule hgoal

end Source

end Nova.Reasoning
