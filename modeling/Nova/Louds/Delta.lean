import Nova.Core.Ids
import Mathlib.Data.Finset.Card
import Mathlib.Data.Prod.Lex
import Mathlib.Tactic.Linarith

/-!
# The delta

The ordered write buffer of the store: packed quad keys, each marked as inserted
or as removed since the last merge. The key range computed for a pattern holds
exactly the keys that agree with its bound prefix (`mem_graphRange`); that it
misses no key of the pattern is what the reader relies on
(`graphRange_covers`).
-/

namespace Nova

open List

/-- `quad_key → is_insert`: `true` is an insert, `false` a tombstone. -/
structure Delta where
  inner : Std.TreeMap Nat Bool compare

namespace Delta

def new : Delta := ⟨∅⟩

def insertKey (d : Delta) (key : Nat) : Delta := ⟨d.inner.insert key true⟩

def tombstoneKey (d : Delta) (key : Nat) : Delta := ⟨d.inner.insert key false⟩

def get (d : Delta) (key : Nat) : Option Bool := d.inner[key]?

def len (d : Delta) : Nat := d.inner.size

def isEmpty (d : Delta) : Bool := d.inner.isEmpty

def insertCount (d : Delta) : Nat := (d.inner.toList.filter fun e => e.2).length

def tombstoneCount (d : Delta) : Nat := (d.inner.toList.filter fun e => !e.2).length

def clear (_ : Delta) : Delta := new

def iter (d : Delta) : List (Nat × Bool) := d.inner.toList

/-- `range(lo..=hi)`. -/
def rangeInclusive (d : Delta) (lo hi : Nat) : List (Nat × Bool) :=
  d.inner.toList.filter fun e => lo ≤ e.1 ∧ e.1 ≤ hi

/-- Bounds that hold every key of graph `g` with the given fields; trailing
unbound fields are filled with ones. -/
def graphRange (g : GraphId) (s p o : Option TermId) : Nat × Nat :=
  let gBase := g.toNat <<< 120
  match s, p, o with
  | some sv, some pv, some ov =>
    let key := packQuad g sv pv ov
    (key, key)
  | some sv, some pv, none =>
    let lo := gBase ||| (sv.asU64 <<< 80) ||| (pv.asU64 <<< 40)
    (lo, lo ||| ((1 <<< 40) - 1))
  | some sv, none, _ =>
    let lo := gBase ||| (sv.asU64 <<< 80)
    (lo, lo ||| ((1 <<< 80) - 1))
  | none, _, _ => (gBase, gBase ||| ((1 <<< 120) - 1))

/-! ## Entries -/

variable (d : Delta)

@[simp] theorem get_new (k : Nat) : new.get k = none := by
  simp [get, new]

@[simp] theorem get_insertKey (k k' : Nat) :
    (d.insertKey k).get k' = if k = k' then some true else d.get k' := by
  simp [get, insertKey, Std.TreeMap.getElem?_insert]

@[simp] theorem get_tombstoneKey (k k' : Nat) :
    (d.tombstoneKey k).get k' = if k = k' then some false else d.get k' := by
  simp [get, tombstoneKey, Std.TreeMap.getElem?_insert]

theorem mem_iter {d : Delta} {k : Nat} {b : Bool} : (k, b) ∈ d.iter ↔ d.get k = some b :=
  Std.TreeMap.mem_toList_iff_getElem?_eq_some

theorem iter_keys_nodup : (d.iter.map Prod.fst).Nodup := by
  rw [iter, Std.TreeMap.map_fst_toList_eq_keys]
  exact Std.TreeMap.nodup_keys

/-! ## The two kinds of entries as sets -/

/-- The keys marked `b`. -/
def marked (b : Bool) : Finset Nat := ((d.iter.filter fun e => e.2 = b).map Prod.fst).toFinset

theorem mem_marked {d : Delta} {b : Bool} {k : Nat} : k ∈ d.marked b ↔ d.get k = some b := by
  simp [marked, ← mem_iter]

theorem marked_disjoint : Disjoint (d.marked true) (d.marked false) := by
  rw [Finset.disjoint_left]
  intro k hk hk'
  rw [mem_marked] at hk hk'
  rw [hk] at hk'
  cases hk'

theorem card_marked (b : Bool) : (d.marked b).card = (d.iter.filter fun e => e.2 = b).length := by
  have hnodup : ((d.iter.filter fun e => e.2 = b).map Prod.fst).Nodup :=
    d.iter_keys_nodup.sublist (filter_sublist.map Prod.fst)
  rw [marked, toFinset_card_of_nodup hnodup, length_map]

theorem insertCount_eq : d.insertCount = (d.marked true).card := by
  rw [card_marked, insertCount, iter]
  simp

theorem tombstoneCount_eq : d.tombstoneCount = (d.marked false).card := by
  rw [card_marked, tombstoneCount, iter]
  simp

/-! ## Ranges -/

theorem mem_rangeInclusive {d : Delta} {lo hi k : Nat} {b : Bool} :
    (k, b) ∈ d.rangeInclusive lo hi ↔ d.get k = some b ∧ lo ≤ k ∧ k ≤ hi := by
  rw [rangeInclusive, mem_filter, ← mem_iter, iter]
  simp

/-- A field that is bound has its value. -/
def Agrees {α : Type} (bound : Option α) (a : α) : Prop := ∀ b, bound = some b → a = b

instance {α : Type} [DecidableEq α] (bound : Option α) (a : α) : Decidable (Agrees bound a) :=
  decidable_of_iff (bound.all fun b => a = b) (by cases bound <;> simp [Agrees])

@[simp] theorem agrees_none {α : Type} (a : α) : Agrees none a := nofun

@[simp] theorem agrees_some {α : Type} {a b : α} : Agrees (some b) a ↔ a = b := by
  simp [Agrees]

/-- The key agrees with the bound prefix of a pattern: a field after an
unbound one is not looked at. -/
def InPrefix (g : GraphId) (s p o : Option TermId) (key : Nat) : Prop :=
  ∃ sId pId oId, key = packQuad g sId pId oId ∧
    Agrees s sId ∧ (s.isSome → Agrees p pId ∧ (p.isSome → Agrees o oId))

variable {key : Nat}

theorem between_ones_iff {a n : Nat} : a <<< n ≤ key ∧ key ≤ a <<< n ||| (1 <<< n - 1) ↔ key / 2 ^ n = a := by
  have hpos := Nat.two_pow_pos n
  have hones : 1 <<< n - 1 < 2 ^ n := by
    rw [Nat.one_shiftLeft]
    exact Nat.sub_lt hpos Nat.one_pos
  rw [← Nat.shiftLeft_add_eq_or_of_lt hones, Nat.one_shiftLeft, Nat.shiftLeft_eq,
    Nat.div_eq_iff hpos]
  omega

variable {g : GraphId}

theorem exists_packQuad (h : key / 2 ^ 120 = g.toNat) : ∃ s p o, key = packQuad g s p o := by
  have hfield : ∀ n : Nat, n % 2 ^ 40 ≤ maxTermId := by
    intro n
    rw [maxTermId]
    omega
  refine ⟨⟨_, hfield (key / 2 ^ 80)⟩, ⟨_, hfield (key / 2 ^ 40)⟩, ⟨_, hfield key⟩, ?_⟩
  simp only [packQuad_eq]
  omega

theorem graphRange_none (g : GraphId) (p o : Option TermId) :
    graphRange g none p o = (g.toNat <<< 120, g.toNat <<< 120 ||| (1 <<< 120 - 1)) := by
  rfl

theorem graphRange_s (g : GraphId) (s : TermId) (o : Option TermId) :
    graphRange g (some s) none o =
      ((g.toNat * 2 ^ 40 + s.asU64) <<< 80, (g.toNat * 2 ^ 40 + s.asU64) <<< 80 ||| (1 <<< 80 - 1)) := by
  rw [← shiftLeft_or_field g.toNat 80 s.lt_two_pow]
  rfl

theorem graphRange_sp (g : GraphId) (s p : TermId) :
    graphRange g (some s) (some p) none =
      (((g.toNat * 2 ^ 40 + s.asU64) * 2 ^ 40 + p.asU64) <<< 40,
        ((g.toNat * 2 ^ 40 + s.asU64) * 2 ^ 40 + p.asU64) <<< 40 ||| (1 <<< 40 - 1)) := by
  rw [← shiftLeft_or_field _ 40 p.lt_two_pow, ← shiftLeft_or_field g.toNat 80 s.lt_two_pow]
  rfl

theorem graphRange_spo (g : GraphId) (s p o : TermId) :
    graphRange g (some s) (some p) (some o) = (packQuad g s p o, packQuad g s p o) := by
  rfl

variable {s p o : Option TermId}

theorem packQuad_mem_graphRange {sId pId oId : TermId} :
    (graphRange g s p o).1 ≤ packQuad g sId pId oId ∧ packQuad g sId pId oId ≤ (graphRange g s p o).2 ↔
      Agrees s sId ∧ (s.isSome → Agrees p pId ∧ (p.isSome → Agrees o oId)) := by
  have hs := sId.lt_two_pow
  have hp := pId.lt_two_pow
  have ho := oId.lt_two_pow
  have heq : ∀ a b : TermId, a = b ↔ a.asU64 = b.asU64 :=
    fun a b => ⟨congrArg _, TermId.eq_of_asU64⟩
  cases s with
  | none =>
    rw [graphRange_none, between_ones_iff, packQuad_eq]
    simp only [agrees_none, Option.isSome_none, Bool.false_eq_true, false_implies, and_true, iff_true]
    omega
  | some s =>
    have hs' := s.lt_two_pow
    cases p with
    | none =>
      rw [graphRange_s, between_ones_iff, packQuad_eq]
      simp only [agrees_some, agrees_none, Option.isSome_none, Bool.false_eq_true, false_implies,
        implies_true, and_true, heq]
      omega
    | some p =>
      have hp' := p.lt_two_pow
      cases o with
      | none =>
        rw [graphRange_sp, between_ones_iff, packQuad_eq]
        simp only [agrees_some, agrees_none, Option.isSome_some, forall_const, and_true, heq]
        omega
      | some o =>
        have ho' := o.lt_two_pow
        rw [graphRange_spo, packQuad_eq, packQuad_eq]
        simp only [agrees_some, Option.isSome_some, forall_const, heq]
        omega

theorem graph_of_mem_graphRange
    (h : (graphRange g s p o).1 ≤ key ∧ key ≤ (graphRange g s p o).2) : key / 2 ^ 120 = g.toNat := by
  cases s with
  | none => rwa [graphRange_none, between_ones_iff] at h
  | some s =>
    have hs := s.lt_two_pow
    cases p with
    | none =>
      rw [graphRange_s, between_ones_iff] at h
      omega
    | some p =>
      have hp := p.lt_two_pow
      cases o with
      | none =>
        rw [graphRange_sp, between_ones_iff] at h
        omega
      | some o =>
        have ho := o.lt_two_pow
        rw [graphRange_spo, packQuad_eq] at h
        omega

/-- The range holds exactly the keys that agree with the bound prefix. -/
theorem mem_graphRange :
    (graphRange g s p o).1 ≤ key ∧ key ≤ (graphRange g s p o).2 ↔ InPrefix g s p o key := by
  constructor
  · intro h
    rcases exists_packQuad (graph_of_mem_graphRange h) with ⟨sId, pId, oId, rfl⟩
    exact ⟨sId, pId, oId, rfl, packQuad_mem_graphRange.mp h⟩
  · rintro ⟨sId, pId, oId, rfl, h⟩
    exact packQuad_mem_graphRange.mpr h

/-- The range of a pattern covers every key that matches it. -/
theorem graphRange_covers (g : GraphId) {sb pb ob : Option TermId} {s p o : TermId}
    (hs : Agrees sb s) (hp : Agrees pb p) (ho : Agrees ob o) :
    (graphRange g sb pb ob).1 ≤ packQuad g s p o ∧ packQuad g s p o ≤ (graphRange g sb pb ob).2 :=
  packQuad_mem_graphRange.mpr ⟨hs, fun _ => ⟨hp, fun _ => ho⟩⟩

/-- The four ids in the order in which quads are compared. -/
def lexKey (g : GraphId) (s p o : TermId) : Nat ×ₗ Nat ×ₗ Nat ×ₗ Nat :=
  toLex (g.toNat, toLex (s.asU64, toLex (p.asU64, o.asU64)))

theorem packQuad_lt_iff {g' : GraphId} {s s' p p' o o' : TermId} :
    packQuad g s p o < packQuad g' s' p' o' ↔ lexKey g s p o < lexKey g' s' p' o' := by
  have hs := s.lt_two_pow
  have hs' := s'.lt_two_pow
  have hp := p.lt_two_pow
  have hp' := p'.lt_two_pow
  have ho := o.lt_two_pow
  have ho' := o'.lt_two_pow
  rw [packQuad_eq, packQuad_eq]
  simp only [lexKey, Prod.Lex.toLex_lt_toLex]
  omega

/-- Packed keys are read back, are ordered as the quads are, and are selected by
the prefix of a pattern, up to the greatest id of every field. -/
theorem packedKeys_exact :
    (∀ g s p o, unpackQuad (packQuad g s p o) = (g, s, p, o)) ∧
      (∀ g s p o g' s' p' o',
        packQuad g s p o < packQuad g' s' p' o' ↔ lexKey g s p o < lexKey g' s' p' o') ∧
      ∀ (d : Delta) (g : GraphId) (s p o : Option TermId) (key : Nat) (b : Bool),
        (key, b) ∈ d.rangeInclusive (graphRange g s p o).1 (graphRange g s p o).2 ↔
          d.get key = some b ∧ InPrefix g s p o key := by
  refine ⟨unpackQuad_packQuad, fun g s p o g' s' p' o' => packQuad_lt_iff, ?_⟩
  intro d g s p o key b
  rw [mem_rangeInclusive, mem_graphRange]

end Delta

end Nova
