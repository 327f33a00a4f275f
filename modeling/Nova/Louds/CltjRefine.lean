import Nova.Louds.Cltj

/-!
# Reading the succinct ring

`Shows` says that an iterator runs over a level of an abstract trie, `ShowsTrie` that a
succinct trie is one. From them: an iterator seeks as the level does (`Shows.seekC`), a
loop visits the entries in their order (`Shows.whileNotEnd`), and every reader of a ring
that `Refines` an abstract one returns what the abstract one returns, without a panic.
-/

namespace Nova

open Nova.Lib Nova.DictCompact List

namespace CltjTrie

variable {x : CltjTrie} {α : Type}

/-- The labels from `pos` to `hi` are the local numbers of the keys of `l`, and `R` holds
at each of them. -/
structure Shows (x : CltjTrie) (R : CltjTrieIter → α → Prop) (it : CltjTrieIter) (l : Level α) : Prop where
  stop : it.pos + l.length = it.hi + 1
  entry : ∀ i e, l[i]? = some e →
    (x.vocabSlice it.depth)[x.louds.labelAt (it.pos + i)]? = some e.1 ∧ R { it with pos := it.pos + i } e.2

/-- Below the current key is what `S` says. -/
def Opens (x : CltjTrie) (S : CltjTrieIter → α → Prop) (it : CltjTrieIter) (c : α) : Prop :=
  ∃ child, x.openConcrete it = .ok (some child) ∧ S child c

/-- The levels of a trie, from the leaves up. -/
def Shows₂ (x : CltjTrie) : CltjTrieIter → Level Unit → Prop := Shows x fun _ _ => True

def Shows₁ (x : CltjTrie) : CltjTrieIter → Level (Level Unit) → Prop := Shows x (Opens x (Shows₂ x))

def Shows₀ (x : CltjTrie) : CltjTrieIter → Trie3 → Prop := Shows x (Opens x (Shows₁ x))

/-- The ids of a depth are sorted, and their numbers fit in 32 bits. -/
structure GoodVocab (vocab : List Nat) : Prop where
  sorted : vocab.Pairwise (· < ·)
  fits : vocab.length ≤ 2 ^ 32

/-- The binary search separates the ids below `v` from the others. -/
theorem GoodVocab.point_iff {vocab : List Nat} (h : GoodVocab vocab) (v i w : Nat)
    (hw : vocab[i]? = some w) :
    w < v ↔ i < partitionPoint (fun k => (vocab[k]?).any fun w => decide (w < v)) 0 vocab.length := by
  have hlt := (List.getElem?_eq_some_iff.mp hw).1
  have hspec := partitionPoint_spec (fun k => (vocab[k]?).any fun w => decide (w < v)) 0 vocab.length (by
    intro i j _ hij hj hp
    rcases Nat.eq_or_lt_of_le hij with rfl | hlt
    · exact hp
    · have hpair := pairwise_iff_getElem.mp h.sorted i j (by omega) hj hlt
      rw [getElem?_eq_getElem hj, Option.any_some, decide_eq_true_eq] at hp
      rw [getElem?_eq_getElem (by omega), Option.any_some, decide_eq_true_eq]
      omega)
  constructor
  · intro hkey
    by_contra hge
    have hfalse := hspec.2 i (Nat.le_of_not_lt hge) hlt
    rw [hw, Option.any_some, decide_eq_false_iff_not] at hfalse
    exact hfalse hkey
  · intro hpoint
    have htrue := hspec.1 i (Nat.zero_le i) hpoint
    rw [hw, Option.any_some, decide_eq_true_eq] at htrue
    exact htrue

namespace Shows

variable {R : CltjTrieIter → α → Prop} {it : CltjTrieIter} {l : Level α}

theorem atEnd_eq (h : Shows x R it l) : atEnd (some it) = l.isEmpty := by
  have hstop := h.stop
  cases l with
  | nil =>
    rw [length_nil] at hstop
    simp only [atEnd, isEmpty_nil, CltjTrieIter.atEndC_iff]
    omega
  | cons e l =>
    rw [length_cons] at hstop
    simp only [atEnd, isEmpty_cons, CltjTrieIter.atEndC, decide_eq_false_iff_not]
    omega

theorem drop (h : Shows x R it l) {i : Nat} (hi : i ≤ l.length) :
    Shows x R { it with pos := it.pos + i } (l.drop i) where
  stop := by
    have hstop := h.stop
    simp only [length_drop]
    omega
  entry := by
    intro j e he
    rw [getElem?_drop] at he
    have hentry := h.entry (i + j) e he
    rw [← Nat.add_assoc] at hentry
    exact hentry

section Cons

variable {e : Nat × α}

theorem keyC_eq (h : Shows x R it (e :: l)) : x.keyC it = .ok e.1 := by
  have hentry := (h.entry 0 e rfl).1
  rw [Nat.add_zero] at hentry
  rw [keyC, hentry]

theorem here (h : Shows x R it (e :: l)) : R it e.2 := (h.entry 0 e rfl).2

theorem advance (h : Shows x R it (e :: l)) : Shows x R it.advanceC l := by
  have hstop := h.stop
  rw [length_cons] at hstop
  rw [CltjTrieIter.advanceC_of_le (by omega)]
  exact h.drop (i := 1) (by simp)

end Cons

theorem whileNotEnd_eq {β : Type} (h : Shows x R it l) {body : TrieIter → Except Panic (List β)}
    {f : Nat × α → List β}
    (hbody : ∀ it e, e ∈ l → x.keyC it = .ok e.1 → R it e.2 → body (some it) = .ok (f e)) :
    whileNotEnd body (some it) = .ok (l.flatMap f) := by
  induction l generalizing it with
  | nil =>
    have hend := h.atEnd_eq
    rw [whileNotEnd, if_pos (by rw [hend]; rfl)]
    rfl
  | cons e l ih =>
    have hend := h.atEnd_eq
    have hrest := ih h.advance fun it' e' he' => hbody it' e' (mem_cons_of_mem e he')
    rw [whileNotEnd, if_neg (by rw [hend]; simp), hbody it e mem_cons_self h.keyC_eq h.here]
    show (whileNotEnd body (some it.advanceC) >>= _) = _
    rw [hrest]
    rfl

/-! ## Seeking -/

theorem dropWhile_eq_drop {p : α → Bool} {l : List α} {n : Nat}
    (hfront : ∀ i a, i < n → l[i]? = some a → p a = true)
    (hstop : ∀ a, l[n]? = some a → p a = false) : l.dropWhile p = l.drop n := by
  induction l generalizing n with
  | nil => simp
  | cons a l ih =>
    cases n with
    | zero =>
      have ha := hstop a rfl
      rw [dropWhile_cons_of_neg (by rw [ha]; simp), drop_zero]
    | succ n =>
      have ha := hfront 0 a (Nat.succ_pos n) rfl
      rw [dropWhile_cons_of_pos ha, drop_succ_cons]
      exact ih (fun i b hi hb => hfront (i + 1) b (Nat.succ_lt_succ hi) hb) hstop

theorem labelAt_lt (hvocab : GoodVocab (x.vocabSlice it.depth)) (h : Shows x R it l) (hinc : l.Increasing)
    {i j : Nat} (hij : i < j) (hj : j < l.length) :
    x.louds.labelAt (it.pos + i) < x.louds.labelAt (it.pos + j) := by
  have hi : i < l.length := by omega
  have hkeys : l[i].1 < l[j].1 := pairwise_iff_getElem.mp hinc i j hi hj hij
  rcases List.getElem?_eq_some_iff.mp (h.entry i _ (getElem?_eq_getElem hi)).1 with ⟨hli, hvi⟩
  rcases List.getElem?_eq_some_iff.mp (h.entry j _ (getElem?_eq_getElem hj)).1 with ⟨hlj, hvj⟩
  rcases Nat.lt_trichotomy (x.louds.labelAt (it.pos + i)) (x.louds.labelAt (it.pos + j)) with hlt | heq | hgt
  · exact hlt
  · simp only [heq] at hvi
    omega
  · have hback := pairwise_iff_getElem.mp hvocab.sorted _ _ hlj hli hgt
    omega

/-- A seek on the bits goes where the seek on the level goes. -/
theorem seekC_eq (hvocab : GoodVocab (x.vocabSlice it.depth)) (h : Shows x R it l) (hinc : l.Increasing)
    (v : Nat) : ∃ it', x.seekC it v = .ok it' ∧ Shows x R it' (l.seek v) := by
  cases l with
  | nil =>
    have hend : it.atEndC = true := h.atEnd_eq
    exact ⟨it, by rw [seekC, if_pos hend], h⟩
  | cons e l =>
    have hend : it.atEndC = false := h.atEnd_eq
    have hstop := h.stop
    rw [seekC, hend, if_neg Bool.false_ne_true, h.keyC_eq]
    show ∃ it', (if v ≤ e.1 then Except.ok it else _) = _ ∧ _
    by_cases hle : v ≤ e.1
    · refine ⟨it, if_pos hle, ?_⟩
      rw [Level.seek, dropWhile_cons_of_neg (by simpa using hle)]
      exact h
    rw [if_neg hle]
    -- the target is looked up in the vocabulary, then its number in the labels
    have hpoint := hvocab.point_iff v
    generalize partitionPoint (fun k => ((x.vocabSlice it.depth)[k]?).any fun w => decide (w < v)) 0
      (x.vocabSlice it.depth).length = target at hpoint ⊢
    have hbelow : ∀ i e', (e :: l)[i]? = some e' → (e'.1 < v ↔ x.louds.labelAt (it.pos + i) < target) :=
      fun i e' he' => hpoint _ _ (h.entry i e' he').1
    by_cases hall : (x.vocabSlice it.depth).length ≤ target
    · -- every id is below `v`
      refine ⟨_, if_pos hall, ?_⟩
      have hseek : Level.seek (e :: l) v = (e :: l).drop (e :: l).length := by
        refine dropWhile_eq_drop ?_ ?_
        · intro i e' _ he'
          have hlt := (List.getElem?_eq_some_iff.mp (h.entry i e' he').1).1
          exact decide_eq_true ((hbelow i e' he').mpr (by omega))
        · intro e' he'
          rw [getElem?_eq_none (Nat.le_refl _)] at he'
          cases he'
      rw [hseek, show it.hi + 1 = it.pos + (e :: l).length from hstop.symm]
      exact h.drop (Nat.le_refl _)
    · refine ⟨_, if_neg hall, ?_⟩
      have hfits := hvocab.fits
      rw [show asU32 target = target from Nat.mod_eq_of_lt (by omega)]
      rw [length_cons] at hstop
      have hmono : ∀ j k, it.pos ≤ j → j ≤ k → k ≤ it.hi → x.louds.labelAt j ≤ x.louds.labelAt k := by
        intro j k hj hjk hk
        rcases Nat.eq_or_lt_of_le hjk with rfl | hlt
        · exact Nat.le_refl _
        · have hlabels := labelAt_lt hvocab h hinc (show j - it.pos < k - it.pos by omega)
            (by rw [length_cons]; omega)
          rw [show it.pos + (j - it.pos) = j from by omega,
            show it.pos + (k - it.pos) = k from by omega] at hlabels
          exact Nat.le_of_lt hlabels
      have hleap := LoudsTrie.leap_spec (c := target) (show it.pos ≤ it.hi + 1 by omega) hmono
      generalize x.louds.leap it.pos it.hi target = p at hleap ⊢
      rcases hleap with ⟨hlo, hhi, hfront, hfound⟩
      have hseek : Level.seek (e :: l) v = (e :: l).drop (p - it.pos) := by
        refine dropWhile_eq_drop ?_ ?_
        · intro i e' hi he'
          exact decide_eq_true ((hbelow i e' he').mpr (hfront _ (by omega) (by omega)))
        · intro e' he'
          have hlt := (List.getElem?_eq_some_iff.mp he').1
          rw [length_cons] at hlt
          have hlabel := hfound (by omega)
          have hiff := hbelow _ e' he'
          rw [show it.pos + (p - it.pos) = p from by omega] at hiff
          exact decide_eq_false (fun hkey => by have hkey := hiff.mp hkey; omega)
      have hdrop := h.drop (i := p - it.pos) (by rw [length_cons]; omega)
      rw [show it.pos + (p - it.pos) = p from by omega] at hdrop
      rw [hseek]
      exact hdrop

/-- What `seek` finds, and `open` below it. -/
theorem seekOpen_eq {S : CltjTrieIter → α → Prop} (hvocab : GoodVocab (x.vocabSlice it.depth))
    (h : Shows x (Opens x S) it l) (hinc : l.Increasing) (v : Nat) :
    (l.find v = none ∧ x.seekOpen (some it) v = .ok none) ∨
      ∃ c child, l.find v = some c ∧ x.seekOpen (some it) v = .ok (some (some child)) ∧ S child c := by
  rcases h.seekC_eq hvocab hinc v with ⟨it', hseek, hshows⟩
  have hend := h.atEnd_eq
  have hend' := hshows.atEnd_eq
  cases l with
  | nil =>
    left
    refine ⟨rfl, ?_⟩
    rw [seekOpen, hend]
    rfl
  | cons e l =>
    have hunfold : x.seekOpen (some it) v =
        if atEnd (some it') then .ok none
        else x.keyC it' >>= fun key => if key ≠ v then .ok none else (x.openConcrete it').map some := by
      rw [seekOpen, hend, isEmpty_cons, if_neg Bool.false_ne_true, seek, hseek]
      rfl
    rw [hunfold, hend', Level.find]
    cases hfound : Level.seek (e :: l) v with
    | nil =>
      left
      exact ⟨by simp [Level.key], rfl⟩
    | cons e' rest =>
      rw [hfound] at hshows
      rw [hshows.keyC_eq, isEmpty_cons, if_neg Bool.false_ne_true]
      show _ ∨ ∃ c child, _ ∧ (if e'.1 ≠ v then _ else _) = _ ∧ _
      by_cases hkey : e'.1 = v
      · right
        rcases hshows.here with ⟨child, hopen, hchild⟩
        refine ⟨e'.2, child, ?_, ?_, hchild⟩
        · simp [Level.key, Level.descend, hkey]
        · rw [if_neg (by simpa using hkey), hopen]
          rfl
      · left
        refine ⟨by simp [Level.key, hkey], ?_⟩
        show (if e'.1 ≠ v then _ else _) = _
        rw [if_pos hkey]

end Shows

/-! ## Tries -/

/-- The trie shows `t`, and its vocabularies are in order. -/
structure ShowsTrie (x : CltjTrie) (t : Trie3) : Prop where
  vocab : ∀ d, GoodVocab (x.vocabSlice d)
  sorted : t.Sorted
  root : ∃ it, x.iterD0 = some it ∧ Shows₀ x it t

namespace ShowsTrie

variable {t : Trie3}

variable {it : CltjTrieIter}

theorem enumerateSuffix₂_eq {l : Level Unit} (h : Shows₂ x it l) (c₀ c₁ : Nat) (order : SortOrder) :
    x.enumerateSuffix₂ (some it) c₀ c₁ order = .ok (GraphRing.enumerateSuffix₂ l c₀ c₁ order) := by
  rw [GraphRing.enumerateSuffix₂, map_eq_flatMap]
  refine Shows.whileNotEnd_eq h ?_
  intro it e _ hkey _
  show (x.keyC it >>= _) = _
  rw [hkey]
  rfl

variable {l : Level (Level Unit)}

theorem enumerateSuffix₁_eq (h : Shows₁ x it l) (c₀ : Nat) (order : SortOrder) :
    x.enumerateSuffix₁ (some it) c₀ order = .ok (GraphRing.enumerateSuffix₁ l c₀ order) := by
  refine Shows.whileNotEnd_eq h ?_
  intro it e _ hkey hbelow
  rcases hbelow with ⟨child, hopen, hchild⟩
  show (x.keyC it >>= fun c₁ => x.openConcrete it >>= fun child => _) = _
  rw [hkey, hopen]
  exact enumerateSuffix₂_eq hchild c₀ e.1 order

theorem enumerateSuffix₀_eq (h : Shows₀ x it t) (order : SortOrder) :
    x.enumerateSuffix₀ (some it) order = .ok (GraphRing.enumerateSuffix₀ t order) := by
  refine Shows.whileNotEnd_eq h ?_
  intro it e _ hkey hbelow
  rcases hbelow with ⟨child, hopen, hchild⟩
  show (x.keyC it >>= fun c₀ => x.openConcrete it >>= fun child => _) = _
  rw [hkey, hopen]
  exact enumerateSuffix₁_eq hchild e.1 order

section

variable (h : ShowsTrie x t)
include h

theorem collectAll_eq : x.collectAll = .ok t.rows := by
  rcases h.root with ⟨it, hroot, hshows⟩
  have hall := enumerateSuffix₀_eq hshows .spo
  have hrows : GraphRing.enumerateSuffix₀ t .spo = t.rows := by
    simp [GraphRing.enumerateSuffix₀, GraphRing.enumerateSuffix₁, GraphRing.enumerateSuffix₂, Trie3.rows,
      Trie3.rows₂, map_flatMap, Function.comp_def, SortOrder.toSpo]
  show x.enumerateSuffix₀ x.iterD0 .spo = _
  rw [hroot, hall, hrows]

theorem find_increasing {v : Nat} (hfind : t.find v = some l) :
    l.Increasing := h.sorted.mid _ ((Level.find_eq_some h.sorted.top).mp hfind)

theorem seekOpen_root (v : Nat) : (t.find v = none ∧ x.seekOpen x.iterD0 v = .ok none) ∨
      ∃ l child, t.find v = some l ∧ x.seekOpen x.iterD0 v = .ok (some (some child)) ∧ Shows₁ x child l := by
  rcases h.root with ⟨it, hroot, hshows⟩
  rw [hroot]
  exact Shows.seekOpen_eq (h.vocab it.depth) hshows h.sorted.top v

/-- The second one, below the first. -/
theorem seekOpen_child {v : Nat} {child : CltjTrieIter}
    (hfind : t.find v = some l) (hshows : Shows₁ x child l) (w : Nat) :
    (l.find w = none ∧ x.seekOpen (some child) w = .ok none) ∨
      ∃ l' child', l.find w = some l' ∧ x.seekOpen (some child) w = .ok (some (some child')) ∧
        Shows₂ x child' l' :=
  Shows.seekOpen_eq (h.vocab child.depth) hshows (h.find_increasing hfind) w

theorem contains_eq (s p o : Nat) : x.contains s p o =
    .ok (match t.find s with
      | none => false
      | some it =>
        match it.find p with
        | none => false
        | some it => (it.find o).isSome) := by
  unfold contains
  rcases h.seekOpen_root s with ⟨hfind, hseek⟩ | ⟨l, child, hfind, hseek, hshows⟩
  · rw [hfind, hseek]
    rfl
  rw [hfind, hseek]
  show (x.seekOpen (some child) p >>= _) = _
  rcases h.seekOpen_child hfind hshows p with ⟨hfind', hseek'⟩ | ⟨l', child', hfind', hseek', hshows'⟩
  · simp only [hfind', hseek']
    rfl
  simp only [hfind', hseek']
  show (if atEnd (some child') = true then _ else x.seek (some child') o >>= _) = _
  -- at the leaves only the key counts
  have hinc : l'.Increasing := h.sorted.bottom _ ((Level.find_eq_some h.sorted.top).mp hfind) _
    ((Level.find_eq_some (h.find_increasing hfind)).mp hfind')
  rcases Shows.seekC_eq (h.vocab child'.depth) hshows' hinc o with ⟨it', hleaf, hrest⟩
  have hend := Shows.atEnd_eq hshows'
  have hend' := hrest.atEnd_eq
  rw [hend, seek, hleaf]
  cases l' with
  | nil => rfl
  | cons e l' =>
    show (if atEnd (some it') = true then _ else x.keyC it' >>= _) = _
    rw [hend', Level.find]
    cases hfound : Level.seek (e :: l') o with
    | nil => rfl
    | cons e' rest =>
      rw [hfound] at hrest
      rw [isEmpty_cons, if_neg Bool.false_ne_true, hrest.keyC_eq]
      by_cases hkey : e'.1 = o
      · simp [Level.key, Level.descend, hkey]
      · simp [Level.key, hkey]

end

end ShowsTrie

end CltjTrie

namespace Cltj

open CltjTrie

/-- Either there are no triples, or each order shows the trie of that order. -/
inductive DataRefines : Option CltjData → Option RingData → Prop where
  | empty : DataRefines none none
  | tries {d : CltjData} {d' : RingData} (h : ∀ ord, ShowsTrie (d.tries ord) (d'.tries ord)) :
    DataRefines (some d) (some d')

/-- The succinct ring holds the triples of the abstract one. -/
structure Refines (r : GraphRing) (g : Nova.GraphRing) : Prop where
  n_eq : r.n = g.n
  data : DataRefines r.data g.data

namespace Refines

variable {r : GraphRing} {g : Nova.GraphRing}

theorem collectAll_eq (h : Refines r g) (ord : SortOrder) :
    r.collectAll ord = .ok (g.data.elim [] fun d => (d.tries ord).rows) := by
  have hdata := h.data
  unfold GraphRing.collectAll
  generalize r.data = d, g.data = d' at hdata ⊢
  cases hdata with
  | empty => rfl
  | tries htries => exact (htries ord).collectAll_eq

theorem contains_eq (h : Refines r g) (s p o : Nat) : r.contains s p o = .ok (g.contains s p o) := by
  have hdata := h.data
  unfold GraphRing.contains Nova.GraphRing.contains
  generalize r.data = d, g.data = d' at hdata ⊢
  cases hdata with
  | empty => rfl
  | tries htries => exact (htries .spo).contains_eq s p o

theorem matchOne_eq {d : CltjData} {d' : RingData} {order : SortOrder}
    (h : ShowsTrie (d.tries order) (d'.tries order)) (v : Nat) :
    GraphRing.matchOne d order v = .ok (Nova.GraphRing.matchOne d' order v) := by
  unfold GraphRing.matchOne Nova.GraphRing.matchOne
  rcases h.seekOpen_root v with ⟨hfind, hseek⟩ | ⟨l, child, hfind, hseek, hshows⟩
  · simp only [seekPrefix, hfind, hseek]
    rfl
  · simp only [seekPrefix, hfind, hseek]
    exact ShowsTrie.enumerateSuffix₁_eq hshows v order

theorem matchTwo_eq {d : CltjData} {d' : RingData} {order : SortOrder}
    (h : ShowsTrie (d.tries order) (d'.tries order)) (v w : Nat) :
    GraphRing.matchTwo d order v w = .ok (Nova.GraphRing.matchTwo d' order v w) := by
  unfold GraphRing.matchTwo Nova.GraphRing.matchTwo
  rcases h.seekOpen_root v with ⟨hfind, hseek⟩ | ⟨l, child, hfind, hseek, hshows⟩
  · simp only [seekPrefix, hfind, hseek]
    rfl
  have hfront : (d.tries order).seekPrefix (d.tries order).iterD0 [v, w] =
      (d.tries order).seekOpen (some child) w >>= fun found => .ok found := by
    simp only [seekPrefix, hseek]
    show ((d.tries order).seekOpen (some child) w >>= _) = _
    congr 1
    funext found
    cases found <;> rfl
  simp only [hfront, hfind]
  rcases h.seekOpen_child hfind hshows w with ⟨hfind', hseek'⟩ | ⟨l', child', hfind', hseek', hshows'⟩
  · simp only [hfind', hseek']
    rfl
  · simp only [hfind', hseek']
    exact ShowsTrie.enumerateSuffix₂_eq hshows' v w order

theorem matchTriples_eq (h : Refines r g) (s p o : Option Nat) :
    r.matchTriples s p o = .ok (g.matchTriples s p o) := by
  have hcontains := h.contains_eq
  have hdata := h.data
  unfold GraphRing.matchTriples Nova.GraphRing.matchTriples
  generalize r.data = d, g.data = d' at hdata ⊢
  cases hdata with
  | empty => rfl
  | tries htries =>
    cases s <;> cases p <;> cases o
    case none.none.none =>
      rcases (htries .spo).root with ⟨it, hroot, hshows⟩
      simp only
      rw [hroot]
      exact ShowsTrie.enumerateSuffix₀_eq hshows .spo
    case some.some.some sv pv ov =>
      simp only
      rw [hcontains]
      show (if g.contains sv pv ov = true then _ else _) = _
      split <;> rfl
    all_goals first | exact matchOne_eq (htries _) _ | exact matchTwo_eq (htries _) _ _

end Refines

end Cltj

end Nova
