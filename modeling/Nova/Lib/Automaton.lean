import Mathlib.Logic.Relation
import Mathlib.Order.Nat

/-!
# Automata that walk a relation

An automaton moves a node and a state together: an edge leads to a state, and relates the
node before it to the node after it. Pieces are put together with edges that leave the
node where it is.

`Recognises`: from its start state, a piece reaches its accepting state at exactly the
nodes that a relation gives.

* `recognises_leaf`, `Recognises.seq`, `Recognises.alt`, `Recognises.wrap`: the pieces of
  an expression.
* `Recognises.reach_iff`: what a piece that recognises a relation reaches.
* `reflTransGen_or_iff`: steps of two kinds, those of one kind taken together.

That a piece reaches no more is an invariant of its steps, which says for every state how
the node is related to the first one (`Explains`).
-/

namespace Nova.Lib

open Relation List

/-- What edges do: the state that an edge leads to, and how it relates the nodes. One kind
of edge keeps the node. -/
structure Moves (E N : Type) where
  target : E → Nat
  rel : E → N → N → Prop
  eps : Nat → E
  target_eps : ∀ q, target (eps q) = q
  rel_eps : ∀ q x y, rel (eps q) x y ↔ x = y

/-- A part of an automaton: its states are those from `first` up to `next`. -/
structure Piece (E : Type) where
  first : Nat
  start : Nat
  accept : Nat
  next : Nat
  edges : List (Nat × E)

/-- The edges with the state that they leave. -/
def Moves.Step {E N : Type} (M : Moves E N) (edges : List (Nat × E)) (a b : N × Nat) : Prop :=
  ∃ e, (a.2, e) ∈ edges ∧ M.target e = b.2 ∧ M.rel e a.1 b.1

/-- No state belongs to two pieces that have their states one after the other. -/
def Piece.Owns {E : Type} (p : Piece E) (q : Nat) : Prop := p.first ≤ q ∧ q < p.next

section

variable {E N : Type} {M : Moves E N}

variable {edges : List (Nat × E)}

theorem Moves.Step.mono {edges' : List (Nat × E)} (h : edges ⊆ edges') {a b : N × Nat} (hab : M.Step edges a b) :
    M.Step edges' a b := by
  obtain ⟨e, he, hstep⟩ := hab
  exact ⟨e, h he, hstep⟩

theorem Moves.reach_mono {edges' : List (Nat × E)} (h : edges ⊆ edges') {a b : N × Nat}
    (hab : ReflTransGen (M.Step edges) a b) : ReflTransGen (M.Step edges') a b :=
  ReflTransGen.mono (fun _ _ hstep => Moves.Step.mono h hstep) _ _ hab

theorem Moves.step_eps {q q' : Nat} (h : (q, M.eps q') ∈ edges) (x : N) : M.Step edges (x, q) (x, q') :=
  ⟨M.eps q', h, M.target_eps q', (M.rel_eps q' x x).mpr rfl⟩

/-- For every state of the piece, how the node in it is related to the first node. -/
structure Piece.Explains (M : Moves E N) (p : Piece E) (R : N → N → Prop) (I : Nat → N → N → Prop) : Prop where
  start : ∀ x, I p.start x x
  accept : ∀ x y, I p.accept x y → R x y
  owned : ∀ q x y, I q x y → p.Owns q
  step : ∀ q e, (q, e) ∈ p.edges → ∀ x y z, I q x y → M.rel e y z → I (M.target e) x z

/-- The piece relates the node in its start state to exactly the right nodes in its
accepting state, by steps inside the piece. -/
structure Recognises (M : Moves E N) (p : Piece E) (R : N → N → Prop) : Prop where
  start : p.Owns p.start
  accept : p.Owns p.accept
  owned : ∀ q e, (q, e) ∈ p.edges → p.Owns q ∧ p.Owns (M.target e)
  complete : ∀ x y, R x y → ReflTransGen (M.Step p.edges) (x, p.start) (y, p.accept)
  sound : ∃ I, p.Explains M R I

variable {R : N → N → Prop}

theorem Recognises.congr {p : Piece E} {R' : N → N → Prop} (h : Recognises M p R) (hiff : ∀ x y, R x y ↔ R' x y) :
    Recognises M p R' := by
  have hrel : R = R' := by
    funext x y
    exact propext (hiff x y)
  rwa [← hrel]

/-- A piece reaches its accepting state at the nodes of its relation. -/
theorem Recognises.reach_iff {p : Piece E} (h : Recognises M p R) (x y : N) :
    ReflTransGen (M.Step p.edges) (x, p.start) (y, p.accept) ↔ R x y := by
  constructor
  · intro hreach
    obtain ⟨I, hI⟩ := h.sound
    have hinv : ∀ b, ReflTransGen (M.Step p.edges) (x, p.start) b → I b.2 x b.1 := by
      intro b hb
      induction hb with
      | refl => exact hI.start x
      | tail _ hstep ih =>
        obtain ⟨e, he, htarget, hrel⟩ := hstep
        rw [← htarget]
        exact hI.step _ e he x _ _ ih hrel
    exact hI.accept x y (hinv _ hreach)
  · exact h.complete x y

/-- One edge between two new states. -/
def Piece.leaf (n : Nat) (edge : Nat → E) : Piece E := ⟨n, n, n + 1, n + 2, [(n, edge (n + 1))]⟩

theorem recognises_leaf {n : Nat} {edge : Nat → E} (htarget : M.target (edge (n + 1)) = n + 1)
    (hrel : ∀ x y, M.rel (edge (n + 1)) x y ↔ R x y) : Recognises M (.leaf n edge) R where
  start := ⟨le_rfl, show n < n + 2 by omega⟩
  accept := ⟨Nat.le_succ n, Nat.lt_succ_self (n + 1)⟩
  owned := by
    intro q e he
    obtain ⟨rfl, rfl⟩ := Prod.mk.inj (mem_singleton.mp he)
    rw [htarget]
    exact ⟨⟨le_rfl, show q < q + 2 by omega⟩, Nat.le_succ q, Nat.lt_succ_self (q + 1)⟩
  complete := by
    intro x y hxy
    exact .single ⟨edge (n + 1), mem_singleton_self _, htarget, (hrel x y).mpr hxy⟩
  sound := by
    -- the node is the first one, or one edge away
    refine ⟨fun q x y => q = n ∧ x = y ∨ q = n + 1 ∧ R x y, ⟨fun x => .inl ⟨rfl, rfl⟩, ?_, ?_, ?_⟩⟩
    · intro x y h
      rcases h with ⟨hq, -⟩ | ⟨-, hxy⟩
      · exact absurd hq (Nat.succ_ne_self n)
      · exact hxy
    · intro q x y h
      rcases h with ⟨rfl, -⟩ | ⟨rfl, -⟩
      · exact ⟨le_rfl, show q < q + 2 by omega⟩
      · exact ⟨Nat.le_succ n, Nat.lt_succ_self (n + 1)⟩
    · intro q e he x y z h hyz
      obtain ⟨rfl, rfl⟩ := Prod.mk.inj (mem_singleton.mp he)
      rcases h with ⟨-, rfl⟩ | ⟨hq, -⟩
      · exact .inr ⟨htarget, (hrel _ _).mp hyz⟩
      · exact absurd hq.symm (Nat.succ_ne_self _)

/-- One piece after another. -/
def Piece.seq (eps : Nat → E) (a b : Piece E) : Piece E :=
  ⟨a.first, a.start, b.accept, b.next, a.edges ++ b.edges ++ [(a.accept, eps b.start)]⟩

/-- A word of the first piece and then one of the second. -/
theorem Recognises.seq {a b : Piece E} {S : N → N → Prop} (ha : Recognises M a R) (hb : Recognises M b S)
    (hnext : b.first = a.next) : Recognises M (a.seq M.eps b) (Relation.Comp R S) := by
  have hfirst : a.first < a.next := ha.start.1.trans_lt ha.start.2
  have hlast : b.first < b.next := hb.start.1.trans_lt hb.start.2
  have hleft : ∀ q, a.Owns q → (a.seq M.eps b).Owns q := by
    intro q hq
    exact ⟨hq.1, hq.2.trans (hnext ▸ hlast)⟩
  have hright : ∀ q, b.Owns q → (a.seq M.eps b).Owns q := by
    intro q hq
    have hle := hq.1
    refine ⟨?_, hq.2⟩
    show a.first ≤ q
    omega
  have hapart : ∀ q, a.Owns q → ¬ b.Owns q := by
    intro q hq hq'
    have hlt := hq.2
    have hle := hq'.1
    omega
  constructor
  · exact hleft _ ha.start
  · exact hright _ hb.accept
  · intro q e he
    rcases mem_append.mp he with he | he
    · rcases mem_append.mp he with he | he
      · exact ⟨hleft _ (ha.owned q e he).1, hleft _ (ha.owned q e he).2⟩
      · exact ⟨hright _ (hb.owned q e he).1, hright _ (hb.owned q e he).2⟩
    · obtain ⟨rfl, rfl⟩ := Prod.mk.inj (mem_singleton.mp he)
      rw [M.target_eps]
      exact ⟨hleft _ ha.accept, hright _ hb.start⟩
  · rintro x y ⟨z, hxz, hzy⟩
    have hsuba : a.edges ⊆ (a.seq M.eps b).edges := fun e he => mem_append_left _ (mem_append_left _ he)
    have hsubb : b.edges ⊆ (a.seq M.eps b).edges := fun e he => mem_append_left _ (mem_append_right _ he)
    have hlink : M.Step (a.seq M.eps b).edges (z, a.accept) (z, b.start) :=
      Moves.step_eps (mem_append_right _ (mem_singleton_self _)) z
    exact ((Moves.reach_mono hsuba (ha.complete x z hxz)).tail hlink).trans (Moves.reach_mono hsubb (hb.complete z y hzy))
  · obtain ⟨I, hI⟩ := ha.sound
    obtain ⟨J, hJ⟩ := hb.sound
    -- in the second piece, the first one has been passed through
    refine ⟨fun q x y => I q x y ∨ ∃ z, R x z ∧ J q z y, ⟨fun x => .inl (hI.start x), ?_, ?_, ?_⟩⟩
    · intro x y h
      rcases h with h | ⟨z, hxz, h⟩
      · exact absurd hb.accept (hapart _ (hI.owned _ _ _ h))
      · exact ⟨z, hxz, hJ.accept z y h⟩
    · intro q x y h
      rcases h with h | ⟨z, -, h⟩
      · exact hleft q (hI.owned q x y h)
      · exact hright q (hJ.owned q z y h)
    · intro q e he x y z h hyz
      rcases mem_append.mp he with he | he
      · rcases mem_append.mp he with he | he
        · rcases h with h | ⟨w, -, h⟩
          · exact .inl (hI.step q e he x y z h hyz)
          · exact absurd (hJ.owned _ _ _ h) (hapart _ (ha.owned q e he).1)
        · rcases h with h | ⟨w, hxw, h⟩
          · exact absurd (hb.owned q e he).1 (hapart _ (hI.owned _ _ _ h))
          · exact .inr ⟨w, hxw, hJ.step q e he w y z h hyz⟩
      · obtain ⟨rfl, rfl⟩ := Prod.mk.inj (mem_singleton.mp he)
        rw [M.rel_eps] at hyz
        rw [M.target_eps, ← hyz]
        rcases h with h | ⟨w, -, h⟩
        · exact .inr ⟨y, hI.accept x y h, hJ.start y⟩
        · exact absurd (hJ.owned _ _ _ h) (hapart _ ha.accept)

/-- One piece or another, between two new states. -/
def Piece.alt (eps : Nat → E) (n : Nat) (a b : Piece E) : Piece E :=
  ⟨n, n, n + 1, b.next, a.edges ++ b.edges ++
    [(n, eps a.start), (n, eps b.start), (a.accept, eps (n + 1)), (b.accept, eps (n + 1))]⟩

/-- A word of either piece: both start behind the new start and end before the new end. -/
theorem Recognises.alt {n : Nat} {a b : Piece E} {S : N → N → Prop} (ha : Recognises M a R) (hb : Recognises M b S)
    (hfirst : a.first = n + 2) (hnext : b.first = a.next) :
    Recognises M (.alt M.eps n a b) fun x y => R x y ∨ S x y := by
  have hnew : ∀ q, n ≤ q → q < b.next → (Piece.alt M.eps n a b).Owns q := fun q hq hq' => ⟨hq, hq'⟩
  have hleft : ∀ q, a.Owns q → n + 2 ≤ q ∧ q < b.first := by
    intro q hq
    have hle := hq.1
    have hlt := hq.2
    omega
  have hright : ∀ q, b.Owns q → b.first ≤ q ∧ q < b.next := fun q hq => hq
  have hedge : ∀ q e, (q, e) ∈ (Piece.alt M.eps n a b).edges → (q, e) ∈ a.edges ∨ (q, e) ∈ b.edges ∨
      q = n ∧ e = M.eps a.start ∨ q = n ∧ e = M.eps b.start ∨ q = a.accept ∧ e = M.eps (n + 1) ∨
        q = b.accept ∧ e = M.eps (n + 1) := by
    intro q e he
    simpa [Piece.alt, or_assoc] using he
  have haccept := hleft _ ha.accept
  have haccept' := hright _ hb.accept
  have hstart := hleft _ ha.start
  have hstart' := hright _ hb.start
  constructor
  · exact hnew n le_rfl (by omega)
  · exact hnew (n + 1) (by omega) (by omega)
  · intro q e he
    rcases hedge q e he with he | he | ⟨rfl, rfl⟩ | ⟨rfl, rfl⟩ | ⟨rfl, rfl⟩ | ⟨rfl, rfl⟩
    · have hq := hleft _ (ha.owned q e he).1
      have hq' := hleft _ (ha.owned q e he).2
      exact ⟨hnew _ (by omega) (by omega), hnew _ (by omega) (by omega)⟩
    · have hq := hright _ (hb.owned q e he).1
      have hq' := hright _ (hb.owned q e he).2
      exact ⟨hnew _ (by omega) (by omega), hnew _ (by omega) (by omega)⟩
    all_goals
      rw [M.target_eps]
      exact ⟨hnew _ (by omega) (by omega), hnew _ (by omega) (by omega)⟩
  · intro x y hxy
    have hextra : ∀ e ∈ [(n, M.eps a.start), (n, M.eps b.start), (a.accept, M.eps (n + 1)),
      (b.accept, M.eps (n + 1))],
        e ∈ (Piece.alt M.eps n a b).edges := fun e he => mem_append_right _ he
    rcases hxy with hxy | hxy
    · have hsub : a.edges ⊆ (Piece.alt M.eps n a b).edges :=
        fun e he => mem_append_left _ (mem_append_left _ he)
      have hin : M.Step (Piece.alt M.eps n a b).edges (x, n) (x, a.start) := Moves.step_eps (hextra _ (by simp)) x
      have hout : M.Step (Piece.alt M.eps n a b).edges (y, a.accept) (y, n + 1) :=
        Moves.step_eps (hextra _ (by simp)) y
      exact .head hin ((Moves.reach_mono hsub (ha.complete x y hxy)).tail hout)
    · have hsub : b.edges ⊆ (Piece.alt M.eps n a b).edges :=
        fun e he => mem_append_left _ (mem_append_right _ he)
      have hin : M.Step (Piece.alt M.eps n a b).edges (x, n) (x, b.start) := Moves.step_eps (hextra _ (by simp)) x
      have hout : M.Step (Piece.alt M.eps n a b).edges (y, b.accept) (y, n + 1) :=
        Moves.step_eps (hextra _ (by simp)) y
      exact .head hin ((Moves.reach_mono hsub (hb.complete x y hxy)).tail hout)
  · obtain ⟨I, hI⟩ := ha.sound
    obtain ⟨J, hJ⟩ := hb.sound
    refine ⟨fun q x y => q = n ∧ x = y ∨ I q x y ∨ J q x y ∨ q = n + 1 ∧ (R x y ∨ S x y),
      ⟨fun x => .inl ⟨rfl, rfl⟩, ?_, ?_, ?_⟩⟩
    · intro x y h
      have haccepted : (Piece.alt M.eps n a b).accept = n + 1 := rfl
      rcases h with ⟨hq, -⟩ | h | h | ⟨-, hxy⟩
      · omega
      · have hq := hleft _ (hI.owned _ _ _ h)
        omega
      · have hq := hright _ (hJ.owned _ _ _ h)
        omega
      · exact hxy
    · intro q x y h
      rcases h with ⟨hq, -⟩ | h | h | ⟨hq, -⟩
      · exact hnew q (by omega) (by omega)
      · have hq := hleft _ (hI.owned _ _ _ h)
        exact hnew q (by omega) (by omega)
      · have hq := hright _ (hJ.owned _ _ _ h)
        exact hnew q (by omega) (by omega)
      · exact hnew q (by omega) (by omega)
    · intro q e he x y z h hyz
      -- the state tells which of the four the node is in
      have hstate : ∀ q, q = n ∨ a.Owns q ∨ b.Owns q ∨ q = n + 1 →
          (q = n ∧ x = y ∨ I q x y ∨ J q x y ∨ q = n + 1 ∧ (R x y ∨ S x y)) →
            (q = n → x = y) ∧ (a.Owns q → I q x y) ∧ (b.Owns q → J q x y) := by
        intro q hq h
        have hl := hleft q
        have hr := hright q
        rcases h with ⟨hn, hxy⟩ | h | h | ⟨hn, -⟩
        · exact ⟨fun _ => hxy, fun ho => absurd (hl ho) (by omega), fun ho => absurd (hr ho) (by omega)⟩
        · have ho := hleft q (hI.owned q x y h)
          exact ⟨fun hn => absurd ho (by omega), fun _ => h, fun ho' => absurd (hr ho') (by omega)⟩
        · have ho := hright q (hJ.owned q x y h)
          exact ⟨fun hn => absurd ho (by omega), fun ho' => absurd (hl ho') (by omega), fun _ => h⟩
        · exact ⟨fun hn' => absurd hn (by omega), fun ho => absurd (hl ho) (by omega),
            fun ho => absurd (hr ho) (by omega)⟩
      rcases hedge q e he with he | he | ⟨hq, rfl⟩ | ⟨hq, rfl⟩ | ⟨hq, rfl⟩ | ⟨hq, rfl⟩
      · have ho := (ha.owned q e he).1
        exact .inr (.inl (hI.step q e he x y z ((hstate q (.inr (.inl ho)) h).2.1 ho) hyz))
      · have ho := (hb.owned q e he).1
        exact .inr (.inr (.inl (hJ.step q e he x y z ((hstate q (.inr (.inr (.inl ho))) h).2.2 ho) hyz)))
      all_goals
        rw [M.rel_eps] at hyz
        rw [M.target_eps, ← hyz]
        rw [hq] at h
      · rw [(hstate n (.inl rfl) h).1 rfl]
        exact .inr (.inl (hI.start y))
      · rw [(hstate n (.inl rfl) h).1 rfl]
        exact .inr (.inr (.inl (hJ.start y)))
      · have hin := (hstate _ (.inr (.inl ha.accept)) h).2.1 ha.accept
        exact .inr (.inr (.inr ⟨rfl, .inl (hI.accept x y hin)⟩))
      · have hin := (hstate _ (.inr (.inr (.inl hb.accept))) h).2.2 hb.accept
        exact .inr (.inr (.inr ⟨rfl, .inr (hJ.accept x y hin)⟩))

/-- A piece that may be passed over, or passed through again, between two new states. -/
def Piece.wrap (eps : Nat → E) (skip loop : Bool) (n : Nat) (a : Piece E) : Piece E :=
  ⟨n, n, n + 1, a.next, a.edges ++ (n, eps a.start) :: ((if skip then [(n, eps (n + 1))] else []) ++
    ((if loop then [(a.accept, eps a.start)] else []) ++ [(a.accept, eps (n + 1))]))⟩

/-- What has been passed through before the last time. -/
def Rounds (loop : Bool) (R : N → N → Prop) (x y : N) : Prop := if loop then ReflTransGen R x y else x = y

theorem Rounds.refl (loop : Bool) (R : N → N → Prop) (x : N) : Rounds loop R x x := by
  cases loop with
  | true => exact ReflTransGen.refl
  | false => rfl

/-- `?`, `*` and `+` of a piece: skipping it, and going back to its start. -/
theorem Recognises.wrap {n : Nat} {a : Piece E} (ha : Recognises M a R) (skip loop : Bool)
    (hfirst : a.first = n + 2) :
    Recognises M (.wrap M.eps skip loop n a) fun x y => skip = true ∧ x = y ∨ ∃ z, Rounds loop R x z ∧ R z y := by
  have hinside : ∀ q, a.Owns q → n + 2 ≤ q ∧ q < a.next := by
    intro q hq
    rw [← hfirst]
    exact hq
  have hnew : ∀ q, n ≤ q → q < a.next → (Piece.wrap M.eps skip loop n a).Owns q := fun q hq hq' => ⟨hq, hq'⟩
  have hedge : ∀ q e, (q, e) ∈ (Piece.wrap M.eps skip loop n a).edges ↔ (q, e) ∈ a.edges ∨
      q = n ∧ e = M.eps a.start ∨ skip = true ∧ q = n ∧ e = M.eps (n + 1) ∨
        loop = true ∧ q = a.accept ∧ e = M.eps a.start ∨ q = a.accept ∧ e = M.eps (n + 1) := by
    intro q e
    cases skip <;> cases loop <;> simp [Piece.wrap]
  have haccept := hinside _ ha.accept
  have hstart := hinside _ ha.start
  constructor
  · exact hnew n le_rfl (by omega)
  · exact hnew (n + 1) (by omega) (by omega)
  · intro q e he
    rcases (hedge q e).mp he with he | ⟨rfl, rfl⟩ | ⟨-, rfl, rfl⟩ | ⟨-, rfl, rfl⟩ | ⟨rfl, rfl⟩
    · have hq := hinside _ (ha.owned q e he).1
      have hq' := hinside _ (ha.owned q e he).2
      exact ⟨hnew _ (by omega) (by omega), hnew _ (by omega) (by omega)⟩
    all_goals
      rw [M.target_eps]
      exact ⟨hnew _ (by omega) (by omega), hnew _ (by omega) (by omega)⟩
  · intro x y hxy
    rcases hxy with ⟨hskip, rfl⟩ | ⟨z, hxz, hzy⟩
    · exact .single (Moves.step_eps ((hedge _ _).mpr (.inr (.inr (.inl ⟨hskip, rfl, rfl⟩)))) x)
    · have hsub : a.edges ⊆ (Piece.wrap M.eps skip loop n a).edges := fun e he => (hedge e.1 e.2).mpr (.inl he)
      have hin : M.Step (Piece.wrap M.eps skip loop n a).edges (x, n) (x, a.start) :=
        Moves.step_eps ((hedge _ _).mpr (.inr (.inl ⟨rfl, rfl⟩))) x
      have hout : M.Step (Piece.wrap M.eps skip loop n a).edges (y, a.accept) (y, n + 1) :=
        Moves.step_eps ((hedge _ _).mpr (.inr (.inr (.inr (.inr ⟨rfl, rfl⟩))))) y
      -- the rounds before the last one
      have hrounds : ∀ z, Rounds loop R x z →
          ReflTransGen (M.Step (Piece.wrap M.eps skip loop n a).edges) (x, a.start) (z, a.start) := by
        intro z hxz
        rw [Rounds] at hxz
        split at hxz
        · next hloop =>
          induction hxz with
          | refl => exact .refl
          | @tail v w _ hvw ih =>
            have hagain : M.Step (Piece.wrap M.eps skip loop n a).edges (w, a.accept) (w, a.start) :=
              Moves.step_eps ((hedge _ _).mpr (.inr (.inr (.inr (.inl ⟨hloop, rfl, rfl⟩))))) w
            exact (ih.trans (Moves.reach_mono hsub (ha.complete v w hvw))).tail hagain
        · rw [hxz]
      exact .head hin (((hrounds z hxz).trans (Moves.reach_mono hsub (ha.complete z y hzy))).tail hout)
  · obtain ⟨I, hI⟩ := ha.sound
    refine ⟨fun q x y => q = n ∧ x = y ∨ (∃ z, Rounds loop R x z ∧ I q z y) ∨
      q = n + 1 ∧ (skip = true ∧ x = y ∨ ∃ z, Rounds loop R x z ∧ R z y), ⟨fun x => .inl ⟨rfl, rfl⟩, ?_, ?_, ?_⟩⟩
    · intro x y h
      have haccepted : (Piece.wrap M.eps skip loop n a).accept = n + 1 := rfl
      rcases h with ⟨hq, -⟩ | ⟨z, -, h⟩ | ⟨-, hxy⟩
      · omega
      · have hq := hinside _ (hI.owned _ _ _ h)
        omega
      · exact hxy
    · intro q x y h
      rcases h with ⟨hq, -⟩ | ⟨z, -, h⟩ | ⟨hq, -⟩
      · exact hnew q (by omega) (by omega)
      · have hq := hinside _ (hI.owned _ _ _ h)
        exact hnew q (by omega) (by omega)
      · exact hnew q (by omega) (by omega)
    · intro q e he x y z h hyz
      have hat : ∀ q, (q = n ∧ x = y ∨ (∃ z, Rounds loop R x z ∧ I q z y) ∨
          q = n + 1 ∧ (skip = true ∧ x = y ∨ ∃ z, Rounds loop R x z ∧ R z y)) →
            (q = n → x = y) ∧ (a.Owns q → ∃ z, Rounds loop R x z ∧ I q z y) := by
        intro q h
        have hi := hinside q
        rcases h with ⟨hq, hxy⟩ | ⟨w, hw, h⟩ | ⟨hq, -⟩
        · exact ⟨fun _ => hxy, fun ho => absurd (hi ho) (by omega)⟩
        · have ho := hinside q (hI.owned q w y h)
          exact ⟨fun hq => absurd ho (by omega), fun _ => ⟨w, hw, h⟩⟩
        · exact ⟨fun hq' => absurd hq (by omega), fun ho => absurd (hi ho) (by omega)⟩
      rcases (hedge q e).mp he with he | ⟨hq, rfl⟩ | ⟨hskip, hq, rfl⟩ | ⟨hloop, hq, rfl⟩ | ⟨hq, rfl⟩
      · obtain ⟨w, hw, hin⟩ := (hat q h).2 (ha.owned q e he).1
        exact .inr (.inl ⟨w, hw, hI.step q e he w y z hin hyz⟩)
      all_goals
        rw [M.rel_eps] at hyz
        rw [M.target_eps, ← hyz]
        rw [hq] at h
      · rw [(hat n h).1 rfl]
        exact .inr (.inl ⟨y, Rounds.refl loop R y, hI.start y⟩)
      · exact .inr (.inr ⟨rfl, .inl ⟨hskip, (hat n h).1 rfl⟩⟩)
      · obtain ⟨w, hw, hin⟩ := (hat _ h).2 ha.accept
        refine .inr (.inl ⟨y, ?_, hI.start y⟩)
        rw [Rounds, if_pos hloop] at hw ⊢
        exact hw.tail (hI.accept w y hin)
      · obtain ⟨w, hw, hin⟩ := (hat _ h).2 ha.accept
        exact .inr (.inr ⟨rfl, .inr ⟨w, hw, hI.accept w y hin⟩⟩)

end

/-! ## Steps of two kinds -/

/-- Steps of the first kind come in runs, each after a step of the second kind. -/
theorem reflTransGen_or_iff {α : Type} {e m : α → α → Prop} {a b : α} :
    ReflTransGen (fun a b => e a b ∨ m a b) a b ↔
      ∃ c, ReflTransGen e a c ∧ ReflTransGen (fun c d => ∃ b, m c b ∧ ReflTransGen e b d) c b := by
  constructor
  · intro h
    induction h with
    | refl => exact ⟨a, .refl, .refl⟩
    | @tail b d _ hstep ih =>
      obtain ⟨c, hac, hcb⟩ := ih
      rcases hstep with he | hm
      · rcases ReflTransGen.cases_tail hcb with rfl | ⟨w, hcw, v, hwv, hvb⟩
        · exact ⟨d, hac.tail he, .refl⟩
        · exact ⟨c, hac, hcw.tail ⟨v, hwv, hvb.tail he⟩⟩
      · exact ⟨c, hac, hcb.tail ⟨d, hm, .refl⟩⟩
  · rintro ⟨c, hac, hcb⟩
    have hleft : ∀ {a b}, ReflTransGen e a b → ReflTransGen (fun a b => e a b ∨ m a b) a b :=
      fun h => ReflTransGen.mono (fun _ _ he => .inl he) _ _ h
    refine (hleft hac).trans ?_
    induction hcb with
    | refl => exact .refl
    | tail _ hstep ih =>
      obtain ⟨v, hm, hvd⟩ := hstep
      exact (ih.tail (.inr hm)).trans (hleft hvd)

end Nova.Lib
