import Nova.Lib.Machine
import Nova.Louds.Read

/-!
# The image of a store

A store shows two things: the names its dictionary holds and the overlay of its
rings and its delta (`Image`). What a write returns and what it leaves behind is
a function of these two (`Image.write`), so that a run of writes can be followed
on images: `applyWrites_spec` for a list of writes, `call_spec` for a call of the
interface. Two stores that show one image answer alike, whatever their
dictionaries have cached.
-/

namespace Nova

open Nova.Lib

structure Image where
  names : Names
  view : Overlay Nat

namespace Image

/-- One insert or remove. -/
def write (im : Image) : QuadOp → Except Fault Bool × Image
  | .insert q =>
    match im.names.internQuad q with
    | (.error e, n) => (.error (.err e), ⟨n, im.view⟩)
    | (.ok (g, s, p, o), n) =>
      (.ok (decide (packQuad g s p o ∉ im.view.live)),
        ⟨n, LoudsStore.viewInsert im.view (packQuad g s p o)⟩)
  | .remove q =>
    match im.names.lookupQuad q with
    | .error p => (.error (.panic p), im)
    | .ok none => (.ok false, im)
    | .ok (some (g, s, p, o)) =>
      (.ok (decide (packQuad g s p o ∈ im.view.live)),
        ⟨im.names, LoudsStore.viewRemove im.view (packQuad g s p o)⟩)

/-- Writes one after another, up to the first fault. -/
def writes (im : Image) (ws : List QuadOp) : Except Fault (List Bool) × Image :=
  Machine.batch write im ws

/-- After a compaction; `b` says whether the dictionary is sealed now. -/
def compact (im : Image) (b : Bool) : Image := ⟨im.names.withSealed b, im.view.merge⟩

/-- After a bulk load. -/
def load (im : Image) (quads : List Quad) (b : Bool) : Image :=
  ⟨(im.names.internQuads quads).2.withSealed b,
    im.view.load (LoudsStore.keysOf (im.names.internQuads quads).2 quads)⟩

/-- The image of an empty store. -/
def empty : Image := ⟨.empty, ⟨∅, ∅, ∅, Finset.disjoint_empty_left _⟩⟩

theorem le_write (im : Image) (w : QuadOp) : im.names.Le (im.write w).2.names := by
  unfold write
  cases w with
  | insert q =>
    have hle := (im.names.internQuad_spec q).1
    simp only
    split <;> next heq =>
      rw [heq] at hle
      exact hle
  | remove q =>
    simp only
    split <;> exact im.names.le_refl

theorem le_writes (im : Image) (ws : List QuadOp) : im.names.Le (im.writes ws).2.names := by
  induction ws generalizing im with
  | nil => exact im.names.le_refl
  | cons w ws ih =>
    have hle := im.le_write w
    rw [writes, Machine.batch]
    rcases hw : im.write w with ⟨r, im₁⟩
    rw [hw] at hle
    cases r with
    | error f => exact hle
    | ok b =>
      have hrest := hle.trans (ih im₁)
      rw [writes] at hrest
      rcases hb : Machine.batch write im₁ ws with ⟨r', im₂⟩
      rw [hb] at hrest
      cases r' <;> simp only [hb] <;> exact hrest

end Image

namespace LoudsStore

variable {D : Type} {A : DictApi D} {Knows : D → Names → Prop} {CompactOk : Names → Prop}
variable {im : Image} {s : LoudsStore D}

/-! ## Writes -/

/-- `apply_insert` or `apply_remove`. -/
def applyOne (A : DictApi D) (s : LoudsStore D) : QuadOp → Outcome D Bool
  | .insert q => applyInsert A s q
  | .remove q => applyRemove A s q

/-- What the loops of `extend_boxed` and `apply_batch` have in common. -/
def applyWrites (A : DictApi D) (s : LoudsStore D) (ws : List QuadOp) : Outcome D (List Bool) :=
  Machine.batch (applyOne A) s ws

@[simp] theorem applyWrites_nil (A : DictApi D) (s : LoudsStore D) :
    applyWrites A s [] = (.ok [], s) := rfl

theorem applyWrites_cons (A : DictApi D) (s : LoudsStore D) (w : QuadOp) (ws : List QuadOp) :
    applyWrites A s (w :: ws) = andThen (applyOne A s w) fun b s =>
      andThen (applyWrites A s ws) fun bs s => (.ok (b :: bs), s) := by
  rw [applyWrites, Machine.batch]
  rcases applyOne A s w with ⟨r, s'⟩
  cases r with
  | error f => rfl
  | ok b =>
    simp only [andThen, applyWrites]
    rcases Machine.batch (applyOne A) s' ws with ⟨r', s''⟩
    cases r' <;> rfl

theorem andThen_assoc {α β γ : Type} (x : Outcome D α) (f : α → LoudsStore D → Outcome D β)
    (k : β → LoudsStore D → Outcome D γ) :
    andThen (andThen x f) k = andThen x fun a s => andThen (f a s) k := by
  rcases x with ⟨r, s⟩
  cases r <;> rfl

theorem applyOne_eq (s : LoudsStore D) (w : QuadOp) :
    applyOne A s w = andThen (applyWrites A s [w]) fun bs s => (.ok (bs.headD false), s) := by
  rw [applyWrites_cons]
  rcases applyOne A s w with ⟨r, s'⟩
  cases r <;> rfl

theorem insertAll_eq (quads : List Quad) : ∀ (s : LoudsStore D) (count : Nat),
    insertAll A s count quads =
      andThen (applyWrites A s (quads.map .insert)) fun bs s => (.ok (count + bs.count true), s) := by
  induction quads with
  | nil => exact fun s count => rfl
  | cons q quads ih =>
    intro s count
    rw [insertAll, List.map_cons, applyWrites_cons, andThen_assoc]
    refine congrArg (andThen (applyInsert A s q)) ?_
    funext b s'
    rw [ih, andThen_assoc]
    refine congrArg (andThen (applyWrites A s' (quads.map .insert))) ?_
    funext bs s''
    cases b <;> simp [andThen, Nat.add_assoc, Nat.add_comm 1]

/-- The two counters of `apply_batch`. -/
def tally : List QuadOp → List Bool → Nat × Nat
  | .insert _ :: ws, b :: bs => ((tally ws bs).1 + b.toNat, (tally ws bs).2)
  | .remove _ :: ws, b :: bs => ((tally ws bs).1, (tally ws bs).2 + b.toNat)
  | _, _ => (0, 0)

theorem applyAll_eq (ops : List QuadOp) : ∀ (s : LoudsStore D) (inserted removed : Nat),
    applyAll A s inserted removed ops =
      andThen (applyWrites A s ops) fun bs s =>
        (.ok (inserted + (tally ops bs).1, removed + (tally ops bs).2), s) := by
  induction ops with
  | nil => exact fun s i r => rfl
  | cons w ops ih =>
    intro s inserted removed
    cases w with
    | insert q =>
      rw [applyAll, applyWrites_cons, andThen_assoc]
      refine congrArg (andThen (applyInsert A s q)) ?_
      funext b s'
      rw [ih, andThen_assoc]
      refine congrArg (andThen (applyWrites A s' ops)) ?_
      funext bs s''
      cases b <;> simp [andThen, tally, Nat.add_assoc, Nat.add_comm 1]
    | remove q =>
      rw [applyAll, applyWrites_cons, andThen_assoc]
      refine congrArg (andThen (applyRemove A s q)) ?_
      funext b s'
      rw [ih, andThen_assoc]
      refine congrArg (andThen (applyWrites A s' ops)) ?_
      funext bs s''
      cases b <;> simp [andThen, tally, Nat.add_assoc, Nat.add_comm 1]

/-- The store shows this image. -/
structure Shows (Knows : D → Names → Prop) (im : Image) (s : LoudsStore D) : Prop where
  inv : Inv Knows im.names s
  view : s.view = im.view

theorem Inv.shows {n : Names} {s : LoudsStore D} (h : Inv Knows n s) : Shows Knows ⟨n, s.view⟩ s :=
  ⟨h, rfl⟩

theorem Next.shows {n n' : Names} {s s' : LoudsStore D} {v : Overlay Nat}
    (h : Next Knows n n' s s' v) : Shows Knows ⟨n', v⟩ s' :=
  ⟨h.inv, h.view⟩

theorem shows_new {d : D} (h : Knows d .empty) (threshold : Option Nat) :
    Shows Knows .empty { new d with autoCompactThreshold := threshold } where
  inv := ⟨h, (inv_new h).rows, (inv_new h).keys⟩
  view := by
    have hempty : ∀ b, Delta.new.marked b = ∅ := by
      intro b
      ext k
      simp [Delta.mem_marked]
    simp only [LoudsStore.view, new, Image.empty, Overlay.mk.injEq]
    exact ⟨rfl, hempty true, hempty false⟩

section

variable (I : Implements A Knows CompactOk)
include I

/-- A write on the store does what it does on its image. -/
theorem applyOne_spec (h : Shows Knows im s) (w : QuadOp) :
    ∃ s', applyOne A s w = ((im.write w).1, s') ∧ Shows Knows (im.write w).2 s' ∧
      s'.autoCompactThreshold = s.autoCompactThreshold := by
  cases w with
  | insert q =>
    rw [applyOne, Image.write]
    rcases hn : im.names.internQuad q with ⟨r, n'⟩
    cases r with
    | error e =>
      rcases applyInsert_error I h.inv (q := q) (e := e) (by rw [hn]) with ⟨s', hr, hnext⟩
      rw [hn, h.view] at hnext
      exact ⟨s', hr, hnext.shows, hnext.auto⟩
    | ok ids =>
      rcases ids with ⟨g, sId, pId, oId⟩
      rcases applyInsert_ok I h.inv (q := q) (by rw [hn]) with ⟨k, s', hkey, hr, hnext⟩
      have hids := (im.names.internQuad_spec q).2 _ (by rw [hn])
      rw [Names.keyOf_eq_some.mpr ⟨g, sId, pId, oId, hids, rfl⟩] at hkey
      cases hkey
      rw [hn, h.view] at hnext
      rw [h.view] at hr
      exact ⟨s', hr, hnext.shows, hnext.auto⟩
  | remove q =>
    rw [applyOne, Image.write]
    cases hids : im.names.quadIds q with
    | some ids =>
      rcases ids with ⟨g, sId, pId, oId⟩
      have hkey := Names.keyOf_eq_some.mpr ⟨g, sId, pId, oId, hids, rfl⟩
      rcases applyRemove_known I h.inv hkey with ⟨s', hr, hnext⟩
      rw [h.view] at hr hnext
      rw [Names.lookupQuad_known hids]
      exact ⟨s', hr, hnext.shows, hnext.auto⟩
    | none =>
      have hr := applyRemove_unknown I h.inv (Names.keyOf_eq_none.mpr hids)
      rcases im.names.lookupQuad_cases q with hl | ⟨-, -, p, hl⟩
      · rw [hl, hids] at hr ⊢
        exact ⟨s, hr, h, rfl⟩
      · rw [hl] at hr ⊢
        exact ⟨s, hr, h, rfl⟩

theorem applyOne_simulates (threshold : Option Nat) :
    Machine.Simulates (fun s im => Shows Knows im s ∧ s.autoCompactThreshold = threshold)
      (applyOne A) Image.write fun _ _ => True := by
  intro s im w h _
  rcases applyOne_spec I h.1 w with ⟨s', hr, h', hauto⟩
  rw [hr]
  exact ⟨rfl, h', hauto.trans h.2⟩

/-- A run of writes follows the image. -/
theorem applyWrites_spec (h : Shows Knows im s) (ws : List QuadOp) :
    ∃ s', applyWrites A s ws = ((im.writes ws).1, s') ∧ Shows Knows (im.writes ws).2 s' ∧
      s'.autoCompactThreshold = s.autoCompactThreshold := by
  rcases Machine.batch_sim (applyOne_simulates I s.autoCompactThreshold) ⟨h, rfl⟩ ws
    with ⟨hans, hend, hauto⟩
  exact ⟨_, Prod.ext hans rfl, hend, hauto⟩

theorem compactLocked_shows (h : Shows Knows im s) (hok : CompactOk im.names) :
    ∃ s' b, compactLocked A s = (.ok (), s') ∧ Shows Knows (im.compact b) s' ∧
      s'.autoCompactThreshold = s.autoCompactThreshold := by
  rcases compactLocked_spec I h.inv hok with ⟨s', b, hr, hnext⟩
  rw [h.view] at hnext
  exact ⟨s', b, hr, hnext.shows, hnext.auto⟩

end

/-! ## Calls -/

/-- A call of the write interface, `bulk_load` apart. -/
inductive Call where
  | insert (q : Quad)
  | remove (q : Quad)
  | extendBoxed (quads : List Quad)
  | applyBatch (ops : List QuadOp)
  | compact
deriving DecidableEq, Repr

/-- What a call returns. -/
inductive Reply where
  | changed (b : Bool)
  | count (n : Nat)
  | counts (inserted removed : Nat)
  | done
deriving DecidableEq, Repr

def call (A : DictApi D) (s : LoudsStore D) : Call → Outcome D Reply
  | .insert q => andThen (insert A s q) fun b s => (.ok (.changed b), s)
  | .remove q => andThen (remove A s q) fun b s => (.ok (.changed b), s)
  | .extendBoxed quads => andThen (extendBoxed A s quads) fun c s => (.ok (.count c), s)
  | .applyBatch ops => andThen (applyBatch A s ops) fun c s => (.ok (.counts c.1 c.2), s)
  | .compact => andThen (compact A s) fun _ s => (.ok .done, s)

/-- The single writes of a call. -/
def Call.writes : Call → List QuadOp
  | .insert q => [.insert q]
  | .remove q => [.remove q]
  | .extendBoxed quads => quads.map .insert
  | .applyBatch ops => ops
  | .compact => []

/-- The reply, given what the single writes returned. -/
def Call.reply (bs : List Bool) : Call → Reply
  | .insert _ => .changed (bs.headD false)
  | .remove _ => .changed (bs.headD false)
  | .extendBoxed _ => .count (bs.count true)
  | .applyBatch ops => .counts (tally ops bs).1 (tally ops bs).2
  | .compact => .done

/-- The end of a write: a batch without elements has returned before. -/
def settle (A : DictApi D) (s : LoudsStore D) (c : Call) : Outcome D Unit :=
  match c with
  | .compact => compactLocked A s
  | c => if c.writes = [] then (.ok (), s) else maybeAutoCompact A s

theorem call_eq (A : DictApi D) (s : LoudsStore D) (c : Call) :
    call A s c = andThen (applyWrites A s c.writes) fun bs s =>
      andThen (settle A s c) fun _ s => (.ok (c.reply bs), s) := by
  cases c with
  | insert q =>
    simp only [call, insert, Call.writes, applyWrites_cons, andThen_assoc]
    refine congrArg (andThen (applyInsert A s q)) ?_
    funext b s'
    simp [settle, Call.writes, Call.reply, andThen]
  | remove q =>
    simp only [call, remove, Call.writes, applyWrites_cons, andThen_assoc]
    refine congrArg (andThen (applyRemove A s q)) ?_
    funext b s'
    simp [settle, Call.writes, Call.reply, andThen]
  | extendBoxed quads =>
    cases quads with
    | nil => rfl
    | cons q quads =>
      simp only [call, extendBoxed, List.isEmpty_cons, Bool.false_eq_true, if_false, insertAll_eq,
        andThen_assoc]
      refine congrArg (andThen (applyWrites A s _)) ?_
      funext bs s'
      simp [settle, Call.writes, Call.reply, andThen]
  | applyBatch ops =>
    cases ops with
    | nil => rfl
    | cons w ops =>
      simp only [call, applyBatch, List.isEmpty_cons, Bool.false_eq_true, if_false, applyAll_eq,
        andThen_assoc]
      refine congrArg (andThen (applyWrites A s _)) ?_
      funext bs s'
      simp [settle, Call.writes, Call.reply, andThen]
  | compact =>
    rfl

/-- The delta has reached the threshold. -/
def autoDue (s : LoudsStore D) : Bool :=
  match s.autoCompactThreshold with
  | none => false
  | some threshold => decide (threshold ≤ s.delta.len)

/-- The dictionary a call compacts, if it compacts one. -/
def compactsAt (A : DictApi D) (s : LoudsStore D) (c : Call) : Option D :=
  match applyWrites A s c.writes with
  | (.error _, _) => none
  | (.ok _, s) =>
    if c = .compact ∨ c.writes ≠ [] ∧ s.autoDue = true then some s.dict else none

theorem settle_eq (A : DictApi D) (s : LoudsStore D) (c : Call) :
    settle A s c = if c = .compact ∨ c.writes ≠ [] ∧ s.autoDue = true then compactLocked A s
      else (.ok (), s) := by
  have hauto : maybeAutoCompact A s = if s.autoDue = true then compactLocked A s else (.ok (), s) := by
    unfold maybeAutoCompact autoDue
    cases s.autoCompactThreshold with
    | none => rfl
    | some threshold => simp
  unfold settle
  cases c with
  | compact => rfl
  | _ =>
    split <;> split <;> simp_all

section

variable (I : Implements A Knows CompactOk)
include I

/-- A call whose compaction is safe: its writes follow the image, and a
compaction at the end merges it. -/
theorem call_spec (h : Shows Knows im s) (c : Call)
    (hsafe : ∀ d n, compactsAt A s c = some d → Knows d n → CompactOk n) :
    ∃ s' im', call A s c = ((im.writes c.writes).1.map fun bs => c.reply bs, s') ∧
      Shows Knows im' s' ∧ s'.autoCompactThreshold = s.autoCompactThreshold ∧
      (im' = (im.writes c.writes).2 ∧ c ≠ .compact ∨ ∃ b, im' = (im.writes c.writes).2.compact b) := by
  rcases applyWrites_spec I h c.writes with ⟨s₁, hr, h₁, hauto⟩
  rw [compactsAt, hr] at hsafe
  rw [call_eq, hr]
  rcases him : im.writes c.writes with ⟨r, im₁⟩
  rw [him] at h₁ hsafe
  cases r with
  | error f =>
    refine ⟨s₁, im₁, rfl, h₁, hauto, .inl ⟨rfl, ?_⟩⟩
    intro hc
    rw [hc] at him
    cases him
  | ok bs =>
    simp only [andThen, settle_eq]
    by_cases hcomp : c = .compact ∨ c.writes ≠ [] ∧ s₁.autoDue = true
    · simp only [if_pos hcomp] at hsafe ⊢
      rcases compactLocked_shows I h₁ (hsafe _ _ rfl h₁.inv.knows) with ⟨s₂, b, hr₂, h₂, hauto₂⟩
      rw [hr₂]
      exact ⟨s₂, _, rfl, h₂, hauto₂.trans hauto, .inr ⟨b, rfl⟩⟩
    · rw [if_neg hcomp]
      exact ⟨s₁, im₁, rfl, h₁, hauto, .inl ⟨rfl, fun hc => hcomp (.inl hc)⟩⟩

end

end LoudsStore

end Nova
