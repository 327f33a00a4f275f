import Nova.Lib.Forest
import Nova.Reasoning.SameAs

/-!
# The classes of a tracker

The parents of `SameAsTracker::build` are a forest of pointers: `find` returns the root and
changes no root, one pair links two roots, and what is frozen at the end are the classes of
the equivalence that the pairs generate (`builds_equivalence`), in whatever order the hash
maps are listed (`Builds`). The chains that `find` follows are no longer than the map.
-/

namespace Nova.Reasoning

open Nova Nova.Lib List

/-! ## Entries -/

section Entries

variable {β : Type} {k x : Term} {v : β} {m : List (Term × β)}

theorem lookup_cons_if (e : Term × β) (m : List (Term × β)) (x : Term) :
    (e :: m).lookup x = if x = e.1 then some e.2 else m.lookup x := by
  rw [lookup_cons]
  by_cases hx : x = e.1
  · simp [hx]
  · rw [beq_false_of_ne hx, if_neg hx]

theorem lookup_insertEntry (k : Term) (v : β) (m : List (Term × β)) (x : Term) :
    (insertEntry k v m).lookup x = if x = k then some v else m.lookup x := by
  induction m with
  | nil => rw [insertEntry, lookup_cons_if]
  | cons e m ih =>
    rw [insertEntry]
    split
    · next he =>
      rw [lookup_cons_if, lookup_cons_if, he]
      by_cases hx : x = k
      · rw [if_pos hx, if_pos hx]
      · rw [if_neg hx, if_neg hx, if_neg hx]
    · next he =>
      rw [lookup_cons_if, lookup_cons_if, ih]
      by_cases hx : x = e.1
      · rw [if_pos hx, if_pos hx, if_neg fun hk => he (hx.symm.trans hk)]
      · rw [if_neg hx, if_neg hx]

theorem mem_keys_insertEntry : x ∈ (insertEntry k v m).map Prod.fst ↔ x = k ∨ x ∈ m.map Prod.fst := by
  induction m with
  | nil => simp [insertEntry]
  | cons e m ih =>
    rw [insertEntry]
    split
    · next he => simp [he]
    · rw [map_cons, mem_cons, ih, map_cons, mem_cons]
      exact or_left_comm

theorem keys_insertEntry (hk : k ∈ m.map Prod.fst) : (insertEntry k v m).map Prod.fst = m.map Prod.fst := by
  induction m with
  | nil => cases hk
  | cons e m ih =>
    rw [insertEntry]
    split
    · next he => rw [map_cons, map_cons, he]
    · next he =>
      rcases mem_cons.mp hk with heq | hk
      · exact absurd heq.symm he
      · rw [map_cons, map_cons, ih hk]

theorem mem_of_lookup (h : m.lookup x = some v) : (x, v) ∈ m := by
  induction m with
  | nil => cases h
  | cons e m ih =>
    rw [lookup_cons_if] at h
    split at h
    · next he =>
      rw [he, ← Option.some.inj h]
      exact mem_cons_self
    · exact mem_cons_of_mem _ (ih h)

theorem mem_insertEntry {e : Term × β} (h : e ∈ insertEntry k v m) : e = (k, v) ∨ e ∈ m := by
  induction m with
  | nil => exact Or.inl (mem_singleton.mp h)
  | cons f m ih =>
    rw [insertEntry] at h
    split at h
    · rcases mem_cons.mp h with heq | hmem
      · exact Or.inl heq
      · exact Or.inr (mem_cons_of_mem _ hmem)
    · rcases mem_cons.mp h with rfl | hmem
      · exact Or.inr mem_cons_self
      · exact (ih hmem).imp_right (mem_cons_of_mem _)

theorem nodup_insertEntry (h : (m.map Prod.fst).Nodup) : ((insertEntry k v m).map Prod.fst).Nodup := by
  induction m with
  | nil => exact nodup_singleton k
  | cons e m ih =>
    obtain ⟨hnew, hrest⟩ := nodup_cons.mp h
    rw [insertEntry]
    split
    · next he => rwa [map_cons, he] at h
    · next he =>
      refine nodup_cons.mpr ⟨fun hmem => ?_, ih hrest⟩
      exact (mem_keys_insertEntry.mp hmem).elim he hnew

theorem lookup_isSome_iff : (m.lookup x).isSome = true ↔ x ∈ m.map Prod.fst := by
  induction m with
  | nil => simp
  | cons e m ih =>
    rw [lookup_cons_if, map_cons, mem_cons, ← ih]
    by_cases hx : x = e.1
    · simp [hx]
    · rw [if_neg hx]
      exact ⟨Or.inr, fun h => h.resolve_left hx⟩

end Entries

namespace SameAsTracker

/-! ## Parents -/

/-- Where a map of parents points. -/
def pointer (parent : List (Term × Term)) (t : Term) : Term := (parent.lookup t).getD t

section Parents

variable {parent : List (Term × Term)} {root : Term → Term} {pairs : List (Term × Term)}

theorem pointer_insertEntry (parent : List (Term × Term)) (k v : Term) :
    pointer (insertEntry k v parent) = Function.update (pointer parent) k v := by
  funext x
  unfold pointer
  rw [lookup_insertEntry]
  by_cases hx : x = k
  · rw [if_pos hx, hx, Function.update_self, Option.getD_some]
  · rw [if_neg hx, Function.update_of_ne hx]

theorem mem_keys_of_pointer_ne {t : Term} (h : pointer parent t ≠ t) : t ∈ parent.map Prod.fst := by
  unfold pointer at h
  rw [← lookup_isSome_iff]
  cases hlook : parent.lookup t with
  | none =>
    rw [hlook] at h
    exact absurd rfl h
  | some p => rfl

theorem rootIn_length (h : RootMap (pointer parent) root) (t : Term) :
    RootIn (pointer parent) parent.length t (root t) := by
  have hkeys : ∀ x, pointer parent x ≠ x → x ∈ (parent.map Prod.fst).toFinset :=
    fun x hx => mem_toFinset.mpr (mem_keys_of_pointer_ne hx)
  refine (rootIn_of_finite hkeys (h t)).mono ?_
  have hcard := toFinset_card_le (parent.map Prod.fst)
  rwa [length_map] at hcard

/-- `find` returns the root, and compresses the path without changing a root. -/
theorem find_spec : ∀ (depth : Nat) (parent : List (Term × Term)) (t : Term), RootMap (pointer parent) root →
    RootIn (pointer parent) depth t (root t) →
    (find depth parent t).1 = root t ∧ RootMap (pointer (find depth parent t).2) root ∧
      (find depth parent t).2.map Prod.fst = parent.map Prod.fst := by
  intro depth
  induction depth with
  | zero =>
    intro parent t h hin
    have heq : t = root t := hin.1
    exact ⟨heq, h, rfl⟩
  | succ depth ih =>
    intro parent t h hin
    rw [find]
    by_cases hp : pointer parent t = t
    · have hself : (parent.lookup t).getD t = t := hp
      simp only [hself, if_true]
      exact ⟨(h.root_eq hp).symm, h, trivial⟩
    · have hmove : ¬(parent.lookup t).getD t = t := hp
      simp only [hmove, if_false]
      have hstep : root (pointer parent t) = root t := (h _).unique (rootOf_step.mpr (h t))
      obtain ⟨hroot, hmap, hkeys⟩ := ih parent (pointer parent t) h (by rw [hstep]; exact rootIn_succ.mp hin)
      rw [hstep] at hroot
      have hfound : (find depth parent ((parent.lookup t).getD t)).1 = root t := hroot
      refine ⟨hfound, ?_, ?_⟩
      · rw [hfound, pointer_insertEntry]
        exact hmap.compress t
      · rw [keys_insertEntry]
        · exact hkeys
        · show t ∈ (find depth parent (pointer parent t)).2.map Prod.fst
          rw [hkeys]
          exact mem_keys_of_pointer_ne hp

/-- The parents have the classes of the pairs. -/
def Tracks (pairs : List (Term × Term)) (parent : List (Term × Term)) : Prop :=
  ∃ root, RootMap (pointer parent) root ∧ Classes root fun x y => (x, y) ∈ pairs

theorem unite_spec (h : Tracks pairs parent) (pair : Term × Term) :
    Tracks (pairs ++ [pair]) (unite parent pair) ∧
      ∀ x ∈ parent.map Prod.fst, x ∈ (unite parent pair).map Prod.fst := by
  obtain ⟨root, hmap, hclasses⟩ := h
  obtain ⟨ha, hmap', hkeys⟩ := find_spec _ parent pair.1 hmap (rootIn_length hmap pair.1)
  obtain ⟨hb, hmap'', hkeys'⟩ := find_spec _ _ pair.2 hmap' (rootIn_length hmap' pair.2)
  have hlink := hclasses.link pair.1 pair.2
  have hrel : (fun x y => (x, y) ∈ pairs ∨ (x = pair.1 ∧ y = pair.2)) = fun x y => (x, y) ∈ pairs ++ [pair] := by
    funext x y
    rw [mem_append, mem_singleton]
    exact propext (or_congr_right ⟨fun heq => Prod.ext heq.1 heq.2,
      fun heq => ⟨congrArg Prod.fst heq, congrArg Prod.snd heq⟩⟩)
  rw [hrel] at hlink
  have hunite : unite parent pair =
      if root pair.1 = root pair.2 then
        (find (find parent.length parent pair.1).2.length (find parent.length parent pair.1).2 pair.2).2
      else insertEntry (root pair.1) (root pair.2)
        (find (find parent.length parent pair.1).2.length (find parent.length parent pair.1).2 pair.2).2 := by
    rw [← ha, ← hb]
    rfl
  rw [hunite]
  split
  · next hsame =>
    refine ⟨⟨root, hmap'', ?_⟩, fun x hx => by rwa [hkeys', hkeys]⟩
    have heq : (fun t => if root t = root pair.1 then root pair.2 else root t) = root := by
      funext t
      by_cases ht : root t = root pair.1
      · rw [if_pos ht, ht, hsame]
      · rw [if_neg ht]
    rwa [heq] at hlink
  · next hdiff =>
    refine ⟨⟨_, ?_, hlink⟩, fun x hx => mem_keys_insertEntry.mpr (Or.inr (by rwa [hkeys', hkeys]))⟩
    rw [pointer_insertEntry]
    exact hmap''.link (hmap''.fixed _) (hmap''.fixed _) hdiff

theorem fold_unite_spec : ∀ {rest : List (Term × Term)} {done parent : List (Term × Term)}, Tracks done parent →
    Tracks (done ++ rest) (rest.foldl unite parent) ∧
      ∀ x ∈ parent.map Prod.fst, x ∈ (rest.foldl unite parent).map Prod.fst := by
  intro rest
  induction rest with
  | nil => exact fun h => ⟨by rwa [append_nil], fun x hx => hx⟩
  | cons pair rest ih =>
    intro done parent h
    obtain ⟨hone, hkeys⟩ := unite_spec h pair
    obtain ⟨hall, hkeys'⟩ := ih hone
    refine ⟨?_, fun x hx => hkeys' x (hkeys x hx)⟩
    rwa [append_assoc] at hall

/-- At first every term of a pair points to itself. -/
theorem fold_orInsert_spec (pairs : List (Term × Term)) :
    pointer (pairs.foldl (fun m pair => orInsertEntry pair.2 pair.2 (orInsertEntry pair.1 pair.1 m)) []) = id ∧
      ∀ pair ∈ pairs, ∀ x, x = pair.1 ∨ x = pair.2 → x ∈
        (pairs.foldl (fun m pair => orInsertEntry pair.2 pair.2 (orInsertEntry pair.1 pair.1 m)) []).map Prod.fst := by
  have hself : ∀ {m : List (Term × Term)}, pointer m = id → ∀ k, pointer (orInsertEntry k k m) = id := by
    intro m hm k
    unfold orInsertEntry
    split
    · exact hm
    · rw [pointer_insertEntry, hm]
      exact Function.update_eq_self k id
  have hkey : ∀ (m : List (Term × Term)) (k x : Term), x = k ∨ x ∈ m.map Prod.fst →
      x ∈ (orInsertEntry k k m).map Prod.fst := by
    intro m k x hx
    unfold orInsertEntry
    split
    · next hsome =>
      rcases hx with rfl | hx
      · exact lookup_isSome_iff.mp hsome
      · exact hx
    · exact mem_keys_insertEntry.mpr hx
  have hfold : ∀ (pairs : List (Term × Term)) (m : List (Term × Term)), pointer m = id →
      pointer (pairs.foldl (fun m pair => orInsertEntry pair.2 pair.2 (orInsertEntry pair.1 pair.1 m)) m) = id ∧
        ∀ x, (x ∈ m.map Prod.fst ∨ ∃ pair ∈ pairs, x = pair.1 ∨ x = pair.2) → x ∈
          (pairs.foldl (fun m pair => orInsertEntry pair.2 pair.2 (orInsertEntry pair.1 pair.1 m)) m).map Prod.fst := by
    intro pairs
    induction pairs with
    | nil =>
      intro m hm
      refine ⟨hm, fun x hx => ?_⟩
      rcases hx with hx | ⟨_, hpair, _⟩
      · exact hx
      · cases hpair
    | cons pair pairs ih =>
      intro m hm
      obtain ⟨hpointer, hkeys⟩ := ih _ (hself (hself hm pair.1) pair.2)
      refine ⟨hpointer, fun x hx => hkeys x ?_⟩
      rcases hx with hx | ⟨other, hother, hx⟩
      · exact Or.inl (hkey _ _ _ (Or.inr (hkey _ _ _ (Or.inr hx))))
      · rcases mem_cons.mp hother with rfl | hother
        · rcases hx with hx | hx
          · exact Or.inl (hkey _ _ _ (Or.inr (hkey _ _ _ (Or.inl hx))))
          · exact Or.inl (hkey _ _ _ (Or.inl hx))
        · exact Or.inr ⟨other, hother, hx⟩
  obtain ⟨hpointer, hkeys⟩ := hfold pairs [] rfl
  exact ⟨hpointer, fun pair hpair x hx => hkeys x (Or.inr ⟨pair, hpair, hx⟩)⟩

/-! ## The frozen maps -/

theorem fold_represent_spec {root : Term → Term} : ∀ {ks done : List Term} {parent canonical : List (Term × Term)},
    RootMap (pointer parent) root → (∀ x, canonical.lookup x = if x ∈ done then some (root x) else none) →
    ∀ x, ((ks.foldl represent (parent, canonical)).2).lookup x = if x ∈ done ++
      ks then some (root x) else none := by
  intro ks
  induction ks with
  | nil =>
    intro done parent canonical _ hcanon x
    rw [append_nil]
    exact hcanon x
  | cons k ks ih =>
    intro done parent canonical hmap hcanon x
    obtain ⟨hroot, hmap', -⟩ := find_spec _ parent k hmap (rootIn_length hmap k)
    have hstep : represent (parent, canonical) k = ((find parent.length parent k).2,
        insertEntry k (root k) canonical) := by
      rw [← hroot]
      rfl
    rw [foldl_cons, hstep]
    have hrest := @ih (done ++ [k]) _ (insertEntry k (root k) canonical) hmap' (fun y => by
      rw [lookup_insertEntry, hcanon]
      by_cases hy : y = k
      · rw [if_pos hy, if_pos (by simp [hy]), hy]
      · simp [hy]) x
    rwa [append_assoc] at hrest

theorem fold_members_spec : ∀ {es done : List (Term × Term)} {m : List (Term × List Term)},
    (∀ r, m.lookup r = if r ∈ done.map Prod.snd then some ((done.filter fun e =>
      e.2 = r).map Prod.fst) else none) →
    ∀ r, (es.foldl (fun m e => insertEntry e.2 ((m.lookup e.2).getD [] ++ [e.1]) m) m).lookup r =
      if r ∈ (done ++ es).map Prod.snd then some (((done ++ es).filter fun e =>
        e.2 = r).map Prod.fst) else none := by
  intro es
  induction es with
  | nil =>
    intro done m hm r
    rw [append_nil]
    exact hm r
  | cons e es ih =>
    intro done m hm r
    have hold : (m.lookup e.2).getD [] = (done.filter fun d => d.2 = e.2).map Prod.fst := by
      rw [hm]
      split
      · rfl
      · next hnot =>
        have hnone : (done.filter fun d => d.2 = e.2) = [] := by
          refine filter_eq_nil_iff.mpr fun d hd hdec => hnot ?_
          rw [← of_decide_eq_true hdec]
          exact mem_map_of_mem hd
        rw [hnone]
        rfl
    have hrest := @ih (done ++ [e]) (insertEntry e.2 ((m.lookup e.2).getD [] ++ [e.1]) m) (fun y => by
      rw [lookup_insertEntry, hm y, hold]
      by_cases hy : y = e.2
      · simp [hy]
      · have hne : e.2 ≠ y := fun heq => hy heq.symm
        have hkeys : (y ∈ (done ++ [e]).map Prod.snd) = (y ∈ done.map Prod.snd) := by simp [hy]
        have hsame : ((done ++ [e]).filter fun d => d.2 = y) = done.filter fun d => d.2 = y := by simp [hne]
        rw [if_neg hy, hsame]
        simp only [hkeys]) r
    rwa [append_assoc] at hrest

end Parents

theorem mem_fold_represent {root : Term → Term} : ∀ {ks : List Term} {parent canonical : List (Term × Term)},
    RootMap (pointer parent) root → (∀ e ∈ canonical, e.2 = root e.1) →
    ∀ e ∈ (ks.foldl represent (parent, canonical)).2, e.2 = root e.1 := by
  intro ks
  induction ks with
  | nil => exact fun _ hcanon => hcanon
  | cons k ks ih =>
    intro parent canonical hmap hcanon
    obtain ⟨hroot, hmap', -⟩ := find_spec _ parent k hmap (rootIn_length hmap k)
    have hstep : represent (parent, canonical) k = ((find parent.length parent k).2,
        insertEntry k (root k) canonical) := by
      rw [← hroot]
      rfl
    rw [foldl_cons, hstep]
    refine ih hmap' fun e he => ?_
    rcases mem_insertEntry he with rfl | he
    · rfl
    · exact hcanon e he

theorem nodup_fold_represent : ∀ {ks : List Term} {st : List (Term × Term) × List (Term × Term)},
    (st.2.map Prod.fst).Nodup → ((ks.foldl represent st).2.map Prod.fst).Nodup := by
  intro ks
  induction ks with
  | nil => exact fun h => h
  | cons k ks ih => exact fun h => ih (nodup_insertEntry h)

/-! ## In any order -/

/-- The parents after both loops over the pairs. -/
def parents (pairs : List (Term × Term)) : List (Term × Term) :=
  pairs.foldl unite
    (pairs.foldl (fun m pair => orInsertEntry pair.2 pair.2 (orInsertEntry pair.1 pair.1 m)) [])

/-- What `build` returns if its hash maps are listed in these orders: the parents by `keys`, the
representatives by `entries`. -/
inductive Builds (pairs : List (Term × Term)) : SameAsTracker → Prop where
  | intro (keys : List Term) (entries : List (Term × Term)) (hkeys : keys.Perm ((parents pairs).map Prod.fst))
      (hentries : entries.Perm (keys.foldl represent (parents pairs, [])).2) :
      Builds pairs ⟨(keys.foldl represent (parents pairs, [])).2,
        entries.foldl (fun m e => insertEntry e.2 ((m.lookup e.2).getD [] ++ [e.1]) m) []⟩

theorem builds_build (pairs : List (Term × Term)) : Builds pairs (build pairs) := by
  have h : Builds pairs _ := .intro _ _ (.refl _) (.refl _)
  cases pairs with
  | nil => exact h
  | cons pair pairs => exact h

section Built

variable {pairs : List (Term × Term)} {t : SameAsTracker}

/-- What is frozen: the keys, among them the terms of the pairs, with their roots. -/
theorem Builds.spec (h : Builds pairs t) :
    ∃ (root : Term → Term) (keys : List Term), Classes root (fun x y => (x, y) ∈ pairs) ∧
      (∀ x, t.canonicalize x = root x) ∧ (∀ x y, (x, y) ∈ pairs → x ∈ {k | k ∈ keys} ∧ y ∈ {k | k ∈ keys}) ∧
      (∀ x, t.canonical.lookup x = if x ∈ keys then some (root x) else none) ∧
      (∀ e ∈ t.canonical, e.2 = root e.1) ∧ (t.canonical.map Prod.fst).Nodup ∧
      ∃ entries : List (Term × Term), entries.Perm t.canonical ∧
        t.members = entries.foldl (fun m e => insertEntry e.2 ((m.lookup e.2).getD [] ++ [e.1]) m) [] := by
  obtain ⟨keys, entries, hkeys, hentries⟩ := h
  obtain ⟨hpointer, hterms⟩ := fold_orInsert_spec pairs
  -- before the pairs are united every term is alone
  have hstart : Tracks []
      (pairs.foldl (fun m pair => orInsertEntry pair.2 pair.2 (orInsertEntry pair.1 pair.1 m)) []) := by
    refine ⟨id, fun t => rootOf_self (congrFun hpointer t), fun x y => ⟨?_, fun hgen => ?_⟩⟩
    · rintro rfl
      exact .refl _
    · rcases eqvGen_cases (s := ∅) nofun hgen with heq | ⟨hx, -⟩
      · exact heq
      · exact absurd hx (Set.notMem_empty x)
  obtain ⟨⟨root, hmap, hclasses⟩, hkept⟩ := @fold_unite_spec pairs [] _ hstart
  have hlookup := @fold_represent_spec root keys [] (parents pairs) [] hmap fun x => by simp
  refine ⟨root, keys, hclasses, fun x => ?_, fun x y hxy => ?_, hlookup, ?_, ?_, entries, hentries, rfl⟩
  · rw [canonicalize, hlookup]
    split
    · rfl
    · next hx =>
      -- what is no key points nowhere
      refine (hmap.root_eq ?_).symm
      by_contra hne
      exact hx (hkeys.mem_iff.mpr (mem_keys_of_pointer_ne hne))
  · exact ⟨hkeys.mem_iff.mpr (hkept _ (hterms _ hxy _ (Or.inl rfl))),
      hkeys.mem_iff.mpr (hkept _ (hterms _ hxy _ (Or.inr rfl)))⟩
  · exact mem_fold_represent hmap nofun
  · exact nodup_fold_represent nodup_nil

theorem Builds.canonicalize_eq_iff (h : Builds pairs t) (a b : Term) :
    t.canonicalize a = t.canonicalize b ↔ Relation.EqvGen (fun x y => (x, y) ∈ pairs) a b := by
  obtain ⟨root, keys, hclasses, hcanonicalize, -⟩ := h.spec
  rw [hcanonicalize, hcanonicalize]
  exact hclasses a b

theorem Builds.classMembers_spec (h : Builds pairs t) (a : Term) :
    (t.classMembers a).Nodup ∧ ∀ b, b ∈ t.classMembers a ↔ Relation.EqvGen (fun x y => (x, y) ∈ pairs) a b := by
  obtain ⟨root, keys, hclasses, -, hsides, hlookup, hroots, hnodup, entries, hentries, hmembers⟩ := h.spec
  have hcases : ∀ {x y}, Relation.EqvGen (fun x y => (x, y) ∈ pairs) x y → x = y ∨ x ∈ keys ∧ y ∈ keys :=
    fun hgen => eqvGen_cases hsides hgen
  rw [classMembers, hlookup]
  by_cases ha : a ∈ keys
  · rw [if_pos ha]
    -- the members of the root are the keys that have it
    have hlist := @fold_members_spec entries [] [] (fun r => by simp) (root a)
    have hin : (a, root a) ∈ entries := hentries.mem_iff.mpr (mem_of_lookup (by rw [hlookup, if_pos ha]))
    rw [← hmembers, nil_append, if_pos (mem_map_of_mem (f := Prod.snd) hin)] at hlist
    show ((t.members.lookup (root a)).getD [root a]).Nodup ∧ ∀ b, b ∈ (t.members.lookup (root a)).getD [root a] ↔ _
    rw [hlist, Option.getD_some]
    refine ⟨((hentries.map Prod.fst).nodup_iff.mpr hnodup).sublist (filter_sublist.map Prod.fst), fun b => ?_⟩
    rw [mem_map]
    constructor
    · rintro ⟨e, he, rfl⟩
      obtain ⟨hmem, hroot⟩ := mem_filter.mp he
      refine (hclasses a e.1).mp ?_
      rw [← of_decide_eq_true hroot, hroots e (hentries.mem_iff.mp hmem)]
    · intro hgen
      have hb : b ∈ keys := by
        rcases hcases hgen with rfl | hboth
        · exact ha
        · exact hboth.2
      have hmem : (b, root b) ∈ entries := hentries.mem_iff.mpr (mem_of_lookup (by rw [hlookup, if_pos hb]))
      exact ⟨_, mem_filter.mpr ⟨hmem, decide_eq_true ((hclasses a b).mpr hgen).symm⟩, rfl⟩
  · rw [if_neg ha]
    refine ⟨nodup_singleton a, fun b => mem_singleton.trans ⟨?_, fun hgen => ?_⟩⟩
    · rintro rfl
      exact .refl _
    · rcases hcases hgen with heq | hboth
      · exact heq.symm
      · exact absurd hboth.1 ha

end Built

theorem mem_classMembers (pairs : List (Term × Term)) (t u : Term) :
    u ∈ (build pairs).classMembers t ↔ Relation.EqvGen (fun x y => (x, y) ∈ pairs) t u :=
  ((builds_build pairs).classMembers_spec t).2 u

/-- The tracker is the equivalence that the pairs generate, and the same for any other list with
these pairs: neither their order nor that of the hash maps matters. -/
theorem builds_equivalence (pairs : List (Term × Term)) (t : SameAsTracker) (h : Builds pairs t) :
    (∀ a b, t.canonicalize a = t.canonicalize b ↔ Relation.EqvGen (fun x y => (x, y) ∈ pairs) a b) ∧
      (∀ a, (t.classMembers a).Nodup ∧
        ∀ b, b ∈ t.classMembers a ↔ Relation.EqvGen (fun x y => (x, y) ∈ pairs) a b) ∧
      ∀ pairs' t', (∀ pair, pair ∈ pairs ↔ pair ∈ pairs') → Builds pairs' t' →
        ∀ a, (t.classMembers a).Perm (t'.classMembers a) ∧
          ∀ b, t.canonicalize a = t.canonicalize b ↔ t'.canonicalize a = t'.canonicalize b := by
  refine ⟨h.canonicalize_eq_iff, h.classMembers_spec, fun pairs' t' hsame h' a => ?_⟩
  have hrel : (fun x y => (x, y) ∈ pairs) = fun x y => (x, y) ∈ pairs' := by
    funext x y
    exact propext (hsame (x, y))
  obtain ⟨hnodup, hmem⟩ := h.classMembers_spec a
  obtain ⟨hnodup', hmem'⟩ := h'.classMembers_spec a
  constructor
  · refine (perm_ext_iff_of_nodup hnodup hnodup').mpr fun b => ?_
    rw [hmem, hmem', hrel]
  · intro b
    rw [h.canonicalize_eq_iff, h'.canonicalize_eq_iff, hrel]

/-- Two pairs that share a term. -/
theorem builds_equivalence_chain :
    let t := build [(.blankNode ⟨"a"⟩, .blankNode ⟨"b"⟩), (.blankNode ⟨"c"⟩, .blankNode ⟨"b"⟩)]
    t.canonicalize (.blankNode ⟨"a"⟩) = t.canonicalize (.blankNode ⟨"c"⟩) := by
  refine ((builds_equivalence _ _ (builds_build _)).1 _ _).mpr ?_
  exact .trans _ _ _ (.rel _ _ mem_cons_self) (.symm _ _ (.rel _ _ (mem_cons_of_mem _ mem_cons_self)))

theorem build_isEmpty_iff (pairs : List (Term × Term)) : (build pairs).isEmpty = true ↔ pairs = [] := by
  constructor
  · intro hempty
    by_contra hne
    obtain ⟨root, keys, -, -, hsides, hlookup, -⟩ := (builds_build pairs).spec
    obtain ⟨pair, rest, rfl⟩ := exists_cons_of_ne_nil hne
    have hkey : pair.1 ∈ keys := (hsides pair.1 pair.2 mem_cons_self).1
    have hin := hlookup pair.1
    rw [if_pos hkey, List.isEmpty_iff.mp hempty] at hin
    cases hin
  · rintro rfl
    rfl

end SameAsTracker

end Nova.Reasoning
