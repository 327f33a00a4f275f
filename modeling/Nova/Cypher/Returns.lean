import Nova.Cypher.Query
import Nova.Cypher.Statement
import Nova.Query.Scope

/-!
# The columns of RETURN

`RETURN e AS x` is a `BIND`, one item after another on the same row. A variable that is
bound keeps its value, and an item reads what the items before it have bound. A row
shows the values of its items exactly where neither makes a difference (`shows_iff`).
-/

namespace Nova

open Nova.Lib Nova.Update List

namespace Cypher

/-- The column that an item is returned in. -/
def ReturnItem.column (item : ReturnItem) : Variable := ⟨(returnName item).toOption.getD ""⟩

/-- The pattern on whose rows the items are evaluated. -/
def matchedPattern (validName : String → Bool) (query : CypherQuery) : Except String
    (GraphPattern × LowerCtx) := do
  let ctx ← lowerPattern validName .new query.pattern
  let (whereExpr, ctx) ← lowerWhere ctx query.whereExpr
  let (_, _, ctx) ← lowerReturnItems validName ctx query.returns.items
  let (_, ctx) ← lowerOrderItems ctx query.orderBy
  return (filtered whereExpr ctx.joined, ctx)

/-! ## One row -/

/-- The items bound one after another, to values that may depend on the row so far. -/
def bindItems (value : Mapping → Expr → Option Term) (items : List ReturnItem) (μ : Mapping) : Mapping :=
  items.foldl (fun ν item => Mapping.bind item.column (value ν item.expr) ν) μ

section Row

variable (scalars : Scalars) (ctx : LowerCtx)

/-- The row that the `BIND`s make of a matched one. -/
def returned (items : List ReturnItem) (μ : Mapping) : Mapping := bindItems
    (fun ν e => ctx.valueOn scalars e ν) items μ

/-- The same with every item evaluated on the matched row itself. -/
def assigned (items : List ReturnItem) (μ : Mapping) : Mapping := bindItems
    (fun _ e => ctx.valueOn scalars e μ) items μ

/-- Every column has the value of its item on the matched row. -/
def Shows (items : List ReturnItem) (μ ν : Mapping) : Prop :=
  ∀ item ∈ items, ν item.column = ctx.valueOn scalars item.expr μ

structure Unshadowed (items : List ReturnItem) (μ : Mapping) : Prop where
  /-- A column that the matched row binds has the value of its item. -/
  held : ∀ item ∈ items, ∀ t, μ item.column = some t → ctx.valueOn scalars item.expr μ = some t
  /-- Items of one name have one value. -/
  agree : ∀ item ∈ items, ∀ item' ∈ items, item.column = item'.column →
    ctx.valueOn scalars item.expr μ = ctx.valueOn scalars item'.expr μ
  /-- An item without a value gets none from the columns before it. -/
  blank : ∀ done item rest, items = done ++ item :: rest → ctx.valueOn scalars item.expr μ = none →
    ctx.valueOn scalars item.expr (assigned scalars ctx done μ) = none

end Row

section

variable {scalars : Scalars} {ctx : LowerCtx} {items : List ReturnItem} {μ : Mapping}

theorem bindItems_append_one (value : Mapping → Expr → Option Term) (done : List ReturnItem) (item : ReturnItem) :
    bindItems value (done ++ [item]) μ =
      Mapping.bind item.column (value (bindItems value done μ) item.expr) (bindItems value done μ) := by
  simp [bindItems]

theorem keeps_bindItems (value : Mapping → Expr → Option Term) (items : List ReturnItem) (w : Variable) :
    ∀ {μ : Mapping}, Keeps (μ w) (bindItems value items μ w) := by
  induction items with
  | nil => exact fun _ h => h
  | cons item items ih => exact fun t ht => ih t (keeps_bind item.column _ _ w t ht)

theorem bindItems_apply (value : Expr → Option Term) {v : Variable} {t : Option Term} : ∀ {μ : Mapping},
    (∀ item ∈ items, item.column = v → value item.expr = t) →
    bindItems (fun _ => value) items μ v = (μ v).or (if v ∈ items.map ReturnItem.column then t else none) := by
  induction items with
  | nil => simp [bindItems]
  | cons item items ih =>
    intro μ h
    obtain ⟨hone, hrest⟩ := forall_mem_cons.mp h
    rw [show bindItems (fun _ => value) (item :: items) μ v =
      bindItems (fun _ => value) items (Mapping.bind item.column (value item.expr) μ) v from rfl, ih hrest]
    by_cases hv : item.column = v
    · rw [← hv, Mapping.bind_same, hone hv, map_cons, if_pos mem_cons_self, Option.or_assoc]
      split
      · rw [Option.or_self]
      · rw [Option.or_none]
    · rw [Mapping.bind_of_ne (Ne.symm hv)]
      simp [Ne.symm hv]

/-- The two rows are the same if no item reads what the items before it have bound. -/
theorem returned_eq_assigned (h : ∀ done item rest, items = done ++ item :: rest →
      returned scalars ctx done μ = assigned scalars ctx done μ →
      ctx.valueOn scalars item.expr (returned scalars ctx done μ) = ctx.valueOn scalars item.expr μ) :
    returned scalars ctx items μ = assigned scalars ctx items μ := by
  induction items using List.reverseRecOn with
  | nil => rfl
  | append_singleton done item ih =>
    have hdone := ih fun d i r hd => h d i (r ++ [item]) (by rw [hd]; simp)
    have hval := h done item [] rfl hdone
    rw [returned, assigned, bindItems_append_one, bindItems_append_one]
    change Mapping.bind _ (ctx.valueOn scalars item.expr (returned scalars ctx done μ))
      (returned scalars ctx done μ) = _
    rw [hval, hdone]
    rfl

/-- A value that the matched row gives stays. -/
theorem value_stays (value : Mapping → Expr → Option Term) (done : List ReturnItem) {e : Expr} {t : Term}
    (h : ctx.valueOn scalars e μ = some t) : ctx.valueOn scalars e (bindItems value done μ) = some t :=
  keeps_valueOn (fun w _ => keeps_bindItems value done w _) e t h

theorem Unshadowed.shows (h : Unshadowed scalars ctx items μ) :
    Shows scalars ctx items μ (returned scalars ctx items μ) := by
  have hsame : returned scalars ctx items μ = assigned scalars ctx items μ := by
    refine returned_eq_assigned fun done item rest hitems hdone => ?_
    rw [hdone]
    cases hval : ctx.valueOn scalars item.expr μ with
    | none => exact h.blank done item rest hitems hval
    | some t => exact value_stays _ done hval
  intro item hitem
  rw [hsame, assigned, bindItems_apply (fun e => ctx.valueOn scalars e μ) fun item' hitem' =>
    h.agree item' hitem' item hitem,
    if_pos (mem_map_of_mem hitem)]
  cases hμ : μ item.column with
  | none => rw [Option.none_or]
  | some t => rw [h.held item hitem t hμ, Option.some_or]

/-- The `BIND`s of a row give every column its value exactly where no name hides one. -/
theorem shows_iff : Shows scalars ctx items μ (returned scalars ctx items μ) ↔ Unshadowed scalars ctx items μ := by
  refine ⟨fun h => ?_, Unshadowed.shows⟩
  have hsteady : ∀ done item rest, items = done ++ item :: rest →
      ctx.valueOn scalars item.expr (returned scalars ctx done μ) = ctx.valueOn scalars item.expr μ := by
    intro done item rest hitems
    cases hval : ctx.valueOn scalars item.expr μ with
    | some t => exact value_stays _ done hval
    | none =>
      -- a value here would be in the column to the end
      have hend := h item (hitems ▸ mem_append_right _ mem_cons_self)
      by_contra hne
      obtain ⟨t, ht⟩ := Option.ne_none_iff_exists'.mp hne
      have hsome : (Mapping.bind item.column (ctx.valueOn scalars item.expr (returned scalars ctx done μ))
          (returned scalars ctx done μ) item.column).isSome = true := by
        rw [Mapping.bind_same, ht, Option.isSome_or, Option.isSome_some, Bool.or_true]
      obtain ⟨u, hu⟩ := Option.isSome_iff_exists.mp hsome
      have hlast := keeps_bindItems (fun ν e => ctx.valueOn scalars e ν) rest item.column u hu
      rw [hitems, hval, returned, bindItems, foldl_append, foldl_cons] at hend
      exact nomatch hend.symm.trans hlast
  refine ⟨fun item hitem t ht => ?_, fun item hitem item' hitem' heq => ?_, fun done item rest hitems hval => ?_⟩
  · rw [← h item hitem]
    exact keeps_bindItems _ items _ t ht
  · rw [← h item hitem, ← h item' hitem', heq]
  · have hsame : returned scalars ctx done μ = assigned scalars ctx done μ := by
      refine returned_eq_assigned fun d i r hd _ => hsteady d i (r ++ item :: rest) ?_
      rw [hitems, hd, append_assoc, cons_append]
    rw [← hsame, hsteady done item rest hitems, hval]

end

/-! ## The rows of a query -/

section Rows

variable {validName : String → Bool} {scalars : Scalars} {options : EvalOptions} {fuel : Nat} {ds : Dataset}
  {ag : GraphSelector} {out : List Solution}

variable {inner : GraphPattern}

theorem extend_rows {v : Variable} {e : Expression} {value : Mapping → Option Term}
    (he : ∀ sol, Eval.evalExpr scalars options fuel ds e sol ag = .ok (value sol.get))
    (h : Eval.evalPattern scalars options fuel ds (.extend inner v e) ag = .ok out) :
    ∃ sols, Eval.evalPattern scalars options fuel ds inner ag = .ok sols ∧
      out.map Solution.get = sols.map fun sol => Mapping.bind v (value sol.get) sol.get := by
  rw [Eval.evalPattern_extend] at h
  obtain ⟨sols, hsols, h⟩ := bind_ok h
  have hmap : (sols.mapM fun sol =>
    do return Eval.bindTo v sol (← Eval.evalExpr scalars options fuel ds e sol ag)) =
      .ok (sols.map fun sol => Eval.bindTo v sol (value sol.get)) := by
    rw [← mapM_ok]
    refine mapM_congr_left fun sol _ => ?_
    rw [he]
    rfl
  cases h.symm.trans hmap
  refine ⟨sols, hsols, ?_⟩
  rw [map_map]
  exact map_congr_left fun sol _ => Eval.get_bindTo v sol _

theorem valueOn_of_reads {xs : List (String × String)} {ctx ctx' : LowerCtx} (h : LowerCtx.Reads xs ctx ctx') :
    ctx'.valueOn scalars = ctx.valueOn scalars := by
  have hread : ctx'.read = ctx.read := by
    funext μ name
    rw [LowerCtx.read, LowerCtx.read, h.nodeVars, h.relVars]
  funext e μ
  rw [LowerCtx.valueOn, LowerCtx.valueOn, hread]

theorem lowerOrderItems_reads : ∀ {items : List OrderItem} {ctx ctx' : LowerCtx} {es : List OrderExpression},
    lowerOrderItems ctx items = .ok (es, ctx') → ∃ xs, LowerCtx.Reads xs ctx ctx' := by
  intro items
  induction items with
  | nil =>
    intro ctx ctx' es h
    cases h
    exact ⟨[], .refl ctx⟩
  | cons item items ih =>
    intro ctx ctx' es h
    obtain ⟨⟨e, ctx₁⟩, hone, h⟩ := bind_ok h
    obtain ⟨⟨rest, ctx₂⟩, hrest, h⟩ := bind_ok h
    cases h
    obtain ⟨xs, hreads⟩ := ih hrest
    exact ⟨_, (lowerExpr_reads item.expr hone).trans hreads⟩

theorem returnItem_column {item : ReturnItem} {ctx ctx' : LowerCtx} {outVar : Variable}
    {bind : Option (Variable × Expression)} (h : lowerReturnItem validName ctx item = .ok (outVar, bind, ctx')) :
    outVar = item.column ∧ ∃ lowered, lowerExpr item.expr ctx = .ok (lowered, ctx') ∧
      (bind = some (outVar, lowered) ∨ bind = none ∧ lowered = .var outVar) := by
  obtain ⟨⟨lowered, ctx₁⟩, hlow, h⟩ := bind_ok h
  obtain ⟨name, hname, h⟩ := bind_ok h
  obtain ⟨v, hv, h⟩ := bind_ok h
  cases h
  refine ⟨?_, lowered, hlow, ?_⟩
  · unfold returnVariable at hv
    split at hv
    · cases hv
      rw [ReturnItem.column, hname]
      rfl
    · cases hv
  · unfold returnExtend
    split
    · split
      · next heq => exact .inr ⟨rfl, by rw [heq]⟩
      · exact .inl rfl
    · exact .inl rfl

/-- The `BIND`s of the items turn matched rows into the returned ones. -/
theorem returnItems_rows : ∀ {items : List ReturnItem} {ctx ctx' : LowerCtx} {outVars : List Variable}
    {binds : List (Variable × Expression)}, ctx.Columns →
    lowerReturnItems validName ctx items = .ok (outVars, binds, ctx') →
    outVars = items.map ReturnItem.column ∧ (∃ xs, LowerCtx.Reads xs ctx ctx') ∧
      ∀ {last : LowerCtx} {xs : List (String × String)}, LowerCtx.Reads xs ctx' last → ∀ {base : GraphPattern}
        {out : List Solution}, Eval.evalPattern scalars options fuel ds (extended binds base) ag = .ok out →
        ∃ sols, Eval.evalPattern scalars options fuel ds base ag = .ok sols ∧
          out.map Solution.get = sols.map fun sol => returned scalars last items sol.get := by
  intro items
  induction items with
  | nil =>
    intro ctx ctx' outVars binds _ h
    cases h
    exact ⟨rfl, ⟨[], .refl ctx⟩, fun _ _ _ hout => ⟨_, hout, rfl⟩⟩
  | cons item items ih =>
    intro ctx ctx' outVars binds hcols h
    obtain ⟨⟨outVar, bind, ctx₁⟩, hone, h⟩ := bind_ok h
    obtain ⟨⟨vars, rest, ctx₂⟩, hrest, h⟩ := bind_ok h
    cases h
    obtain ⟨rfl, lowered, hlow, hbind⟩ := returnItem_column hone
    have hreads := lowerExpr_reads item.expr hlow
    obtain ⟨rfl, ⟨ys, hreads'⟩, hrows⟩ := ih (hreads.columns hcols) hrest
    refine ⟨rfl, ⟨_, hreads.trans hreads'⟩, fun {last xs} hlast {base out} hout => ?_⟩
    have hvalue : ∀ sol, Eval.evalExpr scalars options fuel ds lowered sol ag =
        .ok (last.valueOn scalars item.expr sol.get) := by
      rw [valueOn_of_reads (hreads'.trans hlast)]
      exact lowerExpr_valueOn hcols hlow
    rcases hbind with rfl | ⟨rfl, rfl⟩
    · obtain ⟨sols₁, hsols₁, hmap₁⟩ := hrows hlast hout
      obtain ⟨sols, hsols, hmap⟩ := extend_rows hvalue hsols₁
      refine ⟨sols, hsols, ?_⟩
      rw [hmap₁, ← Function.comp_def, ← map_map, hmap, map_map]
      rfl
    · obtain ⟨sols, hsols, hmap⟩ := hrows hlast hout
      refine ⟨sols, hsols, hmap.trans (map_congr_left fun sol _ => ?_)⟩
      -- the variable is bound to itself
      have hself : Mapping.bind item.column (last.valueOn scalars item.expr sol.get) sol.get = sol.get := by
        have hval := hvalue sol
        funext w
        by_cases hw : w = item.column
        · rw [hw, Mapping.bind_same, ← Except.ok.inj hval, Option.or_self]
        · rw [Mapping.bind_of_ne hw]
      exact (congrArg (returned scalars last items) hself).symm

theorem ordered_subset {es : List OrderExpression}
    (h : Eval.evalPattern scalars options fuel ds (ordered es inner) ag = .ok out) :
    ∃ sols, Eval.evalPattern scalars options fuel ds inner ag = .ok sols ∧ out ⊆ sols := by
  unfold ordered at h
  split at h
  · exact ⟨out, h, List.Subset.refl out⟩
  · rw [Eval.evalPattern] at h
    obtain ⟨sols, hsols, h⟩ := bind_ok h
    refine ⟨sols, hsols, ?_⟩
    split at h
    · cases h
      exact List.Subset.refl _
    · obtain ⟨keyed, hkeyed, h⟩ := bind_ok h
      cases h
      intro row hrow
      obtain ⟨entry, hentry, rfl⟩ := mem_map.mp hrow
      obtain ⟨sol, hsol, hkey⟩ := (mapM_ok_inv hkeyed).2 entry (mem_mergeSort.mp hentry)
      obtain ⟨key, _, hkey⟩ := bind_ok hkey
      cases hkey
      exact hsol

theorem distinct_subset {distinct : Bool}
    (h : Eval.evalPattern scalars options fuel ds (distinctIf distinct inner) ag = .ok out) :
    ∃ sols, Eval.evalPattern scalars options fuel ds inner ag = .ok sols ∧ out ⊆ sols := by
  unfold distinctIf at h
  split at h
  · rw [Eval.evalPattern] at h
    obtain ⟨sols, hsols, h⟩ := bind_ok h
    cases h
    exact ⟨sols, hsols, fun row hrow => (mem_of_mem_firstsBy hrow).1⟩
  · exact ⟨out, h, List.Subset.refl out⟩

theorem sliced_subset {skip limit : Option Nat}
    (h : Eval.evalPattern scalars options fuel ds (sliced skip limit inner) ag = .ok out) :
    ∃ sols, Eval.evalPattern scalars options fuel ds inner ag = .ok sols ∧ out ⊆ sols := by
  unfold sliced at h
  split at h
  · rw [Eval.evalPattern] at h
    obtain ⟨sols, hsols, h⟩ := bind_ok h
    refine ⟨sols, hsols, ?_⟩
    cases limit with
    | none =>
      obtain rfl := Except.ok.inj h
      exact drop_subset _ sols
    | some n =>
      obtain rfl := Except.ok.inj h
      exact List.Subset.trans (take_subset n _) (drop_subset _ sols)
  · exact ⟨out, h, List.Subset.refl out⟩

/-- The row is what the `BIND`s and the projection make of the matched one. -/
def MadeOf (scalars : Scalars) (ctx : LowerCtx) (items : List ReturnItem) (row sol : Solution) : Prop :=
  row.get = restrict (items.map ReturnItem.column) (returned scalars ctx items sol.get)

/-- Every row of a query is made of a matched one. -/
theorem query_rows {query : CypherQuery} {pattern : GraphPattern}
    (hq : lowerQuery validName query = .ok (.select none pattern))
    (hout : Eval.evalPattern scalars options fuel ds pattern ag = .ok out) :
    ∃ base ctx sols, matchedPattern validName query = .ok (base, ctx) ∧
      Eval.evalPattern scalars options fuel ds base ag = .ok sols ∧
      ∀ row ∈ out, ∃ sol ∈ sols, MadeOf scalars ctx query.returns.items row sol := by
  obtain ⟨ctx₀, hpattern, hq⟩ := bind_ok hq
  obtain ⟨⟨whereExpr, ctx₁⟩, hwhere, hq⟩ := bind_ok hq
  obtain ⟨⟨outVars, binds, ctx₂⟩, hitems, hq⟩ := bind_ok hq
  obtain ⟨⟨es, ctx⟩, horder, hq⟩ := bind_ok hq
  cases hq
  have hmatch : lowerMatch validName ⟨some query.pattern, query.whereExpr, []⟩ =
      .ok (filtered whereExpr ctx₁.joined, ctx₁) := by
    rw [lowerMatch, lowerMatchPattern, hpattern, ok_bind, hwhere]
    rfl
  obtain ⟨rfl, -, hrows⟩ := @returnItems_rows validName scalars options fuel ds ag _ _ _ _ _
    (lowerMatch_matched hmatch).columns hitems
  obtain ⟨xs, hlast⟩ := lowerOrderItems_reads horder
  -- the modifiers only leave rows out
  obtain ⟨kept, hkept, hsub⟩ := sliced_subset hout
  obtain ⟨all, hall, hsub'⟩ := distinct_subset hkept
  obtain ⟨sorted, hsorted, hall⟩ := bind_ok hall
  cases hall
  obtain ⟨bound, hbound, hsub''⟩ := ordered_subset hsorted
  obtain ⟨sols, hsols, hmap⟩ := hrows hlast hbound
  have hmatched : matchedPattern validName query = .ok (filtered whereExpr ctx.joined, ctx) := by
    simp only [matchedPattern, hpattern, hwhere, hitems, horder, ok_bind]
    rfl
  refine ⟨_, ctx, sols, hmatched, hsols, fun row hrow => ?_⟩
  obtain ⟨whole, hwhole, rfl⟩ := mem_map.mp (hsub' (hsub hrow))
  have hin : whole.get ∈ sols.map fun sol => returned scalars ctx query.returns.items sol.get :=
    hmap ▸ mem_map_of_mem (hsub'' hwhole)
  obtain ⟨sol, hsol, hget⟩ := mem_map.mp hin
  refine ⟨sol, hsol, ?_⟩
  funext v
  rw [Solution.get_project, hget]
  rfl

/-- The rows of a query are made of matched ones, and show the values of all items exactly
where no name hides one. -/
theorem columns_iff {query : CypherQuery} {pattern : GraphPattern}
    (hq : lowerQuery validName query = .ok (.select none pattern))
    (hout : Eval.evalPattern scalars options fuel ds pattern ag = .ok out) :
    ∃ base ctx sols, matchedPattern validName query = .ok (base, ctx) ∧
      Eval.evalPattern scalars options fuel ds base ag = .ok sols ∧
      ∀ row ∈ out, (∃ sol ∈ sols, MadeOf scalars ctx query.returns.items row sol) ∧
        ∀ sol ∈ sols, MadeOf scalars ctx query.returns.items row sol →
          (Shows scalars ctx query.returns.items sol.get row.get ↔
            Unshadowed scalars ctx query.returns.items sol.get) := by
  obtain ⟨base, ctx, sols, hmatched, hsols, hmade⟩ := query_rows hq hout
  refine ⟨base, ctx, sols, hmatched, hsols, fun row hrow => ⟨hmade row hrow, fun sol _ hof => ?_⟩⟩
  rw [← shows_iff, hof]
  refine forall₂_congr fun item hitem => ?_
  rw [restrict_apply_of_mem (mem_map_of_mem hitem)]

end Rows

/-- `MATCH (n:Person) RETURN n AS m, 1 AS n`: the second name hides the person. -/
def oneAsPerson : CypherQuery where
  pattern := ⟨⟨some "n", ["Person"], []⟩, []⟩
  whereExpr := none
  returns := ⟨false, [⟨.var "n", some "m"⟩, ⟨.literal (.int 1), some "n"⟩]⟩
  orderBy := []
  skip := none
  limit := none

def onePattern : GraphPattern :=
  .project (.extend (.extend personContext.joined ⟨"m"⟩ (.var ⟨"n"⟩)) ⟨"n"⟩ (.literal (.newTypedLiteral "1" xsdInteger))) [⟨"m"⟩, ⟨"n"⟩]

def oneRow : Solution :=
  ⟨[⟨"m"⟩, ⟨"n"⟩], [some (.namedNode ⟨"http://ex/ann"⟩), some (.namedNode ⟨"http://ex/ann"⟩)], rfl⟩

theorem oneRow_returned : sampleEngine.evalPattern annStore onePattern = .ok [oneRow] := by decide +kernel

/-- The row is made of a matched one, and one of its columns does not show its item. -/
theorem columns_iff_one : ∃ base ctx sols, matchedPattern (fun _ => true) oneAsPerson = .ok (base, ctx) ∧
    sampleEngine.evalPattern annStore base = .ok sols ∧
    ∀ row ∈ [oneRow], ∃ sol ∈ sols, MadeOf sampleEngine.scalars ctx oneAsPerson.returns.items row sol ∧
      ¬Unshadowed sampleEngine.scalars ctx oneAsPerson.returns.items sol.get := by
  have hq : lowerQuery (fun _ => true) oneAsPerson = .ok (.select none onePattern) := rfl
  obtain ⟨base, ctx, sols, hm, hsols, hrows⟩ := columns_iff hq oneRow_returned
  refine ⟨base, ctx, sols, hm, hsols, fun row hrow => ?_⟩
  obtain ⟨⟨sol, hsol, hof⟩, hiff⟩ := hrows row hrow
  refine ⟨sol, hsol, hof, fun hfree => ?_⟩
  rw [mem_singleton.mp hrow] at hiff hof
  have hone : oneRow.get ⟨"n"⟩ = some (.literal (.newTypedLiteral "1" xsdInteger)) :=
    (hiff sol hsol hof).mpr hfree ⟨.literal (.int 1), some "n"⟩ (mem_cons_of_mem _ mem_cons_self)
  exact absurd hone (by decide +kernel)

/-- The column of the one holds Ann. -/
theorem one_hidden :
    ¬∀ (m : MemoryStore) (query : CypherQuery) (pattern base : GraphPattern) (ctx : LowerCtx)
      (sols out : List Solution),
      lowerQuery (fun _ => true) query = .ok (.select none pattern) →
      matchedPattern (fun _ => true) query = .ok (base, ctx) →
      sampleEngine.evalPattern m base = .ok sols → sampleEngine.evalPattern m pattern = .ok out →
      ∀ row ∈ out, ∀ sol ∈ sols, MadeOf sampleEngine.scalars ctx query.returns.items row sol →
        Shows sampleEngine.scalars ctx query.returns.items sol.get row.get := by
  intro hclaim
  have hq : lowerQuery (fun _ => true) oneAsPerson = .ok (.select none onePattern) := rfl
  obtain ⟨base, ctx, sols, hm, hsols, hmade⟩ := query_rows hq oneRow_returned
  have hrow : oneRow ∈ [oneRow] := mem_singleton_self oneRow
  obtain ⟨sol, hsol, hof⟩ := hmade oneRow hrow
  have hone : oneRow.get ⟨"n"⟩ = some (.literal (.newTypedLiteral "1" xsdInteger)) :=
    hclaim annStore oneAsPerson onePattern base ctx sols [oneRow] hq hm hsols oneRow_returned oneRow hrow sol hsol hof
      ⟨.literal (.int 1), some "n"⟩ (mem_cons_of_mem _ mem_cons_self)
  exact absurd hone (by decide +kernel)

end Cypher

end Nova
