import Nova.Cypher.Hygiene

/-!
# Where the variables of a lowered program come from

Every variable of a lowered program is that of a name in the source, of a column that
`RETURN` names or of a purpose (`lowered_accounted`): the lowering counts what
`Program.stems` lists, in that order. A program is then lowered hygienically if and
only if its names are apart (`hygienic_iff`). `MATCH (n)-[:R]->(n_a) RETURN n.a_b AS x,
n_a.b AS y` is lowered to one variable for two properties (`shared_column`).
-/

namespace Nova

open Nova.Lib List

/-! ## The variables in what is emitted -/

/-- All the variables of a term have the property. -/
def TermPattern.VarsIn (P : Variable → Prop) : TermPattern → Prop
  | .var v => P v
  | .triple s p o => s.VarsIn P ∧ (∀ v ∈ p.vars, P v) ∧ o.VarsIn P
  | _ => True

def TriplePattern.VarsIn (P : Variable → Prop) (tp : TriplePattern) : Prop :=
  tp.subject.VarsIn P ∧ (∀ v ∈ tp.predicate.vars, P v) ∧ tp.object.VarsIn P

/-- The lowering emits no other expressions. -/
def Expression.VarsIn (P : Variable → Prop) : Expression → Prop
  | .namedNode _ => True
  | .literal _ => True
  | .var v => P v
  | .or a b => a.VarsIn P ∧ b.VarsIn P
  | .and a b => a.VarsIn P ∧ b.VarsIn P
  | .not e => e.VarsIn P
  | .binary _ a b => a.VarsIn P ∧ b.VarsIn P
  | .divide a b => a.VarsIn P ∧ b.VarsIn P
  | .unaryMinus e => e.VarsIn P
  | _ => False

def OrderExpression.VarsIn (P : Variable → Prop) : OrderExpression → Prop
  | .asc e => e.VarsIn P
  | .desc e => e.VarsIn P

/-- Nor other patterns. -/
def GraphPattern.VarsIn (P : Variable → Prop) : GraphPattern → Prop
  | .bgp patterns => ∀ tp ∈ patterns, tp.VarsIn P
  | .path s _ o => s.VarsIn P ∧ o.VarsIn P
  | .join left right => left.VarsIn P ∧ right.VarsIn P
  | .leftJoin left right none => left.VarsIn P ∧ right.VarsIn P
  | .filter expr inner => expr.VarsIn P ∧ inner.VarsIn P
  | .extend inner v expr => inner.VarsIn P ∧ P v ∧ expr.VarsIn P
  | .orderBy inner exprs => inner.VarsIn P ∧ ∀ e ∈ exprs, e.VarsIn P
  | .project inner vars => inner.VarsIn P ∧ ∀ v ∈ vars, P v
  | .distinct inner => inner.VarsIn P
  | .slice inner _ _ => inner.VarsIn P
  | _ => False

namespace Update

def GroundTermPattern.VarsIn (P : Variable → Prop) : GroundTermPattern → Prop
  | .var v => P v
  | .triple s p o => s.VarsIn P ∧ (∀ v ∈ p.vars, P v) ∧ o.VarsIn P
  | _ => True

/-- The templates of an operation and its pattern; there is no variable for a graph. -/
structure DeleteInsert.VarsIn (P : Variable → Prop) (op : DeleteInsert) : Prop where
  delete : ∀ q ∈ op.delete, q.subject.VarsIn P ∧ (∀ v ∈ q.predicate.vars, P v) ∧ q.object.VarsIn P ∧
    q.graphName = .defaultGraph
  insert : ∀ q ∈ op.insert, q.subject.VarsIn P ∧ (∀ v ∈ q.predicate.vars, P v) ∧ q.object.VarsIn P ∧
    q.graphName = .defaultGraph
  pattern : op.pattern.VarsIn P

end Update

namespace Cypher

open Update (DeleteInsert)

/-- The variables of a lowered program have the property. -/
def Lowered.VarsIn (P : Variable → Prop) : Lowered → Prop
  | .query (.select none pattern) => pattern.VarsIn P
  | .query _ => False
  | .update ops => ∀ op ∈ ops, op.VarsIn P

/-- A name in the source, a column that it names, or a variable made up for a purpose. -/
def Program.Accounted (p : Program) (v : Variable) : Prop :=
  (∃ name ∈ p.names, v = ⟨name⟩) ∨ (∃ item ∈ p.aliases, v = ⟨item.2⟩) ∨ ∃ a ∈ p.purposes, v = a.var

/-! ## The context -/

section

variable (P : Variable → Prop)

/-- The variables in the context have the property. -/
structure LowerCtx.Known (ctx : LowerCtx) : Prop where
  nodeVars : ∀ entry ∈ ctx.nodeVars, P entry.2
  relVars : ∀ entry ∈ ctx.relVars, ∀ v, entry.2 = .var v → P v
  relEndpoints : ∀ entry ∈ ctx.relEndpoints, P entry.2.1 ∧ P entry.2.2
  propVars : ∀ entry ∈ ctx.propVars, P entry.2
  triples : ∀ tp ∈ ctx.triples, tp.VarsIn P
  paths : ∀ path ∈ ctx.paths, P path.subject ∧ P path.object

/-- The names that the context knows. -/
structure LowerCtx.Keyed (nodes rels : List String) (ctx : LowerCtx) : Prop where
  nodeVars : ∀ name, (ctx.nodeVars.lookup name).isSome = true ↔ name ∈ nodes
  endpoints : ∀ name, (ctx.relEndpoints.lookup name).isSome = true ↔ name ∈ rels
  bindings : ∀ name, (ctx.relVars.lookup name).isSome = true → name ∈ rels

/-- What is counted from `k` on has the property. -/
def Draws (k : Nat) (stems : List String) : Prop :=
  ∀ i stem, stems[i]? = some stem → stem ≠ createStem → P ⟨LowerCtx.generatedName stem (k + i)⟩

variable {P}

theorem draws_append {k : Nat} {xs ys : List String} (h : Draws P k (xs ++ ys)) :
    Draws P k xs ∧ Draws P (k + xs.length) ys := by
  constructor
  · intro i stem hat hne
    refine h i stem ?_ hne
    rw [getElem?_append_left (List.getElem?_eq_some_iff.mp hat).1, hat]
  · intro i stem hat hne
    have hi := h (xs.length + i) stem (by rw [getElem?_append_right (by omega), Nat.add_sub_cancel_left, hat]) hne
    rwa [← Nat.add_assoc] at hi

theorem draws_one {k : Nat} {stem : String} (h : Draws P k [stem]) (hne : stem ≠ createStem) :
    P ⟨LowerCtx.generatedName stem k⟩ := h 0 stem rfl hne

theorem draws_cons {k : Nat} {stem : String} {stems : List String} (h : Draws P k (stem :: stems))
    (hne : stem ≠ createStem) : P ⟨LowerCtx.generatedName stem k⟩ ∧ Draws P (k + 1) stems := by
  have hsplit : Draws P k ([stem] ++ stems) := h
  have hparts := draws_append hsplit
  exact ⟨draws_one hparts.1 hne, hparts.2⟩

/-! ## Patterns -/

variable {validName : String → Bool} {nodes rels : List String} {ctx ctx' : LowerCtx} {v : Variable}

theorem LowerCtx.known_new : LowerCtx.new.Known P where
  nodeVars := nofun
  relVars := nofun
  relEndpoints := nofun
  propVars := nofun
  triples := nofun
  paths := nofun

theorem LowerCtx.keyed_new : LowerCtx.new.Keyed [] [] where
  nodeVars := fun _ => ⟨fun h => absurd h Bool.false_ne_true, nofun⟩
  endpoints := fun _ => ⟨fun h => absurd h Bool.false_ne_true, nofun⟩
  bindings := fun _ h => absurd h Bool.false_ne_true

theorem LowerCtx.Known.count (h : ctx.Known P) (n : Nat) : { ctx with anonCounter := n }.Known P :=
  ⟨h.nodeVars, h.relVars, h.relEndpoints, h.propVars, h.triples, h.paths⟩

theorem LowerCtx.Keyed.count (h : ctx.Keyed nodes rels) (n : Nat) :
    { ctx with anonCounter := n }.Keyed nodes rels :=
  ⟨h.nodeVars, h.endpoints, h.bindings⟩

theorem LowerCtx.Known.addTriples (h : ctx.Known P) {tps : List TriplePattern} (htps : ∀ tp ∈ tps, tp.VarsIn P) :
    (ctx.addTriples tps).Known P := by
  refine ⟨h.nodeVars, h.relVars, h.relEndpoints, h.propVars, fun tp htp => ?_, h.paths⟩
  rcases mem_append.mp htp with htp | htp
  · exact h.triples tp htp
  · exact htps tp htp

theorem LowerCtx.Keyed.addTriples (h : ctx.Keyed nodes rels) (tps : List TriplePattern) :
    (ctx.addTriples tps).Keyed nodes rels :=
  ⟨h.nodeVars, h.endpoints, h.bindings⟩

theorem lookup_cons_isSome {β : Type} (name key : String) (b : β) (entries : List (String × β)) :
    (((key, b) :: entries).lookup name).isSome = true ↔ name = key ∨ (entries.lookup name).isSome = true := by
  rw [lookup_cons]
  by_cases heq : name = key
  · simp [heq]
  · rw [show (name == key) = false from beq_false_of_ne heq]
    simp [heq]

variable {name : Option String}

theorem nodePatternVar_known (hc : ctx.Known P) (hk : ctx.Keyed nodes rels)
    (hd : Draws P ctx.anonCounter (if name.isNone then ["node"] else [])) (hname : ∀ n ∈ name.toList, P ⟨n⟩)
    (hr : ctx.nodePatternVar validName name = .ok (v, ctx')) :
    P v ∧ ctx'.Known P ∧ ctx'.Keyed (nodes ++ name.toList) rels ∧
      ctx'.anonCounter = ctx.anonCounter + (if name.isNone then ["node"] else []).length := by
  cases name with
  | none =>
    cases hr
    refine ⟨draws_one hd (by decide), hc.count _, ?_, rfl⟩
    rw [Option.toList_none, append_nil]
    exact hk.count _
  | some n =>
    have hn := hname n (mem_singleton_self n)
    simp only [LowerCtx.nodePatternVar, LowerCtx.nodeVar] at hr
    cases hlook : ctx.nodeVars.lookup n with
    | some w =>
      rw [hlook] at hr
      cases hr
      refine ⟨hc.nodeVars _ (mem_of_lookup hlook), hc, ⟨fun m => ?_, hk.endpoints, hk.bindings⟩, rfl⟩
      -- the name is known already
      have hmem := (hk.nodeVars n).mp (by rw [hlook]; rfl)
      rw [hk.nodeVars, mem_append, Option.toList_some, mem_singleton]
      constructor
      · exact .inl
      · rintro (h | rfl)
        · exact h
        · exact hmem
    | none =>
      rw [hlook] at hr
      obtain ⟨w, hw, hr⟩ := bind_ok hr
      cases hr
      rw [newVariable_ok hw]
      refine ⟨hn, ⟨fun entry hentry => ?_, hc.relVars, hc.relEndpoints, hc.propVars, hc.triples, hc.paths⟩,
        ⟨fun m => ?_, hk.endpoints, hk.bindings⟩, rfl⟩
      · rcases mem_cons.mp hentry with rfl | hentry
        · exact hn
        · exact hc.nodeVars entry hentry
      · rw [lookup_cons_isSome, hk.nodeVars, mem_append, Option.toList_some, mem_singleton, or_comm]

theorem varsIn_property {subject : TermPattern} {entry : String × Literal} {tp : TriplePattern}
    (hs : subject.VarsIn P) (hr : propertyTriple subject entry = .ok tp) : tp.VarsIn P := by
  obtain ⟨term, hterm, hr⟩ := bind_ok hr
  obtain ⟨lit, _, hlit⟩ := bind_ok hterm
  cases hlit
  cases hr
  exact ⟨hs, nofun, trivial⟩

theorem lowerNodePattern_known {node : NodePattern} (hc : ctx.Known P) (hk : ctx.Keyed nodes rels)
    (hd : Draws P ctx.anonCounter node.stems) (hname : ∀ n ∈ node.var.toList, P ⟨n⟩)
    (hr : lowerNodePattern validName ctx node = .ok (v, ctx')) :
    P v ∧ ctx'.Known P ∧ ctx'.Keyed (nodes ++ node.var.toList) rels ∧
      ctx'.anonCounter = ctx.anonCounter + node.stems.length := by
  obtain ⟨⟨w, ctx₁⟩, hvar, hr⟩ := bind_ok hr
  obtain ⟨properties, hprops, hr⟩ := bind_ok hr
  cases hr
  obtain ⟨hv, hc₁, hk₁, hcount⟩ := nodePatternVar_known hc hk hd hname hvar
  refine ⟨hv, hc₁.addTriples fun tp htp => ?_, hk₁.addTriples _, hcount⟩
  rcases mem_append.mp htp with htp | htp
  · obtain ⟨label, _, rfl⟩ := mem_map.mp htp
    exact ⟨hv, nofun, trivial⟩
  · obtain ⟨entry, _, hentry⟩ := (mapM_ok_inv hprops).2 tp htp
    have hs : (TermPattern.var v).VarsIn P := hv
    exact varsIn_property hs hentry

variable {rel : RelPattern}

theorem lowerRelPredicate_known {predicate : NamedNodePattern} (hlen : rel.varLength = none)
    (hd : Draws P ctx.anonCounter rel.stems) (hname : ∀ n ∈ rel.var.toList, P ⟨n⟩)
    (hr : lowerRelPredicate validName ctx rel = .ok (predicate, ctx')) :
    (∀ v ∈ predicate.vars, P v) ∧ ctx' = { ctx with anonCounter := ctx.anonCounter + rel.stems.length } := by
  unfold RelPattern.stems at hd ⊢
  unfold lowerRelPredicate at hr
  rw [hlen] at hd ⊢
  cases htype : rel.relType with
  | some relType =>
    rw [htype] at hr
    cases hr
    exact ⟨nofun, rfl⟩
  | none =>
    rw [htype] at hr
    cases hvar : rel.var with
    | some name =>
      rw [hvar] at hr hname
      obtain ⟨w, hw, hr⟩ := bind_ok hr
      cases hr
      refine ⟨fun v hv => ?_, rfl⟩
      rw [mem_singleton.mp hv, newVariable_ok hw]
      exact hname name (mem_singleton_self name)
    | none =>
      rw [hvar] at hr
      rw [htype, hvar] at hd
      cases hr
      refine ⟨fun v hv => ?_, rfl⟩
      rw [mem_singleton.mp hv]
      exact draws_one hd (by decide)

theorem LowerCtx.Known.recordRel {predicate : NamedNodePattern} {ends : Variable × Variable}
    (hc : ctx.Known P) (hp : ∀ v ∈ predicate.vars, P v) (hends : P ends.1 ∧ P ends.2) :
    (ctx.recordRel name predicate ends).Known P := by
  cases name with
  | none => exact hc
  | some n =>
    refine ⟨hc.nodeVars, fun entry hentry => ?_, fun entry hentry => ?_, hc.propVars, hc.triples, hc.paths⟩
    · rcases mem_cons.mp hentry with rfl | hentry
      · intro v hv
        cases predicate with
        | namedNode iri => cases hv
        | var w =>
          cases hv
          exact hp v (mem_singleton_self v)
      · exact hc.relVars entry hentry
    · rcases mem_cons.mp hentry with rfl | hentry
      · exact hends
      · exact hc.relEndpoints entry hentry

theorem LowerCtx.Keyed.recordRel (hk : ctx.Keyed nodes rels) (name : Option String) (predicate : NamedNodePattern)
    (ends : Variable × Variable) : (ctx.recordRel name predicate ends).Keyed nodes (rels ++ name.toList) := by
  cases name with
  | none =>
    rw [Option.toList_none, append_nil]
    exact hk
  | some n =>
    refine ⟨hk.nodeVars, fun m => ?_, fun m h => ?_⟩
    · show (List.lookup m ((n, ends) :: ctx.relEndpoints)).isSome = true ↔ _
      rw [lookup_cons_isSome, hk.endpoints, mem_append, Option.toList_some, mem_singleton, or_comm]
    · rw [mem_append, Option.toList_some, mem_singleton, or_comm]
      exact ((lookup_cons_isSome m n _ ctx.relVars).mp h).imp id (hk.bindings m)

theorem lowerRelPattern_known {start stop : Variable} (hc : ctx.Known P)
    (hk : ctx.Keyed nodes rels) (hd : Draws P ctx.anonCounter rel.stems) (hname : ∀ n ∈ rel.var.toList, P ⟨n⟩)
    (hstart : P start) (hstop : P stop) (hr : lowerRelPattern validName ctx rel start stop = .ok ctx') :
    ctx'.Known P ∧ ctx'.Keyed nodes (rels ++ rel.var.toList) ∧
      ctx'.anonCounter = ctx.anonCounter + rel.stems.length := by
  have hends := orient_role rel.direction hstart hstop
  unfold lowerRelPattern at hr
  generalize orient rel.direction start stop = ends at hr hends
  obtain ⟨subject, object⟩ := ends
  cases hlen : rel.varLength with
  | some varLength =>
    rw [hlen] at hr
    obtain ⟨path, hpath, hr⟩ := bind_ok hr
    cases hr
    -- a path has no name
    have hvar : rel.var = none := by
      unfold lowerVarLength at hpath
      cases hv : rel.var with
      | none => rfl
      | some name =>
        rw [hv] at hpath
        cases hpath
    rw [hvar, Option.toList_none, append_nil, RelPattern.stems, hlen]
    refine ⟨⟨hc.nodeVars, hc.relVars, hc.relEndpoints, hc.propVars, hc.triples, fun p hp => ?_⟩,
      ⟨hk.nodeVars, hk.endpoints, hk.bindings⟩, rfl⟩
    rcases mem_append.mp hp with hp | hp
    · exact hc.paths p hp
    · rw [mem_singleton.mp hp]
      exact hends
  | none =>
    rw [hlen] at hr
    obtain ⟨⟨predicate, ctx₁⟩, hpred, hr⟩ := bind_ok hr
    obtain ⟨annotations, hann, hr⟩ := bind_ok hr
    cases hr
    obtain ⟨hp, rfl⟩ := lowerRelPredicate_known hlen hd hname hpred
    refine ⟨((hc.count _).recordRel hp hends).addTriples fun tp htp => ?_,
      ((hk.count _).recordRel rel.var predicate (subject, object)).addTriples _, ?_⟩
    · rcases mem_cons.mp htp with rfl | htp
      · exact ⟨hends.1, hp, hends.2⟩
      · obtain ⟨entry, _, hentry⟩ := (mapM_ok_inv hann).2 tp htp
        have hs : (TermPattern.triple (.var subject) predicate (.var object)).VarsIn P := ⟨hends.1, hp, hends.2⟩
        exact varsIn_property hs hentry
    · cases rel.var <;> rfl

theorem lowerHops_known : ∀ {hops : List (RelPattern × NodePattern)} {nodes rels : List String} {ctx : LowerCtx}
    {prev : Variable}, ctx.Known P → ctx.Keyed nodes rels → P prev →
    Draws P ctx.anonCounter (hops.flatMap fun hop => hop.2.stems ++ hop.1.stems) →
    (∀ hop ∈ hops, (∀ n ∈ hop.1.var.toList, P ⟨n⟩) ∧ ∀ n ∈ hop.2.var.toList, P ⟨n⟩) →
    lowerHops validName ctx prev hops = .ok ctx' →
    ctx'.Known P ∧ ctx'.Keyed (nodes ++ hops.flatMap fun hop => hop.2.var.toList)
      (rels ++ hops.flatMap fun hop => hop.1.var.toList) ∧
      ctx'.anonCounter = ctx.anonCounter + (hops.flatMap fun hop => hop.2.stems ++ hop.1.stems).length := by
  intro hops
  induction hops with
  | nil =>
    intro nodes rels ctx prev hc hk _ _ _ hr
    cases hr
    refine ⟨hc, ?_, rfl⟩
    rw [flatMap_nil, flatMap_nil, append_nil, append_nil]
    exact hk
  | cons hop hops ih =>
    intro nodes rels ctx prev hc hk hprev hd hnames hr
    obtain ⟨⟨hrel, hnode⟩, hrest⟩ := forall_mem_cons.mp hnames
    obtain ⟨⟨next, ctx₁⟩, hnext, hr⟩ := bind_ok hr
    obtain ⟨ctx₂, hctx₂, hr⟩ := bind_ok hr
    obtain ⟨hhop, hlast⟩ := draws_append hd
    obtain ⟨hn, hl⟩ := draws_append hhop
    obtain ⟨hv, hc₁, hk₁, hcount₁⟩ := lowerNodePattern_known hc hk hn hnode hnext
    rw [← hcount₁] at hl
    obtain ⟨hc₂, hk₂, hcount₂⟩ := lowerRelPattern_known hc₁ hk₁ hl hrel hprev hv hctx₂
    have hcount : ctx₂.anonCounter = ctx.anonCounter + (hop.2.stems ++ hop.1.stems).length := by
      rw [hcount₂, hcount₁, length_append, Nat.add_assoc]
    rw [← hcount] at hlast
    obtain ⟨hc₃, hk₃, hcount₃⟩ := ih hc₂ hk₂ hv hlast hrest hr
    refine ⟨hc₃, ?_, ?_⟩
    · rw [flatMap_cons, flatMap_cons, ← append_assoc, ← append_assoc]
      exact hk₃
    · rw [hcount₃, hcount, flatMap_cons, Nat.add_assoc, ← length_append]

theorem lowerPattern_known {pattern : Pattern} (hnames : ∀ n ∈ pattern.nodeNames ++ pattern.relNames, P ⟨n⟩)
    (hd : Draws P 0 pattern.stems) (hr : lowerPattern validName .new pattern = .ok ctx) :
    ctx.Known P ∧ ctx.Keyed pattern.nodeNames pattern.relNames ∧ ctx.anonCounter = pattern.stems.length := by
  obtain ⟨⟨prev, ctx₁⟩, hstart, hr⟩ := bind_ok hr
  obtain ⟨hfirst, hhops⟩ := draws_append hd
  have hnode : ∀ n ∈ pattern.start.var.toList, P ⟨n⟩ := fun n hn =>
    hnames n (mem_append_left _ (mem_append_left _ hn))
  obtain ⟨hv, hc₁, hk₁, hcount⟩ := lowerNodePattern_known LowerCtx.known_new LowerCtx.keyed_new hfirst hnode hstart
  have hcount : ctx₁.anonCounter = 0 + pattern.start.stems.length := hcount
  rw [← hcount] at hhops
  have hrest : ∀ hop ∈ pattern.hops, (∀ n ∈ hop.1.var.toList, P ⟨n⟩) ∧ ∀ n ∈ hop.2.var.toList, P ⟨n⟩ := by
    intro hop hhop
    constructor
    · exact fun n hn => hnames n (mem_append_right _ (mem_flatMap.mpr ⟨hop, hhop, hn⟩))
    · exact fun n hn => hnames n
        (mem_append_left _ (mem_append_right _ (mem_flatMap.mpr ⟨hop, hhop, hn⟩)))
  obtain ⟨hc, hk, hcount'⟩ := lowerHops_known hc₁ hk₁ hv hhops hrest hr
  refine ⟨hc, hk, ?_⟩
  rw [hcount', hcount, Pattern.stems, length_append, Nat.zero_add]

/-! ## Expressions -/

theorem lowerPropertyRef_known {name prop : String} {e : Expression} (hc : ctx.Known P)
    (hp : P (column (name, prop)))
    (hr : lowerPropertyRef ctx (.var name) prop = .ok (e, ctx')) : e.VarsIn P ∧ ctx'.Known P := by
  unfold lowerPropertyRef at hr
  dsimp only at hr
  split at hr
  · cases hr
  · split at hr
    · cases hr
    · next v hnode =>
      have hv : P v := hc.nodeVars _ (mem_of_lookup hnode)
      split at hr
      · next c hknown =>
        cases hr
        exact ⟨hc.propVars _ (mem_of_lookup hknown), hc⟩
      · cases hr
        have htriple : ∀ tp ∈ [columnTriple v prop ⟨columnName name prop⟩], tp.VarsIn P := by
          intro tp htp
          rw [mem_singleton.mp htp]
          exact ⟨hv, nofun, hp⟩
        have hctx := hc.addTriples htriple
        refine ⟨hp, hctx.nodeVars, hctx.relVars, hctx.relEndpoints,
          fun entry hentry => ?_, hctx.triples, hctx.paths⟩
        rcases mem_cons.mp hentry with rfl | hentry
        · exact hp
        · exact hc.propVars entry hentry

theorem lowerVariableRef_known {name : String} {e : Expression} (hc : ctx.Known P)
    (hr : lowerVariableRef ctx name = .ok e) : e.VarsIn P := by
  unfold lowerVariableRef at hr
  split at hr
  · next v hnode =>
    cases hr
    exact hc.nodeVars _ (mem_of_lookup hnode)
  · split at hr
    · next v hrel =>
      cases hr
      exact hc.relVars _ (mem_of_lookup hrel) v rfl
    · cases hr
      trivial
    · cases hr

/-- By induction on the expression, with one argument for all binary operators. -/
theorem lowerExpr_known (e : Expr) : ∀ {ctx ctx' : LowerCtx} {lowered : Expression}, ctx.Known P →
    (∀ access ∈ e.accesses, P (column access)) → lowerExpr e ctx = .ok (lowered, ctx') →
    lowered.VarsIn P ∧ ctx'.Known P := by
  have hboth : ∀ {combine : Expression → Expression → Expression} {l r : Expr},
      (∀ {ctx ctx' lowered}, ctx.Known P → (∀ access ∈ l.accesses, P (column access)) →
        lowerExpr l ctx = .ok (lowered, ctx') → lowered.VarsIn P ∧ ctx'.Known P) →
      (∀ {ctx ctx' lowered}, ctx.Known P → (∀ access ∈ r.accesses, P (column access)) →
        lowerExpr r ctx = .ok (lowered, ctx') → lowered.VarsIn P ∧ ctx'.Known P) →
      ∀ {ctx ctx' lowered}, ctx.Known P → (∀ access ∈ l.accesses ++ r.accesses, P (column access)) →
        lowerBoth combine (lowerExpr l) (lowerExpr r) ctx = .ok (lowered, ctx') →
        (∀ a b, a.VarsIn P → b.VarsIn P → (combine a b).VarsIn P) → lowered.VarsIn P ∧ ctx'.Known P := by
    intro combine l r hl hr ctx ctx' lowered hc hall h hcombine
    obtain ⟨a, ctx₁, b, ha, hb, rfl⟩ := lowerBoth_ok h
    obtain ⟨hva, hc₁⟩ := hl hc (fun access hmem => hall access (mem_append_left _ hmem)) ha
    obtain ⟨hvb, hc₂⟩ := hr hc₁ (fun access hmem => hall access (mem_append_right _ hmem)) hb
    exact ⟨hcombine a b hva hvb, hc₂⟩
  induction e with
  | var name =>
    intro ctx ctx' lowered hc _ h
    obtain ⟨e, he, h⟩ := bind_ok h
    cases h
    exact ⟨lowerVariableRef_known hc he, hc⟩
  | property base prop _ =>
    intro ctx ctx' lowered hc hall h
    cases base with
    | var name => exact lowerPropertyRef_known hc (hall _ (mem_singleton_self _)) h
    | _ => cases h
  | literal lit =>
    intro ctx ctx' lowered hc _ h
    obtain ⟨_, _, h⟩ := bind_ok h
    cases h
    exact ⟨trivial, hc⟩
  | not inner ih =>
    intro ctx ctx' lowered hc hall h
    obtain ⟨a, ha, rfl⟩ := lowerOne_ok h
    have hinner : a.VarsIn P ∧ ctx'.Known P := ih hc hall ha
    exact hinner
  | neg inner ih =>
    intro ctx ctx' lowered hc hall h
    obtain ⟨a, ha, rfl⟩ := lowerOne_ok h
    have hinner : a.VarsIn P ∧ ctx'.Known P := ih hc hall ha
    exact hinner
  | and l r ihl ihr => exact fun hc hall h => hboth ihl ihr hc hall h fun _ _ ha hb => ⟨ha, hb⟩
  | or l r ihl ihr => exact fun hc hall h => hboth ihl ihr hc hall h fun _ _ ha hb => ⟨ha, hb⟩
  | eq l r ihl ihr => exact fun hc hall h => hboth ihl ihr hc hall h fun _ _ ha hb => ⟨ha, hb⟩
  | ne l r ihl ihr => exact fun hc hall h => hboth ihl ihr hc hall h fun _ _ ha hb => ⟨ha, hb⟩
  | lt l r ihl ihr => exact fun hc hall h => hboth ihl ihr hc hall h fun _ _ ha hb => ⟨ha, hb⟩
  | le l r ihl ihr => exact fun hc hall h => hboth ihl ihr hc hall h fun _ _ ha hb => ⟨ha, hb⟩
  | gt l r ihl ihr => exact fun hc hall h => hboth ihl ihr hc hall h fun _ _ ha hb => ⟨ha, hb⟩
  | ge l r ihl ihr => exact fun hc hall h => hboth ihl ihr hc hall h fun _ _ ha hb => ⟨ha, hb⟩
  | add l r ihl ihr => exact fun hc hall h => hboth ihl ihr hc hall h fun _ _ ha hb => ⟨ha, hb⟩
  | sub l r ihl ihr => exact fun hc hall h => hboth ihl ihr hc hall h fun _ _ ha hb => ⟨ha, hb⟩
  | mul l r ihl ihr => exact fun hc hall h => hboth ihl ihr hc hall h fun _ _ ha hb => ⟨ha, hb⟩
  | div l r ihl ihr => exact fun hc hall h => hboth ihl ihr hc hall h fun _ _ ha hb => ⟨ha, hb⟩

theorem LowerCtx.Keyed.afterExpr (hk : ctx.Keyed nodes rels) {e : Expr} {lowered : Expression}
    (hr : lowerExpr e ctx = .ok (lowered, ctx')) :
    ctx'.Keyed nodes rels ∧ ctx'.anonCounter = ctx.anonCounter := by
  have hreads := lowerExpr_reads e hr
  refine ⟨⟨?_, ?_, ?_⟩, hreads.counter⟩
  · rw [hreads.nodeVars]
    exact hk.nodeVars
  · rw [hreads.relEndpoints]
    exact hk.endpoints
  · rw [hreads.relVars]
    exact hk.bindings

/-- The pattern that `MATCH` and `WHERE` give. -/
theorem varsIn_filtered (hc : ctx.Known P) {whereExpr : Option Expression} (hw : ∀ e ∈ whereExpr, e.VarsIn P) :
    (filtered whereExpr ctx.joined).VarsIn P := by
  have hjoin : ∀ {paths : List PathBetween} {base : GraphPattern}, base.VarsIn P →
      (∀ path ∈ paths, P path.subject ∧ P path.object) →
      (paths.foldl (fun base path => .join base path.pattern) base).VarsIn P := by
    intro paths
    induction paths with
    | nil => exact fun hb _ => hb
    | cons path paths ih =>
      intro base hb hpaths
      obtain ⟨hends, hrest⟩ := forall_mem_cons.mp hpaths
      exact ih ⟨hb, hends⟩ hrest
  have hjoined : ctx.joined.VarsIn P := hjoin hc.triples hc.paths
  cases whereExpr with
  | none => exact hjoined
  | some e => exact ⟨hw e rfl, hjoined⟩

/-- `WHERE`, after the pattern. -/
theorem lowerWhere_known {whereExpr : Option Expr} {lowered : Option Expression} (hc : ctx.Known P)
    (hk : ctx.Keyed nodes rels) (hall : ∀ access ∈ (whereExpr.map Expr.accesses).getD [], P (column access))
    (hr : lowerWhere ctx whereExpr = .ok (lowered, ctx')) :
    (∀ e ∈ lowered, e.VarsIn P) ∧ ctx'.Known P ∧ ctx'.Keyed nodes rels ∧ ctx'.anonCounter = ctx.anonCounter := by
  cases whereExpr with
  | none =>
    cases hr
    exact ⟨fun e he => absurd he (by simp), hc, hk, rfl⟩
  | some e =>
    obtain ⟨⟨expr, ctx₁⟩, he, hr⟩ := bind_ok hr
    cases hr
    obtain ⟨hv, hc₁⟩ := lowerExpr_known e hc hall he
    refine ⟨fun e he => ?_, hc₁, hk.afterExpr he⟩
    cases he
    exact hv

/-! ## Read queries -/

/-- The column of an item is named in the source, or that of its access. -/
theorem lowerReturnItem_known {item : ReturnItem} {outVar : Variable} {bind : Option (Variable × Expression)}
    (hc : ctx.Known P) (hk : ctx.Keyed nodes rels) (hnames : ∀ n ∈ nodes ++ rels, P ⟨n⟩)
    (hall : ∀ access ∈ item.expr.accesses, P (column access)) (hname : ∀ n ∈ item.asName, P ⟨n⟩)
    (hr : lowerReturnItem validName ctx item = .ok (outVar, bind, ctx')) :
    P outVar ∧ (∀ b ∈ bind, P b.1 ∧ b.2.VarsIn P) ∧ ctx'.Known P ∧ ctx'.Keyed nodes rels := by
  obtain ⟨⟨lowered, ctx₁⟩, he, hr⟩ := bind_ok hr
  obtain ⟨name, hn, hr⟩ := bind_ok hr
  obtain ⟨out, hout, hr⟩ := bind_ok hr
  cases hr
  obtain ⟨hv, hc₁⟩ := lowerExpr_known item.expr hc hall he
  have hname : P ⟨name⟩ := by
    unfold returnName at hn
    cases has : item.asName with
    | some n =>
      rw [has] at hn
      have heq : n = name := Except.ok.inj hn
      exact heq ▸ hname n has
    | none =>
      rw [has] at hn
      cases hexpr : item.expr with
      | var n =>
        rw [hexpr] at hn he
        have heq : n = name := Except.ok.inj hn
        rw [← heq]
        -- the name is known: it could be lowered
        obtain ⟨e, he, _⟩ := bind_ok he
        unfold lowerVariableRef at he
        cases hnode : ctx.nodeVars.lookup n with
        | some w => exact hnames n (mem_append_left _ ((hk.nodeVars n).mp (by rw [hnode]; rfl)))
        | none =>
          rw [hnode] at he
          cases hrel : ctx.relVars.lookup n with
          | some b => exact hnames n (mem_append_right _ (hk.bindings n (by rw [hrel]; rfl)))
          | none =>
            rw [hrel] at he
            cases he
      | property base prop =>
        rw [hexpr] at hn hall
        cases base with
        | var n =>
          have heq : columnName n prop = name := Except.ok.inj hn
          rw [← heq]
          exact hall (n, prop) (mem_singleton_self _)
        | _ => cases hn
      | _ =>
        rw [hexpr] at hn
        cases hn
  have hvar : outVar = ⟨name⟩ := by
    unfold returnVariable at hout
    split at hout
    · cases hout
      rfl
    · cases hout
  rw [hvar]
  refine ⟨hname, fun b hb => ?_, hc₁, (hk.afterExpr he).1⟩
  have hboth : b = (⟨name⟩, lowered) := by
    unfold returnExtend at hb
    split at hb
    · split at hb
      · cases hb
      · exact (Option.some.inj hb).symm
    · exact (Option.some.inj hb).symm
  rw [hboth]
  exact ⟨hname, hv⟩

theorem lowerReturnItems_known : ∀ {items : List ReturnItem} {ctx : LowerCtx} {outVars : List Variable}
    {binds : List (Variable × Expression)}, ctx.Known P → ctx.Keyed nodes rels → (∀ n ∈ nodes ++ rels, P ⟨n⟩) →
    (∀ item ∈ items, (∀ access ∈ item.expr.accesses, P (column access)) ∧ ∀ n ∈ item.asName, P ⟨n⟩) →
    lowerReturnItems validName ctx items = .ok (outVars, binds, ctx') →
    (∀ v ∈ outVars, P v) ∧ (∀ b ∈ binds, P b.1 ∧ b.2.VarsIn P) ∧ ctx'.Known P ∧ ctx'.Keyed nodes rels := by
  intro items
  induction items with
  | nil =>
    intro ctx outVars binds hc hk _ _ hr
    cases hr
    exact ⟨nofun, nofun, hc, hk⟩
  | cons item items ih =>
    intro ctx outVars binds hc hk hnames hitems hr
    obtain ⟨⟨hall, hname⟩, hrest⟩ := forall_mem_cons.mp hitems
    obtain ⟨⟨outVar, bind, ctx₁⟩, hitem, hr⟩ := bind_ok hr
    obtain ⟨⟨outVars', binds', ctx₂⟩, hlast, hr⟩ := bind_ok hr
    cases hr
    obtain ⟨hv, hb, hc₁, hk₁⟩ := lowerReturnItem_known hc hk hnames hall hname hitem
    obtain ⟨hvs, hbs, hc₂, hk₂⟩ := ih hc₁ hk₁ hnames hrest hlast
    refine ⟨forall_mem_cons.mpr ⟨hv, hvs⟩, fun b hmem => ?_, hc₂, hk₂⟩
    rcases mem_append.mp hmem with hmem | hmem
    · exact hb b (Option.mem_toList.mp hmem)
    · exact hbs b hmem

theorem lowerOrderItems_known : ∀ {items : List OrderItem} {ctx : LowerCtx} {exprs : List OrderExpression},
    ctx.Known P → (∀ item ∈ items, ∀ access ∈ item.expr.accesses, P (column access)) →
    lowerOrderItems ctx items = .ok (exprs, ctx') → (∀ e ∈ exprs, e.VarsIn P) ∧ ctx'.Known P := by
  intro items
  induction items with
  | nil =>
    intro ctx exprs hc _ hr
    cases hr
    exact ⟨nofun, hc⟩
  | cons item items ih =>
    intro ctx exprs hc hitems hr
    obtain ⟨hall, hrest⟩ := forall_mem_cons.mp hitems
    obtain ⟨⟨e, ctx₁⟩, he, hr⟩ := bind_ok hr
    obtain ⟨⟨es, ctx₂⟩, hes, hr⟩ := bind_ok hr
    cases hr
    obtain ⟨hv, hc₁⟩ := lowerExpr_known item.expr hc hall he
    obtain ⟨hvs, hc₂⟩ := ih hc₁ hrest hes
    refine ⟨forall_mem_cons.mpr ⟨?_, hvs⟩, hc₂⟩
    unfold orderExpression
    split
    · exact hv
    · exact hv

theorem varsIn_extended : ∀ {binds : List (Variable × Expression)} {base : GraphPattern}, base.VarsIn P →
    (∀ b ∈ binds, P b.1 ∧ b.2.VarsIn P) → (extended binds base).VarsIn P := by
  intro binds
  induction binds with
  | nil => exact fun hb _ => hb
  | cons bind binds ih =>
    intro base hb hbinds
    obtain ⟨hbind, hrest⟩ := forall_mem_cons.mp hbinds
    exact ih ⟨hb, hbind⟩ hrest

theorem lowerQuery_known {query : CypherQuery} {q : Eval.Query}
    (hnames : ∀ n ∈ query.pattern.nodeNames ++ query.pattern.relNames, P ⟨n⟩)
    (haliases : ∀ item ∈ query.returns.items, ∀ n ∈ item.asName, P ⟨n⟩)
    (hall : ∀ access ∈ (Program.query query).accesses, P (column access)) (hd : Draws P 0 query.pattern.stems)
    (hr : lowerQuery validName query = .ok q) : (Lowered.query q).VarsIn P := by
  obtain ⟨ctx, hpattern, hr⟩ := bind_ok hr
  obtain ⟨⟨whereExpr, ctx₁⟩, hwhere, hr⟩ := bind_ok hr
  obtain ⟨⟨outVars, binds, ctx₂⟩, hreturns, hr⟩ := bind_ok hr
  obtain ⟨⟨orderExprs, ctx₃⟩, horder, hr⟩ := bind_ok hr
  cases hr
  simp only [Program.accesses, mem_append] at hall
  obtain ⟨hc, hk, _⟩ := lowerPattern_known hnames hd hpattern
  obtain ⟨hw, hc₁, hk₁, _⟩ := lowerWhere_known hc hk (fun a ha => hall a (.inl (.inl ha))) hwhere
  have hitems : ∀ item ∈ query.returns.items, (∀ access ∈ item.expr.accesses, P (column access)) ∧
      ∀ n ∈ item.asName, P ⟨n⟩ := fun item hitem =>
    ⟨fun a ha => hall a (.inl (.inr (mem_flatMap.mpr ⟨item, hitem, ha⟩))), haliases item hitem⟩
  obtain ⟨hvs, hbs, hc₂, _⟩ := lowerReturnItems_known hc₁ hk₁ hnames hitems hreturns
  obtain ⟨hes, hc₃⟩ := lowerOrderItems_known hc₂
    (fun item hitem a ha => hall a (.inr (mem_flatMap.mpr ⟨item, hitem, ha⟩))) horder
  have hrows : (ordered orderExprs (extended binds (filtered whereExpr ctx₃.joined))).VarsIn P := by
    have hext := varsIn_extended (varsIn_filtered hc₃ hw) hbs
    unfold ordered
    split
    · exact hext
    · exact ⟨hext, hes⟩
  have hproject : (GraphPattern.project (ordered orderExprs (extended binds (filtered whereExpr ctx₃.joined)))
      outVars).VarsIn P := ⟨hrows, hvs⟩
  unfold sliced distinctIf
  split <;> split <;> exact hproject

/-! ## Write clauses -/

/-- A quad of a template. -/
def TemplateIn (P : Variable → Prop) (q : Update.QuadPattern) : Prop :=
  q.subject.VarsIn P ∧ (∀ v ∈ q.predicate.vars, P v) ∧ q.object.VarsIn P ∧ q.graphName = .defaultGraph

/-- A node of `CREATE` stands for the node of its name, or for a blank node that is
counted. -/
theorem createTerm_known {bnodes bnodes' : CreateBnodes} {known : List String}
    {term : TermPattern} (hc : ctx.Known P)
    (hk : ∀ n, n ∈ known ↔ (ctx.nodeVars.lookup n).isSome = true ∨ (bnodes.lookup n).isSome = true)
    (hr : createTerm ctx bnodes name = (term, ctx', bnodes')) :
    term.VarsIn P ∧ ∃ k known', ctx' = { ctx with anonCounter := ctx.anonCounter + k } ∧
      (∀ n, n ∈ known' ↔ (ctx.nodeVars.lookup n).isSome = true ∨ (bnodes'.lookup n).isSome = true) ∧
      ∀ node nodes, node.var = name → newNodes known (node :: nodes) = k + newNodes known' nodes := by
  cases name with
  | none =>
    cases hr
    refine ⟨trivial, 1, known, rfl, hk, fun node nodes hnode => ?_⟩
    rw [newNodes, hnode]
    exact Nat.add_comm _ _
  | some n =>
    unfold createTerm at hr
    dsimp only at hr
    cases hnode : ctx.nodeVars.lookup n with
    | some v =>
      rw [hnode] at hr
      cases hr
      refine ⟨hc.nodeVars _ (mem_of_lookup hnode), 0, known, rfl, hk, fun node nodes hn => ?_⟩
      have hmem : n ∈ known := (hk n).mpr (.inl (by rw [hnode]; rfl))
      rw [newNodes, hn, Nat.zero_add]
      exact if_pos hmem
    | none =>
      rw [hnode] at hr
      cases hb : bnodes.lookup n with
      | some b =>
        rw [hb] at hr
        cases hr
        refine ⟨trivial, 0, known, rfl, hk, fun node nodes hn => ?_⟩
        have hmem : n ∈ known := (hk n).mpr (.inr (by rw [hb]; rfl))
        rw [newNodes, hn, Nat.zero_add]
        exact if_pos hmem
      | none =>
        rw [hb] at hr
        cases hr
        refine ⟨trivial, 1, n :: known, rfl, fun m => ?_, fun node nodes hn => ?_⟩
        · rw [lookup_cons_isSome, mem_cons, hk, or_left_comm]
        · have hmem : n ∉ known := by
            rw [hk, hnode, hb]
            simp
          rw [newNodes, hn]
          exact (if_neg hmem).trans (Nat.add_comm _ _)

theorem lowerCreateNode_known {bnodes bnodes' : CreateBnodes} {known : List String} {node : NodePattern}
    {term : TermPattern} {quads : List Update.QuadPattern} (hc : ctx.Known P)
    (hk : ∀ n, n ∈ known ↔ (ctx.nodeVars.lookup n).isSome = true ∨ (bnodes.lookup n).isSome = true)
    (hr : lowerCreateNode ctx bnodes node = .ok (term, quads, ctx', bnodes')) :
    term.VarsIn P ∧ (∀ q ∈ quads, TemplateIn P q) ∧
      ∃ k known', ctx' = { ctx with anonCounter := ctx.anonCounter + k } ∧
        (∀ n, n ∈ known' ↔ (ctx.nodeVars.lookup n).isSome = true ∨ (bnodes'.lookup n).isSome = true) ∧
        ∀ nodes, newNodes known (node :: nodes) = k + newNodes known' nodes := by
  unfold lowerCreateNode at hr
  rcases hterm : createTerm ctx bnodes node.var with ⟨t, ctx₁, bnodes₁⟩
  rw [hterm] at hr
  obtain ⟨properties, hprops, hr⟩ := bind_ok hr
  cases hr
  obtain ⟨ht, k, known', hctx, hk', hcount⟩ := createTerm_known hc hk hterm
  refine ⟨ht, fun q hq => ?_, k, known', hctx, hk', fun nodes => hcount node nodes rfl⟩
  rcases mem_append.mp hq with hq | hq
  · obtain ⟨label, _, rfl⟩ := mem_map.mp hq
    exact ⟨ht, nofun, trivial, rfl⟩
  · obtain ⟨entry, _, hentry⟩ := (mapM_ok_inv hprops).2 q hq
    obtain ⟨value, hvalue, hentry⟩ := bind_ok hentry
    obtain ⟨lit, _, hlit⟩ := bind_ok hvalue
    cases hlit
    cases hentry
    exact ⟨ht, nofun, trivial, rfl⟩

theorem lowerCreateRel_known {start stop : TermPattern} {q : Update.QuadPattern}
    (hstart : start.VarsIn P) (hstop : stop.VarsIn P) (hr : lowerCreateRel rel start stop = .ok q) :
    TemplateIn P q := by
  unfold lowerCreateRel at hr
  split at hr
  · cases hr
  split at hr
  · cases hr
  cases htype : rel.relType with
  | none =>
    rw [htype] at hr
    cases hr
  | some relType =>
    rw [htype] at hr
    cases hdirection : rel.direction with
    | left =>
      rw [hdirection] at hr
      cases hr
      exact ⟨hstop, nofun, hstart, rfl⟩
    | _ =>
      rw [hdirection] at hr
      cases hr
      exact ⟨hstart, nofun, hstop, rfl⟩

theorem lowerCreateHops_known : ∀ {hops : List (RelPattern × NodePattern)} {ctx : LowerCtx}
    {bnodes : CreateBnodes} {known : List String} {prev : TermPattern} {quads : List Update.QuadPattern},
    ctx.Known P →
    (∀ n, n ∈ known ↔ (ctx.nodeVars.lookup n).isSome = true ∨ (bnodes.lookup n).isSome = true) → prev.VarsIn P →
    lowerCreateHops ctx bnodes prev hops = .ok (quads, ctx') →
    (∀ q ∈ quads, TemplateIn P q) ∧
      ctx' = { ctx with anonCounter := ctx.anonCounter + newNodes known (hops.map Prod.snd) } := by
  intro hops
  induction hops with
  | nil =>
    intro ctx bnodes known prev quads _ _ _ hr
    cases hr
    exact ⟨nofun, rfl⟩
  | cons hop hops ih =>
    intro ctx bnodes known prev quads hc hk hprev hr
    obtain ⟨⟨next, first, ctx₁, bnodes₁⟩, hnode, hr⟩ := bind_ok hr
    obtain ⟨quad, hrel, hr⟩ := bind_ok hr
    obtain ⟨⟨rest, ctx₂⟩, hrest, hr⟩ := bind_ok hr
    cases hr
    obtain ⟨hnext, hfirst, k, known', rfl, hk', hcount⟩ := lowerCreateNode_known hc hk hnode
    obtain ⟨hquads, rfl⟩ := ih (hc.count (ctx.anonCounter + k)) hk' hnext hrest
    refine ⟨fun q hq => ?_, ?_⟩
    · rcases mem_append.mp hq with hq | hq
      · exact hfirst q hq
      · rcases mem_cons.mp hq with rfl | hq
        · exact lowerCreateRel_known hprev hnext hrel
        · exact hquads q hq
    · rw [map_cons, hcount, ← Nat.add_assoc]

variable {base : GraphPattern}

theorem lowerCreate_known {pattern : Pattern} {op : DeleteInsert} (hc : ctx.Known P)
    (hk : ctx.Keyed nodes rels) (hbase : base.VarsIn P) (hr : lowerCreate ctx pattern base = .ok (op, ctx')) :
    op.VarsIn P ∧ ctx' = { ctx with anonCounter := ctx.anonCounter + newNodes nodes pattern.nodes } := by
  obtain ⟨⟨prev, first, ctx₁, bnodes₁⟩, hnode, hr⟩ := bind_ok hr
  obtain ⟨⟨rest, ctx₂⟩, hrest, hr⟩ := bind_ok hr
  cases hr
  have hknown : ∀ n, n ∈ nodes ↔ (ctx.nodeVars.lookup n).isSome = true ∨
      (([] : CreateBnodes).lookup n).isSome = true := by
    intro n
    rw [hk.nodeVars]
    simp
  obtain ⟨hprev, hfirst, k, known', rfl, hk', hcount⟩ := lowerCreateNode_known hc hknown hnode
  obtain ⟨hquads, rfl⟩ := lowerCreateHops_known (hc.count (ctx.anonCounter + k)) hk' hprev hrest
  refine ⟨⟨nofun, fun q hq => ?_, hbase⟩, ?_⟩
  · rcases mem_append.mp hq with hq | hq
    · exact hfirst q hq
    · exact hquads q hq
  · rw [Pattern.nodes, hcount, ← Nat.add_assoc]

theorem lookupWrittenNodeVar_known {name kw : String} (hc : ctx.Known P)
    (hr : lookupWrittenNodeVar ctx name kw = .ok v) : P v := by
  unfold lookupWrittenNodeVar at hr
  split at hr
  · next w hnode =>
    cases hr
    exact hc.nodeVars _ (mem_of_lookup hnode)
  · cases hr

/-- An operation that removes one triple at most and adds one at most, with constant
predicates. -/
theorem varsIn_withOld {old : Variable} (hbase : base.VarsIn P) (hv : P v) (hold : P old)
    (property : String) : (withOld base v property old).VarsIn P := by
  refine ⟨hbase, fun tp htp => ?_⟩
  rw [mem_singleton.mp htp]
  exact ⟨hv, nofun, hold⟩

/-- DELETE of a node draws four names, of a relationship none. -/
theorem lowerDelete_known (hbase : base.VarsIn P) : ∀ {names : List String} {ctx : LowerCtx}
    {ops : List DeleteInsert}, ctx.Known P → ctx.Keyed nodes rels →
    Draws P ctx.anonCounter (names.flatMap fun name => if name ∈ rels then [] else ["del_p", "del_o", "del_s", "del_p2"]) →
    lowerDelete base ctx names = .ok (ops, ctx') → (∀ op ∈ ops, op.VarsIn P) ∧
      ctx' = { ctx with anonCounter := ctx.anonCounter +
        (names.flatMap fun name => if name ∈ rels then [] else ["del_p", "del_o", "del_s", "del_p2"]).length } := by
  intro names
  induction names with
  | nil =>
    intro ctx ops _ _ _ hr
    cases hr
    exact ⟨nofun, rfl⟩
  | cons name names ih =>
    intro ctx ops hc hk hd hr
    rw [flatMap_cons] at hd ⊢
    unfold lowerDelete at hr
    cases hends : ctx.relEndpoints.lookup name with
    | some ends =>
      have hmem : name ∈ rels := (hk.endpoints name).mp (by rw [hends]; rfl)
      rw [hends] at hr
      rw [if_pos hmem, nil_append] at hd ⊢
      cases hbinding : ctx.relVars.lookup name with
      | none =>
        rw [hbinding] at hr
        cases hr
      | some binding =>
        rw [hbinding] at hr
        obtain ⟨⟨rest, ctx₁⟩, hrest, hr⟩ := bind_ok hr
        cases hr
        obtain ⟨hops, hctx⟩ := ih hc hk hd hrest
        refine ⟨forall_mem_cons.mpr ⟨⟨fun q hq => ?_, nofun, hbase⟩, hops⟩, hctx⟩
        obtain ⟨hs, ho⟩ := hc.relEndpoints _ (mem_of_lookup hends)
        rw [mem_singleton.mp hq]
        refine ⟨hs, fun v hv => ?_, ho, rfl⟩
        cases binding with
        | const n => exact absurd hv not_mem_nil
        | var w =>
          rw [mem_singleton.mp hv]
          exact hc.relVars _ (mem_of_lookup hbinding) w rfl
    | none =>
      have hmem : name ∉ rels := fun h => by
        have := (hk.endpoints name).mpr h
        rw [hends] at this
        cases this
      rw [hends] at hr
      rw [if_neg hmem] at hd ⊢
      obtain ⟨v, hv, hr⟩ := bind_ok hr
      obtain ⟨⟨rest, ctx₁⟩, hrest, hr⟩ := bind_ok hr
      cases hr
      have hnode := lookupWrittenNodeVar_known hc hv
      -- predicate and object of the one side, subject and predicate of the other
      obtain ⟨hfour, hlast⟩ := draws_append hd
      obtain ⟨hpred, hfour⟩ := draws_cons hfour (by decide)
      obtain ⟨hobj, hfour⟩ := draws_cons hfour (by decide)
      obtain ⟨hsubj, hfour⟩ := draws_cons hfour (by decide)
      obtain ⟨hpred2, _⟩ := draws_cons hfour (by decide)
      obtain ⟨hops, hctx⟩ := ih (hc.count (ctx.anonCounter + 4)) (hk.count _) hlast hrest
      refine ⟨forall_mem_cons.mpr ⟨?_, forall_mem_cons.mpr ⟨?_, hops⟩⟩, ?_⟩
      · refine ⟨fun q hq => ?_, nofun, ⟨hbase, fun tp htp => ?_⟩⟩
        · rw [mem_singleton.mp hq]
          exact ⟨hnode, fun w hw => (mem_singleton.mp hw) ▸ hpred, hobj, rfl⟩
        · rw [mem_singleton.mp htp]
          exact ⟨hnode, fun w hw => (mem_singleton.mp hw) ▸ hpred, hobj⟩
      · refine ⟨fun q hq => ?_, nofun, ⟨hbase, fun tp htp => ?_⟩⟩
        · rw [mem_singleton.mp hq]
          exact ⟨hsubj, fun w hw => (mem_singleton.mp hw) ▸ hpred2, hnode, rfl⟩
        · rw [mem_singleton.mp htp]
          exact ⟨hsubj, fun w hw => (mem_singleton.mp hw) ▸ hpred2, hnode⟩
      · rw [hctx, length_append, ← Nat.add_assoc]
        rfl

/-- Every variable of a lowered clause is one of the statement or a drawn name. -/
theorem lowerWrite_known {write : WriteClause} {ops : List DeleteInsert}
    (hbase : base.VarsIn P) (hc : ctx.Known P) (hk : ctx.Keyed nodes rels)
    (hd : Draws P ctx.anonCounter (write.stems nodes rels)) (hall : ∀ access ∈ write.accesses, P (column access))
    (hr : lowerWrite base ctx write = .ok (ops, ctx')) :
    (∀ op ∈ ops, op.VarsIn P) ∧ ctx'.Known P ∧ ctx'.Keyed nodes rels ∧
      ctx'.anonCounter = ctx.anonCounter + (write.stems nodes rels).length := by
  have hempty : ∀ q : Update.GroundQuadPattern, q ∈ [] → q.subject.VarsIn P ∧ (∀ v ∈ q.predicate.vars, P v) ∧
      q.object.VarsIn P ∧ q.graphName = .defaultGraph := nofun
  cases write with
  | create pattern =>
    obtain ⟨⟨op, ctx₁⟩, hcreate, hr⟩ := bind_ok hr
    cases hr
    obtain ⟨hop, rfl⟩ := lowerCreate_known hc hk hbase hcreate
    refine ⟨fun op' hop' => (mem_singleton.mp hop') ▸ hop, hc.count _, hk.count _, ?_⟩
    rw [WriteClause.stems, length_replicate]
  | setProperty name property value =>
    obtain ⟨⟨op, ctx₁⟩, hset, hr⟩ := bind_ok hr
    cases hr
    obtain ⟨v, hv, hset⟩ := bind_ok hset
    obtain ⟨⟨e, ctx₂⟩, he, hset⟩ := bind_ok hset
    cases hset
    have hnode := lookupWrittenNodeVar_known hc hv
    -- SET draws a name for the old value, and after its expression one for the new
    obtain ⟨hold, hd⟩ := draws_cons hd (by decide)
    have hk₁ : (ctx.freshVar "set_old").2.Keyed nodes rels := hk.count _
    have hc₁ : (ctx.freshVar "set_old").2.Known P := hc.count _
    obtain ⟨hexpr, hc₂⟩ := lowerExpr_known value hc₁ hall he
    obtain ⟨hk₂, hcount⟩ := hk₁.afterExpr he
    have hcount : ctx₂.anonCounter = ctx.anonCounter + 1 := hcount
    rw [← hcount] at hd
    have hnew := draws_one hd (by decide)
    refine ⟨fun op hop => ?_, hc₂.count _, hk₂.count _, ?_⟩
    · rw [mem_singleton.mp hop]
      refine ⟨fun q hq => ?_, fun q hq => ?_, varsIn_withOld hbase hnode hold property, hnew, hexpr⟩
      · rw [mem_singleton.mp hq]
        exact ⟨hnode, nofun, hold, rfl⟩
      · rw [mem_singleton.mp hq]
        exact ⟨hnode, nofun, hnew, rfl⟩
    · show ctx₂.anonCounter + 1 = _
      rw [hcount]
      rfl
  | setLabel name label =>
    obtain ⟨op, hset, hr⟩ := bind_ok hr
    cases hr
    obtain ⟨v, hv, hset⟩ := bind_ok hset
    cases hset
    refine ⟨fun op hop => ?_, hc, hk, rfl⟩
    rw [mem_singleton.mp hop]
    refine ⟨hempty, fun q hq => ?_, hbase⟩
    rw [mem_singleton.mp hq]
    exact ⟨lookupWrittenNodeVar_known hc hv, nofun, trivial, rfl⟩
  | delete names detach =>
    obtain ⟨hops, rfl⟩ := lowerDelete_known hbase hc hk hd hr
    exact ⟨hops, hc.count _, hk.count _, rfl⟩
  | removeProperty name property =>
    obtain ⟨⟨op, ctx₁⟩, hremove, hr⟩ := bind_ok hr
    cases hr
    obtain ⟨v, hv, hremove⟩ := bind_ok hremove
    cases hremove
    have hnode := lookupWrittenNodeVar_known hc hv
    have hold := draws_one hd (by decide)
    refine ⟨fun op hop => ?_, hc.count _, hk.count _, rfl⟩
    rw [mem_singleton.mp hop]
    refine ⟨fun q hq => ?_, nofun, varsIn_withOld hbase hnode hold property⟩
    rw [mem_singleton.mp hq]
    exact ⟨hnode, nofun, hold, rfl⟩
  | removeLabel name label =>
    obtain ⟨op, hremove, hr⟩ := bind_ok hr
    cases hr
    obtain ⟨v, hv, hremove⟩ := bind_ok hremove
    cases hremove
    refine ⟨fun op hop => ?_, hc, hk, rfl⟩
    rw [mem_singleton.mp hop]
    refine ⟨fun q hq => ?_, nofun, hbase⟩
    rw [mem_singleton.mp hq]
    exact ⟨lookupWrittenNodeVar_known hc hv, nofun, trivial, rfl⟩

theorem lowerWrites_known (hbase : base.VarsIn P) : ∀ {writes : List WriteClause}
    {ctx : LowerCtx} {ops : List DeleteInsert}, ctx.Known P → ctx.Keyed nodes rels →
    Draws P ctx.anonCounter (writes.flatMap (WriteClause.stems nodes rels)) →
    (∀ access ∈ writes.flatMap WriteClause.accesses, P (column access)) →
    lowerWrites base ctx writes = .ok ops → ∀ op ∈ ops, op.VarsIn P := by
  intro writes
  induction writes with
  | nil =>
    intro ctx ops _ _ _ _ hr op hop
    cases hr
    exact absurd hop not_mem_nil
  | cons write writes ih =>
    intro ctx ops hc hk hd hall hr op hop
    obtain ⟨⟨first, ctx₁⟩, hfirst, hr⟩ := bind_ok hr
    obtain ⟨rest, hrest, hr⟩ := bind_ok hr
    cases hr
    obtain ⟨hd₁, hd₂⟩ := draws_append hd
    obtain ⟨hops, hc₁, hk₁, hcount⟩ := lowerWrite_known hbase hc hk hd₁
      (fun a ha => hall a (mem_append_left _ ha)) hfirst
    rw [← hcount] at hd₂
    rcases mem_append.mp hop with hop | hop
    · exact hops op hop
    · exact ih hc₁ hk₁ hd₂ (fun a ha => hall a (mem_append_right _ ha)) hrest op hop

theorem lowerStatement_known {stmt : CypherStatement} {ops : List DeleteInsert}
    (hnames : ∀ n ∈ stmt.nodeNames ++ stmt.relNames, P ⟨n⟩) (hall : ∀ access ∈ stmt.accesses, P (column access))
    (hd : Draws P 0 (Program.statement stmt).stems) (hr : lowerStatement validName stmt = .ok ops) :
    ∀ op ∈ ops, op.VarsIn P := by
  obtain ⟨⟨base, ctx⟩, hmatch, hr⟩ := bind_ok hr
  obtain ⟨ctx₁, hpattern, hmatch⟩ := bind_ok hmatch
  obtain ⟨⟨whereExpr, ctx₂⟩, hwhere, hmatch⟩ := bind_ok hmatch
  cases hmatch
  obtain ⟨hd₁, hd₂⟩ := draws_append hd
  have hstart : ctx₁.Known P ∧ ctx₁.Keyed stmt.nodeNames stmt.relNames ∧
      ctx₁.anonCounter = ((stmt.pattern.map Pattern.stems).getD []).length := by
    unfold CypherStatement.nodeNames CypherStatement.relNames at hnames ⊢
    cases hp : stmt.pattern with
    | none =>
      rw [hp] at hpattern
      cases hpattern
      exact ⟨LowerCtx.known_new, LowerCtx.keyed_new, rfl⟩
    | some pattern =>
      rw [hp] at hpattern hnames hd₁
      exact lowerPattern_known hnames hd₁ hpattern
  obtain ⟨hc₁, hk₁, hcount₁⟩ := hstart
  obtain ⟨hw, hc₂, hk₂, hcount₂⟩ := lowerWhere_known hc₁ hk₁ (fun a ha => hall a (mem_append_left _ ha)) hwhere
  rw [Nat.zero_add, ← hcount₁, ← hcount₂] at hd₂
  exact lowerWrites_known (varsIn_filtered hc₂ hw) hc₂ hk₂ hd₂ (fun a ha => hall a (mem_append_right _ ha)) hr

end

/-! ## Programs -/

theorem Program.draws_purposes (p : Program) : Draws p.Accounted 0 p.stems := by
  intro i stem hat hne
  rw [Nat.zero_add]
  exact .inr (.inr ⟨.helper stem i, mem_purposes.mpr (.inr ⟨stem, i, mem_helpers.mpr ⟨hat, hne⟩, rfl⟩), rfl⟩)

theorem Program.accounted_column {p : Program} {access : String × String} (h : access ∈ p.accesses) :
    p.Accounted (column access) :=
  .inr (.inr ⟨.access access.1 access.2, mem_purposes.mpr (.inl ⟨_, _, h, rfl⟩), rfl⟩)

/-- Every variable of a lowered program is accounted for. -/
theorem lowered_accounted {validName : String → Bool} {p : Program} {out : Lowered}
    (hr : p.lower validName = .ok out) : out.VarsIn p.Accounted := by
  cases p with
  | query query =>
    obtain ⟨q, hq, hr⟩ := bind_ok hr
    cases hr
    refine lowerQuery_known (fun n hn => .inl ⟨n, hn, rfl⟩) (fun item hitem n hn => ?_)
      (fun access ha => Program.accounted_column ha) (Program.query query).draws_purposes hq
    refine .inr (.inl ⟨(item.expr, n), mem_filterMap.mpr ⟨item, hitem, ?_⟩, rfl⟩)
    rw [Option.mem_def.mp hn]
    rfl
  | statement stmt =>
    obtain ⟨ops, hops, hr⟩ := bind_ok hr
    cases hr
    exact lowerStatement_known (fun n hn => .inl ⟨n, mem_append_left _ hn, rfl⟩)
      (fun access ha => Program.accounted_column (p := .statement stmt) ha)
        (Program.statement stmt).draws_purposes hops

/-- The variables of a lowered program are those of its names and purposes, and they
are distinct if and only if the names in the source are apart. -/
theorem hygienic_iff {validName : String → Bool} {p : Program} {out : Lowered} (hr : p.lower validName = .ok out) :
    out.VarsIn p.Accounted ∧ (Distinct p ↔ NamesApart p) :=
  ⟨lowered_accounted hr, distinct_iff_namesApart p⟩

/-- `MATCH (n)-->() RETURN n.name AS name` -/
def nameOf : CypherQuery where
  pattern := ⟨⟨some "n", [], []⟩, [(⟨none, none, .right, none, []⟩, ⟨none, [], []⟩)]⟩
  whereExpr := none
  returns := ⟨false, [⟨.property (.var "n") "name", some "name"⟩]⟩
  orderBy := []
  skip := none
  limit := none

theorem namesApart_nameOf : NamesApart (.query nameOf) where
  columns := by
    rintro name rest prop ⟨hx, hy⟩
    have hname : name = "n" := (Prod.mk.inj (mem_singleton.mp hx)).1
    have hlong : name ++ "_" ++ rest = "n" := (Prod.mk.inj (mem_singleton.mp hy)).1
    have hlen := congrArg String.length (hlong.trans hname.symm)
    simp only [String.length_append] at hlen
    have : "_".length = 1 := by decide
    omega
  columnNames := by decide
  columnHelpers := by decide
  helperNames := by decide
  numbers := by
    intro m n hm _
    have hstem := (mem_helpers.mp hm).1
    have hall : "del_p" ∉ (Program.query nameOf).stems := by decide
    exact absurd (mem_of_getElem? hstem) hall
  columnAliases := by decide
  helperAliases := by decide

/-- A query that returns one property. -/
theorem hygienic_nameOf : ∃ out, (Program.query nameOf).lower (fun _ => true) = .ok out ∧
    out.VarsIn (Program.query nameOf).Accounted ∧ Distinct (.query nameOf) := by
  have hr : ∃ out, (Program.query nameOf).lower (fun _ => true) = .ok out := ⟨_, rfl⟩
  obtain ⟨out, hr⟩ := hr
  exact ⟨out, hr, (hygienic_iff hr).1, (hygienic_iff hr).2.mpr namesApart_nameOf⟩

/-- `MATCH (n)-[:R]->(n_a) RETURN n.a_b AS x, n_a.b AS y` -/
def twoProperties : CypherQuery where
  pattern := ⟨⟨some "n", [], []⟩, [(⟨none, some "R", .right, none, []⟩, ⟨some "n_a", [], []⟩)]⟩
  whereExpr := none
  returns := ⟨false, [⟨.property (.var "n") "a_b", some "x"⟩, ⟨.property (.var "n_a") "b", some "y"⟩]⟩
  orderBy := []
  skip := none
  limit := none

/-- Both properties are the variable `n_a_b`. -/
theorem shared_column :
    ¬∀ (p : Program) (out : Lowered), p.lower (fun _ => true) = .ok out → Distinct p := by
  intro hclaim
  have h := hclaim (.query twoProperties) _ rfl
  exact absurd (h.purposes (.access "n" "a_b") (by decide) (.access "n_a" "b") (by decide) (by decide)) (by decide)

end Cypher

end Nova
