import Nova.Cypher.Lower

/-!
# The variables of a lowered pattern

Which variables stand at the ends of the triples and paths that `MATCH` and `WHERE`
are lowered to, and which as a predicate: named nodes, property columns and anonymous
nodes on one side, named and anonymous relationships on the other (`lowerMatch_matched`).
Where no variable plays both parts, no predicate is misread (`noMisread_of_roles`).

`RelsApart` asks this of the names of a statement, `Hygienic` moreover that columns
and generated names are those of nothing else.
-/

namespace Nova

open Nova.Lib List

/-! ## Roles -/

/-- The ends and the predicate of a triple pattern have the roles given; a pattern
with a quoted subject only has some role for each variable. -/
def TriplePattern.InRoles (End Pred : Variable → Prop) (tp : TriplePattern) : Prop :=
  (∀ v ∈ tp.vars, End v ∨ Pred v) ∧
    (tp.subject.isQuoted = true ∨
      (∀ v ∈ tp.subject.vars, End v) ∧ (∀ v ∈ tp.predicate.vars, Pred v) ∧ ∀ v ∈ tp.object.vars, End v)

theorem not_fits_of_quoted {tp : TriplePattern} (hq : tp.subject.isQuoted = true) (before : List Variable)
    (μ : Mapping) (q : Quad) : ¬Fits before tp μ q := by
  rintro ⟨hs, _⟩
  cases hsub : tp.subject with
  | triple s p o =>
    rw [hsub] at hs
    cases hqs : q.subject with
    | namedNode n =>
      rw [hqs] at hs
      exact hs
    | blankNode b =>
      rw [hqs] at hs
      exact hs
  | _ =>
    rw [hsub] at hq
    cases hq

section Roles

variable {End Pred : Variable → Prop}

theorem iri_of_fitsAll (hapart : ∀ v, End v → ¬Pred v) {S : Finset Quad} {graph : GraphSelector} {μ : Mapping} :
    ∀ {patterns : List TriplePattern} {before : List Variable}, (∀ tp ∈ patterns, tp.InRoles End Pred) →
      (∀ v ∈ before, Pred v → ∃ n, μ v = some (.namedNode n)) → FitsAll S graph before patterns μ →
      ¬Misread before patterns μ := by
  intro patterns
  induction patterns with
  | nil => exact fun _ _ _ h => h
  | cons tp rest ih =>
    intro before hroles hbefore hfits hmis
    obtain ⟨⟨hvars, hsides⟩, hrest⟩ := forall_mem_cons.mp hroles
    obtain ⟨⟨q, _, hfit⟩, hfits⟩ := hfits
    rcases hsides with hq | ⟨hs, hp, ho⟩
    · exact not_fits_of_quoted hq before μ q hfit
    -- a predicate that was bound before is an IRI
    have hno : ¬Bypassed before tp.predicate μ := by
      rintro ⟨v, t, hv, hmem, ht, hiri⟩
      obtain ⟨n, hn⟩ := hbefore v hmem (hp v (by rw [hv]; exact mem_singleton_self v))
      exact hiri n (Option.some.inj (ht.symm.trans hn))
    rcases hmis with hmis | hmis
    · exact hno hmis
    · refine ih hrest ?_ hfits hmis
      intro v hv hpred
      rcases mem_append.mp hv with hv | hv
      · exact hbefore v hv hpred
      · simp only [TriplePattern.vars, mem_append] at hv
        rcases hv with (hv | hv) | hv
        · exact absurd hpred (hapart v (hs v hv))
        · have hm := hfit.2.1.resolve_right hno
          cases hnnp : tp.predicate with
          | namedNode n =>
            rw [hnnp] at hv
            cases hv
          | var w =>
            rw [hnnp] at hv hm
            rw [mem_singleton.mp hv]
            exact ⟨q.predicate, hm⟩
        · exact absurd hpred (hapart v (ho v hv))

theorem noMisread_of_roles (hapart : ∀ v, End v → ¬Pred v) {patterns : List TriplePattern}
    (h : ∀ tp ∈ patterns, tp.InRoles End Pred) (S : Finset Quad) (graph : GraphSelector) :
    NoMisread S graph patterns := by
  intro μ _ hfits
  exact iri_of_fitsAll hapart h nofun hfits

end Roles

theorem noMisread_single (tp : TriplePattern) (S : Finset Quad) (graph : GraphSelector) :
    NoMisread S graph [tp] := by
  rintro μ _ _ (⟨v, t, _, hmem, _⟩ | hmis)
  · exact absurd hmem not_mem_nil
  · exact hmis

namespace Cypher

/-! ## The names of a statement -/

def Pattern.nodeNames (p : Pattern) : List String :=
  p.start.var.toList ++ p.hops.flatMap fun hop => hop.2.var.toList

def Pattern.relNames (p : Pattern) : List String := p.hops.flatMap fun hop => hop.1.var.toList

/-- The property accesses of an expression. -/
def Expr.accesses : Expr → List (String × String)
  | .var _ => []
  | .property (.var name) prop => [(name, prop)]
  | .property _ _ => []
  | .literal _ => []
  | .and l r => l.accesses ++ r.accesses
  | .or l r => l.accesses ++ r.accesses
  | .not inner => inner.accesses
  | .eq l r => l.accesses ++ r.accesses
  | .ne l r => l.accesses ++ r.accesses
  | .lt l r => l.accesses ++ r.accesses
  | .le l r => l.accesses ++ r.accesses
  | .gt l r => l.accesses ++ r.accesses
  | .ge l r => l.accesses ++ r.accesses
  | .add l r => l.accesses ++ r.accesses
  | .sub l r => l.accesses ++ r.accesses
  | .mul l r => l.accesses ++ r.accesses
  | .div l r => l.accesses ++ r.accesses
  | .neg inner => inner.accesses

/-- The accesses of the value that a clause sets. -/
def WriteClause.accesses : WriteClause → List (String × String)
  | .setProperty _ _ value => value.accesses
  | _ => []

namespace CypherStatement

variable (stmt : CypherStatement)

def nodeNames : List String := (stmt.pattern.map Pattern.nodeNames).getD []

def relNames : List String := (stmt.pattern.map Pattern.relNames).getD []

/-- The accesses of `WHERE`. -/
def whereAccesses : List (String × String) := (stmt.whereExpr.map Expr.accesses).getD []

/-- The accesses of `WHERE` and of the values set. -/
def accesses : List (String × String) := stmt.whereAccesses ++ stmt.writes.flatMap WriteClause.accesses

end CypherStatement

def column (access : String × String) : Variable := ⟨columnName access.1 access.2⟩

/-- A name that the lowering makes up. -/
def Generated (name : String) : Prop := ∃ stem n, name = LowerCtx.generatedName stem n ∧
  stem ∈ ["node", "rel", "set_old", "set_val", "remove_old", "del_p", "del_o", "del_s", "del_p2"]

/-- The variables at the ends of a lowered pattern. -/
def EndVar (nodes : List String) (accesses : List (String × String)) (v : Variable) : Prop :=
  v.name ∈ nodes ∨ (∃ access ∈ accesses, v = column access) ∨ ∃ n, v.name = LowerCtx.generatedName "node" n

/-- The variables in predicate position. -/
def PredVar (rels : List String) (v : Variable) : Prop :=
  v.name ∈ rels ∨ ∃ n, v.name = LowerCtx.generatedName "rel" n

/-- No relationship variable is also that of a node or of a property, and none of the
names in the pattern is generated. -/
structure RelsApart (stmt : CypherStatement) : Prop where
  nodes : ∀ name ∈ stmt.relNames, name ∉ stmt.nodeNames
  columns : ∀ name ∈ stmt.relNames, ∀ access ∈ stmt.whereAccesses, name ≠ columnName access.1 access.2
  generatedRels : ∀ name ∈ stmt.relNames, ¬Generated name
  generatedNodes : ∀ name ∈ stmt.nodeNames, ¬Generated name
  generatedColumns : ∀ access ∈ stmt.whereAccesses, ¬Generated (columnName access.1 access.2)

/-- Moreover every access has a column of its own, which is no other variable. -/
structure Hygienic (stmt : CypherStatement) : Prop extends RelsApart stmt where
  columnNodes : ∀ access ∈ stmt.accesses, columnName access.1 access.2 ∉ stmt.nodeNames
  columnRels : ∀ access ∈ stmt.accesses, columnName access.1 access.2 ∉ stmt.relNames
  columnGenerated : ∀ access ∈ stmt.accesses, ¬Generated (columnName access.1 access.2)
  columnsApart : ∀ a ∈ stmt.accesses, ∀ b ∈ stmt.accesses, column a = column b → a = b

/-! ## Generated names -/

theorem generatedName_ne {a b : String} {i : Nat} {c d : Char} (ha : a.toList[i]? = some c)
    (hb : b.toList[i]? = some d) (hne : c ≠ d) (m n : Nat) :
    LowerCtx.generatedName a m ≠ LowerCtx.generatedName b n := by
  intro heq
  have hat : ∀ {stem : String} {c : Char} (k : Nat), stem.toList[i]? = some c →
      (LowerCtx.generatedName stem k).toList[i + 1]? = some c := by
    intro stem c k hstem
    have hlt : i < stem.toList.length := (List.getElem?_eq_some_iff.mp hstem).1
    have hlist : (LowerCtx.generatedName stem k).toList = '_' :: (stem.toList ++ (toString k).toList) := by
      simp [LowerCtx.generatedName, String.toList_append]
    rw [hlist, getElem?_cons_succ, getElem?_append_left hlt, hstem]
  have hboth := hat m ha
  rw [heq, hat n hb] at hboth
  exact hne (Option.some.inj hboth).symm

theorem generated_of_stem {stem : String}
    (h : stem ∈ ["node", "rel", "set_old", "set_val", "remove_old", "del_p", "del_o", "del_s", "del_p2"]) (n : Nat) :
    Generated (LowerCtx.generatedName stem n) := ⟨stem, n, rfl, h⟩

variable {name : String}

theorem not_generated (h : name.toList.head? ≠ some '_') : ¬Generated name := by
  rintro ⟨stem, n, rfl, _⟩
  refine h ?_
  simp [LowerCtx.generatedName, String.toList_append]

theorem RelsApart.disjoint {stmt : CypherStatement} (h : RelsApart stmt) (v : Variable)
    (hend : EndVar stmt.nodeNames stmt.whereAccesses v) : ¬PredVar stmt.relNames v := by
  have hnode : ∀ n, Generated (LowerCtx.generatedName "node" n) := generated_of_stem (by decide)
  have hrel : ∀ n, Generated (LowerCtx.generatedName "rel" n) := generated_of_stem (by decide)
  rintro (hrels | ⟨n, hn⟩)
  · rcases hend with hnodes | ⟨access, ha, rfl⟩ | ⟨m, hm⟩
    · exact h.nodes v.name hrels hnodes
    · exact h.columns _ hrels access ha rfl
    · exact h.generatedRels v.name hrels (hm ▸ hnode m)
  · rcases hend with hnodes | ⟨access, ha, rfl⟩ | ⟨m, hm⟩
    · exact h.generatedNodes v.name hnodes (hn ▸ hrel n)
    · have hcolumn : columnName access.1 access.2 = LowerCtx.generatedName "rel" n := hn
      exact h.generatedColumns access ha (hcolumn ▸ hrel n)
    · exact generatedName_ne (i := 0) rfl rfl (by decide) m n (hm.symm.trans hn)

/-! ## The variables of a context -/

theorem mem_of_lookup {α β : Type} [BEq α] [LawfulBEq α] {l : List (α × β)} {k : α} {b : β}
    (h : l.lookup k = some b) : (k, b) ∈ l := by
  obtain ⟨front, back, rfl, _⟩ := lookup_eq_some_iff.mp h
  exact mem_append_right _ mem_cons_self

/-- Every variable in the context is that of a name given. -/
structure LowerCtx.Named (nodes rels : List String) (accesses : List (String × String))
    (ctx : LowerCtx) : Prop where
  nodeVars : ∀ entry ∈ ctx.nodeVars, entry.2 = ⟨entry.1⟩ ∧ entry.1 ∈ nodes
  relVars : ∀ entry ∈ ctx.relVars, entry.1 ∈ rels ∧ ∀ v, entry.2 = .var v → v = ⟨entry.1⟩
  relEndpoints : ∀ entry ∈ ctx.relEndpoints, entry.1 ∈ rels
  propVars : ∀ entry ∈ ctx.propVars, entry.2 = column entry.1 ∧ entry.1 ∈ accesses
  triples : ∀ tp ∈ ctx.triples, tp.InRoles (EndVar nodes accesses) (PredVar rels)
  paths : ∀ p ∈ ctx.paths, EndVar nodes accesses p.subject ∧ EndVar nodes accesses p.object

section Lowering

variable {validName : String → Bool} {nodes rels : List String} {accesses : List (String × String)}
  {ctx ctx' : LowerCtx} {v : Variable}

theorem LowerCtx.named_new : LowerCtx.new.Named nodes rels accesses where
  nodeVars := nofun
  relVars := nofun
  relEndpoints := nofun
  propVars := nofun
  triples := nofun
  paths := nofun

theorem LowerCtx.Named.addTriples (h : ctx.Named nodes rels accesses) {tps : List TriplePattern}
    (htps : ∀ tp ∈ tps, tp.InRoles (EndVar nodes accesses) (PredVar rels)) :
    (ctx.addTriples tps).Named nodes rels accesses := by
  refine ⟨h.nodeVars, h.relVars, h.relEndpoints, h.propVars, fun tp htp => ?_, h.paths⟩
  rcases mem_append.mp htp with htp | htp
  · exact h.triples tp htp
  · exact htps tp htp

theorem LowerCtx.Named.freshVar (h : ctx.Named nodes rels accesses) (stem : String) :
    (ctx.freshVar stem).2.Named nodes rels accesses :=
  ⟨h.nodeVars, h.relVars, h.relEndpoints, h.propVars, h.triples, h.paths⟩

theorem newVariable_ok (hr : newVariable validName name = .ok v) : v = ⟨name⟩ := by
  unfold newVariable at hr
  split at hr
  · cases hr
    rfl
  · cases hr

theorem nodeVar_named (h : ctx.Named nodes rels accesses) (hname : name ∈ nodes)
    (hr : ctx.nodeVar validName name = .ok (v, ctx')) : v = ⟨name⟩ ∧ ctx'.Named nodes rels accesses := by
  unfold LowerCtx.nodeVar at hr
  split at hr
  · next w hlook =>
    cases hr
    exact ⟨(h.nodeVars _ (mem_of_lookup hlook)).1, h⟩
  · obtain ⟨w, hw, hr⟩ := bind_ok hr
    cases hr
    have hv := newVariable_ok hw
    refine ⟨hv, fun entry hentry => ?_, h.relVars, h.relEndpoints, h.propVars, h.triples, h.paths⟩
    rcases mem_cons.mp hentry with rfl | hentry
    · exact ⟨hv, hname⟩
    · exact h.nodeVars entry hentry

theorem inRoles_property {subject : TermPattern} {entry : String × Literal} {tp : TriplePattern}
    (hvars : ∀ v ∈ subject.vars, EndVar nodes accesses v ∨ PredVar rels v)
    (hsubject : subject.isQuoted = true ∨ ∀ v ∈ subject.vars, EndVar nodes accesses v)
    (hr : propertyTriple subject entry = .ok tp) : tp.InRoles (EndVar nodes accesses) (PredVar rels) := by
  obtain ⟨term, hterm, hr⟩ := bind_ok hr
  obtain ⟨lit, _, hlit⟩ := bind_ok hterm
  cases hlit
  cases hr
  constructor
  · intro v hv
    simp only [TriplePattern.vars, NamedNodePattern.vars, TermPattern.vars, append_nil] at hv
    exact hvars v hv
  · refine hsubject.imp id fun hs => ⟨hs, ?_, ?_⟩
    · exact fun v hv => absurd hv not_mem_nil
    · exact fun v hv => absurd hv not_mem_nil

theorem inRoles_label (hv : EndVar nodes accesses v) (label : String) :
    (labelTriple v label).InRoles (EndVar nodes accesses) (PredVar rels) := by
  constructor
  · intro w hw
    simp only [labelTriple, TriplePattern.vars, NamedNodePattern.vars, TermPattern.vars, append_nil,
      mem_singleton] at hw
    exact .inl (hw ▸ hv)
  · refine .inr ⟨fun w hw => ?_, fun _ h => absurd h not_mem_nil, fun _ h => absurd h not_mem_nil⟩
    rw [mem_singleton.mp hw]
    exact hv

theorem lowerNodePattern_named (h : ctx.Named nodes rels accesses) {node : NodePattern}
    (hname : ∀ name ∈ node.var.toList, name ∈ nodes) (hr : lowerNodePattern validName ctx node = .ok (v, ctx')) :
    EndVar nodes accesses v ∧ ctx'.Named nodes rels accesses := by
  obtain ⟨⟨w, ctx₁⟩, hvar, hr⟩ := bind_ok hr
  obtain ⟨properties, hprops, hr⟩ := bind_ok hr
  cases hr
  have hfirst : EndVar nodes accesses v ∧ ctx₁.Named nodes rels accesses := by
    cases hn : node.var with
    | some name =>
      rw [hn] at hvar
      have hmem := hname name (by rw [hn]; exact mem_singleton_self name)
      obtain ⟨rfl, hctx⟩ := nodeVar_named h hmem hvar
      exact ⟨.inl hmem, hctx⟩
    | none =>
      rw [hn] at hvar
      cases hvar
      exact ⟨.inr (.inr ⟨_, rfl⟩), h.freshVar "node"⟩
  refine ⟨hfirst.1, hfirst.2.addTriples fun tp htp => ?_⟩
  rcases mem_append.mp htp with htp | htp
  · obtain ⟨label, _, rfl⟩ := mem_map.mp htp
    exact inRoles_label hfirst.1 label
  · obtain ⟨entry, _, hentry⟩ := (mapM_ok_inv hprops).2 tp htp
    have hsubject : ∀ w ∈ (TermPattern.var v).vars, EndVar nodes accesses w := by
      intro w hw
      rw [mem_singleton.mp hw]
      exact hfirst.1
    exact inRoles_property (fun w hw => .inl (hsubject w hw)) (.inr hsubject) hentry

theorem orient_role {P : Variable → Prop} {start stop : Variable} (direction : RelDirection) (hstart : P start)
    (hstop : P stop) : P (orient direction start stop).1 ∧ P (orient direction start stop).2 := by
  cases direction with
  | right => exact ⟨hstart, hstop⟩
  | either => exact ⟨hstart, hstop⟩
  | left => exact ⟨hstop, hstart⟩

/-- The predicate of a relationship: its type, its name or a fresh variable. -/
theorem lowerRelPredicate_named (h : ctx.Named nodes rels accesses) {rel : RelPattern}
    (hname : ∀ name ∈ rel.var.toList, name ∈ rels) {predicate : NamedNodePattern}
    (hr : lowerRelPredicate validName ctx rel = .ok (predicate, ctx')) :
    (∀ v ∈ predicate.vars, PredVar rels v) ∧ ctx'.Named nodes rels accesses ∧
      ∀ name ∈ rel.var.toList, ∀ v ∈ predicate.vars, v = ⟨name⟩ := by
  unfold lowerRelPredicate at hr
  split at hr
  · cases hr
    exact ⟨nofun, h, nofun⟩
  · next name _ hvar =>
    obtain ⟨w, hw, hr⟩ := bind_ok hr
    cases hr
    have hv := newVariable_ok hw
    rw [hvar] at hname ⊢
    refine ⟨fun v hmem => ?_, h, fun other hother v hmem => ?_⟩
    · rw [mem_singleton.mp hmem, hv]
      exact .inl (hname name (mem_singleton_self name))
    · rw [mem_singleton.mp hmem, hv, mem_singleton.mp hother]
  · next _ hvar =>
    cases hr
    rw [hvar]
    refine ⟨fun v hmem => ?_, h.freshVar "rel", nofun⟩
    rw [mem_singleton.mp hmem]
    exact .inr ⟨_, rfl⟩

theorem LowerCtx.Named.recordRel (h : ctx.Named nodes rels accesses) {name : Option String}
    (hname : ∀ n ∈ name.toList, n ∈ rels) {predicate : NamedNodePattern}
    (hpred : ∀ n ∈ name.toList, ∀ v ∈ predicate.vars, v = ⟨n⟩) (ends : Variable × Variable) :
    (ctx.recordRel name predicate ends).Named nodes rels accesses := by
  cases name with
  | none => exact h
  | some n =>
    have hn := hname n (mem_singleton_self n)
    refine ⟨h.nodeVars, fun entry hentry => ?_, fun entry hentry => ?_, h.propVars, h.triples, h.paths⟩
    · rcases mem_cons.mp hentry with rfl | hentry
      · refine ⟨hn, fun v hv => ?_⟩
        cases predicate with
        | namedNode p => cases hv
        | var w =>
          cases hv
          exact hpred n (mem_singleton_self n) v (mem_singleton_self v)
      · exact h.relVars entry hentry
    · rcases mem_cons.mp hentry with rfl | hentry
      · exact hn
      · exact h.relEndpoints entry hentry

theorem lowerRelPattern_named (h : ctx.Named nodes rels accesses) {rel : RelPattern}
    (hname : ∀ name ∈ rel.var.toList, name ∈ rels) {start stop : Variable} (hstart : EndVar nodes accesses start)
    (hstop : EndVar nodes accesses stop) (hr : lowerRelPattern validName ctx rel start stop = .ok ctx') :
    ctx'.Named nodes rels accesses := by
  obtain ⟨hs, ho⟩ := orient_role rel.direction hstart hstop
  unfold lowerRelPattern at hr
  generalize orient rel.direction start stop = ends at hr hs ho
  obtain ⟨subject, object⟩ := ends
  dsimp only at hr hs ho
  split at hr
  · obtain ⟨path, _, hr⟩ := bind_ok hr
    cases hr
    refine ⟨h.nodeVars, h.relVars, h.relEndpoints, h.propVars, h.triples, fun p hp => ?_⟩
    rcases mem_append.mp hp with hp | hp
    · exact h.paths p hp
    · rw [mem_singleton.mp hp]
      exact ⟨hs, ho⟩
  · obtain ⟨⟨predicate, ctx₁⟩, hpred, hr⟩ := bind_ok hr
    obtain ⟨annotations, hann, hr⟩ := bind_ok hr
    cases hr
    obtain ⟨hrole, hctx, hsame⟩ := lowerRelPredicate_named h hname hpred
    refine (hctx.recordRel hname hsame (subject, object)).addTriples fun tp htp => ?_
    rcases mem_cons.mp htp with rfl | htp
    · have hends : ∀ {w : Variable}, EndVar nodes accesses w → ∀ v ∈ (TermPattern.var w).vars,
          EndVar nodes accesses v := fun hw v hv => (mem_singleton.mp hv) ▸ hw
      constructor
      · intro v hv
        simp only [TriplePattern.vars, mem_append] at hv
        rcases hv with (hv | hv) | hv
        · exact .inl (hends hs v hv)
        · exact .inr (hrole v hv)
        · exact .inl (hends ho v hv)
      · exact .inr ⟨hends hs, hrole, hends ho⟩
    · obtain ⟨entry, _, hentry⟩ := (mapM_ok_inv hann).2 tp htp
      refine inRoles_property (fun v hv => ?_) (.inl rfl) hentry
      simp only [TermPattern.vars, mem_append, mem_singleton] at hv
      rcases hv with (rfl | hv) | rfl
      · exact .inl hs
      · exact .inr (hrole v hv)
      · exact .inl ho

theorem lowerHops_named : ∀ {hops : List (RelPattern × NodePattern)} {ctx : LowerCtx} {prev : Variable},
    ctx.Named nodes rels accesses → EndVar nodes accesses prev →
    (∀ hop ∈ hops, (∀ name ∈ hop.1.var.toList, name ∈ rels) ∧ ∀ name ∈ hop.2.var.toList, name ∈ nodes) →
    lowerHops validName ctx prev hops = .ok ctx' → ctx'.Named nodes rels accesses := by
  intro hops
  induction hops with
  | nil =>
    intro ctx prev h _ _ hr
    cases hr
    exact h
  | cons hop hops ih =>
    intro ctx prev h hprev hnames hr
    obtain ⟨⟨hrel, hnode⟩, hrest⟩ := forall_mem_cons.mp hnames
    obtain ⟨⟨next, ctx₁⟩, hnext, hr⟩ := bind_ok hr
    obtain ⟨ctx₂, hctx₂, hr⟩ := bind_ok hr
    obtain ⟨hend, h₁⟩ := lowerNodePattern_named h hnode hnext
    exact ih (lowerRelPattern_named h₁ hrel hprev hend hctx₂) hend hrest hr

theorem lowerPattern_named (h : ctx.Named nodes rels accesses) {pattern : Pattern}
    (hnodes : ∀ name ∈ pattern.nodeNames, name ∈ nodes) (hrels : ∀ name ∈ pattern.relNames, name ∈ rels)
    (hr : lowerPattern validName ctx pattern = .ok ctx') : ctx'.Named nodes rels accesses := by
  obtain ⟨⟨prev, ctx₁⟩, hstart, hr⟩ := bind_ok hr
  obtain ⟨hprev, h₁⟩ := lowerNodePattern_named h (fun name hn => hnodes name (mem_append_left _ hn)) hstart
  refine lowerHops_named h₁ hprev (fun hop hhop => ⟨fun name hn => ?_, fun name hn => ?_⟩) hr
  · exact hrels name (mem_flatMap.mpr ⟨hop, hhop, hn⟩)
  · exact hnodes name (mem_append_right _ (mem_flatMap.mpr ⟨hop, hhop, hn⟩))

end Lowering

/-! ## The columns of properties -/

/-- Every column is bound by the triple of its property. -/
def LowerCtx.Columns (ctx : LowerCtx) : Prop :=
  ∀ access c, ctx.propVars.lookup access = some c → c = column access ∧
    ∃ v, ctx.nodeVars.lookup access.1 = some v ∧ columnTriple v access.2 c ∈ ctx.triples

/-- What an expression that makes these accesses does to the context. -/
structure LowerCtx.Reads (accesses : List (String × String)) (ctx ctx' : LowerCtx) : Prop where
  nodeVars : ctx'.nodeVars = ctx.nodeVars
  relVars : ctx'.relVars = ctx.relVars
  relEndpoints : ctx'.relEndpoints = ctx.relEndpoints
  paths : ctx'.paths = ctx.paths
  counter : ctx'.anonCounter = ctx.anonCounter
  propVars : ∀ access c, ctx.propVars.lookup access = some c → ctx'.propVars.lookup access = some c
  known : ∀ access ∈ accesses, (ctx'.propVars.lookup access).isSome = true
  columns : ctx.Columns → ctx'.Columns
  named : ∀ {nodes rels : List String} {all : List (String × String)}, (∀ access ∈ accesses, access ∈ all) →
    ctx.Named nodes rels all → ctx'.Named nodes rels all

namespace LowerCtx.Reads

variable {xs ys : List (String × String)} {ctx ctx₁ ctx₂ : LowerCtx}

theorem refl (ctx : LowerCtx) : Reads [] ctx ctx where
  nodeVars := rfl
  relVars := rfl
  relEndpoints := rfl
  paths := rfl
  counter := rfl
  propVars := fun _ _ h => h
  known := nofun
  columns := fun h => h
  named := fun _ h => h

theorem trans (h : Reads xs ctx ctx₁) (h' : Reads ys ctx₁ ctx₂) : Reads (xs ++ ys) ctx ctx₂ where
  nodeVars := h'.nodeVars.trans h.nodeVars
  relVars := h'.relVars.trans h.relVars
  relEndpoints := h'.relEndpoints.trans h.relEndpoints
  paths := h'.paths.trans h.paths
  counter := h'.counter.trans h.counter
  propVars := fun access c hc => h'.propVars access c (h.propVars access c hc)
  known := by
    intro access hmem
    rcases mem_append.mp hmem with hmem | hmem
    · obtain ⟨c, hc⟩ := Option.isSome_iff_exists.mp (h.known access hmem)
      rw [h'.propVars access c hc]
      rfl
    · exact h'.known access hmem
  columns := fun hc => h'.columns (h.columns hc)
  named := fun hall hn => h'.named (fun a ha => hall a (mem_append_right _ ha))
    (h.named (fun a ha => hall a (mem_append_left _ ha)) hn)

end LowerCtx.Reads

variable {ctx : LowerCtx}

variable {ctx' : LowerCtx} {e : Expression}

/-- A property is read through one variable, made at its first access. -/
theorem lowerPropertyRef_reads {prop : String} (hr : lowerPropertyRef ctx (.var name) prop = .ok (e, ctx')) :
    LowerCtx.Reads [(name, prop)] ctx ctx' := by
  unfold lowerPropertyRef at hr
  dsimp only at hr
  split at hr
  · cases hr
  · split at hr
    · cases hr
    · next v hnode =>
      split at hr
      -- the access was made before
      · next c hknown =>
        cases hr
        refine { LowerCtx.Reads.refl ctx with known := fun access hmem => ?_, named := fun _ h => h }
        rw [mem_singleton.mp hmem, hknown]
        rfl
      · next hnew =>
        cases hr
        refine ⟨rfl, rfl, rfl, rfl, rfl, ?_, ?_, ?_, ?_⟩
        · intro access c hc
          have hne : access ≠ (name, prop) := by
            rintro rfl
            rw [hnew] at hc
            cases hc
          rw [lookup_cons, show (access == (name, prop)) = false from by simpa using hne]
          exact hc
        · intro access hmem
          rw [mem_singleton.mp hmem, lookup_cons_self]
          rfl
        · intro hcols access c hc
          rw [lookup_cons] at hc
          split at hc
          · next heq =>
            cases hc
            rw [eq_of_beq heq]
            exact ⟨rfl, v, hnode, mem_append_right _ (mem_singleton_self _)⟩
          · obtain ⟨hcol, w, hw, hmem⟩ := hcols access c hc
            exact ⟨hcol, w, hw, mem_append_left _ hmem⟩
        · intro nodes rels all hall h
          have haccess := hall (name, prop) (mem_singleton_self _)
          have hv : EndVar nodes all v := by
            obtain ⟨hname, hmem⟩ := h.nodeVars _ (mem_of_lookup hnode)
            exact .inl ((congrArg Variable.name hname) ▸ hmem)
          have hcol : EndVar nodes all ⟨columnName name prop⟩ := .inr (.inl ⟨(name, prop), haccess, rfl⟩)
          have hends : ∀ w ∈ (TermPattern.var v).vars ++ (TermPattern.var ⟨columnName name prop⟩).vars,
              EndVar nodes all w := by
            intro w hw
            rcases mem_append.mp hw with hw | hw
            · exact (mem_singleton.mp hw) ▸ hv
            · exact (mem_singleton.mp hw) ▸ hcol
          have htps : ∀ tp ∈ [columnTriple v prop ⟨columnName name prop⟩],
              tp.InRoles (EndVar nodes all) (PredVar rels) := by
            intro tp htp
            rw [mem_singleton.mp htp]
            refine ⟨fun w hw => .inl (hends w ?_), .inr ⟨fun w hw => hends w (mem_append_left _ hw),
              nofun, fun w hw => hends w (mem_append_right _ hw)⟩⟩
            simpa [columnTriple, TriplePattern.vars, NamedNodePattern.vars] using hw
          have hctx := h.addTriples htps
          refine ⟨hctx.nodeVars, hctx.relVars, hctx.relEndpoints, fun entry hentry => ?_, hctx.triples, hctx.paths⟩
          rcases mem_cons.mp hentry with rfl | hentry
          · exact ⟨rfl, haccess⟩
          · exact h.propVars entry hentry

theorem lowerBoth_ok {combine : Expression → Expression → Expression}
    {l r : LowerCtx → Except String (Expression × LowerCtx)} (h : lowerBoth combine l r ctx = .ok (e, ctx')) :
    ∃ a ctx₁ b, l ctx = .ok (a, ctx₁) ∧ r ctx₁ = .ok (b, ctx') ∧ e = combine a b := by
  obtain ⟨⟨a, ctx₁⟩, ha, h⟩ := bind_ok h
  obtain ⟨⟨b, ctx₂⟩, hb, h⟩ := bind_ok h
  cases h
  exact ⟨a, ctx₁, b, ha, hb, rfl⟩

theorem lowerOne_ok {wrap : Expression → Expression} {inner : LowerCtx → Except String (Expression × LowerCtx)}
    (h : lowerOne wrap inner ctx = .ok (e, ctx')) : ∃ a, inner ctx = .ok (a, ctx') ∧ e = wrap a := by
  obtain ⟨⟨a, ctx₁⟩, ha, h⟩ := bind_ok h
  cases h
  exact ⟨a, ha, rfl⟩

/-- The accesses of an expression are those of its parts. -/
theorem lowerExpr_reads (e : Expr) : ∀ {ctx ctx' : LowerCtx} {lowered : Expression},
    lowerExpr e ctx = .ok (lowered, ctx') → LowerCtx.Reads e.accesses ctx ctx' := by
  have hboth : ∀ {combine : Expression → Expression → Expression} {l r : Expr},
      (∀ {ctx ctx' lowered}, lowerExpr l ctx = .ok (lowered, ctx') → LowerCtx.Reads l.accesses ctx ctx') →
      (∀ {ctx ctx' lowered}, lowerExpr r ctx = .ok (lowered, ctx') → LowerCtx.Reads r.accesses ctx ctx') →
      ∀ {ctx ctx' lowered}, lowerBoth combine (lowerExpr l) (lowerExpr r) ctx = .ok (lowered, ctx') →
        LowerCtx.Reads (l.accesses ++ r.accesses) ctx ctx' := by
    intro combine l r hl hr ctx ctx' lowered h
    obtain ⟨a, ctx₁, b, ha, hb, _⟩ := lowerBoth_ok h
    exact (hl ha).trans (hr hb)
  induction e with
  | var name =>
    intro ctx ctx' lowered h
    obtain ⟨_, _, h⟩ := bind_ok h
    cases h
    exact .refl ctx
  | property base prop _ =>
    intro ctx ctx' lowered h
    cases base with
    | var name => exact lowerPropertyRef_reads h
    | _ => cases h
  | literal lit =>
    intro ctx ctx' lowered h
    obtain ⟨_, _, h⟩ := bind_ok h
    cases h
    exact .refl ctx
  | not inner ih =>
    intro ctx ctx' lowered h
    obtain ⟨a, ha, _⟩ := lowerOne_ok h
    exact ih ha
  | neg inner ih =>
    intro ctx ctx' lowered h
    obtain ⟨a, ha, _⟩ := lowerOne_ok h
    exact ih ha
  | and l r ihl ihr => exact fun h => hboth ihl ihr h
  | or l r ihl ihr => exact fun h => hboth ihl ihr h
  | eq l r ihl ihr => exact fun h => hboth ihl ihr h
  | ne l r ihl ihr => exact fun h => hboth ihl ihr h
  | lt l r ihl ihr => exact fun h => hboth ihl ihr h
  | le l r ihl ihr => exact fun h => hboth ihl ihr h
  | gt l r ihl ihr => exact fun h => hboth ihl ihr h
  | ge l r ihl ihr => exact fun h => hboth ihl ihr h
  | add l r ihl ihr => exact fun h => hboth ihl ihr h
  | sub l r ihl ihr => exact fun h => hboth ihl ihr h
  | mul l r ihl ihr => exact fun h => hboth ihl ihr h
  | div l r ihl ihr => exact fun h => hboth ihl ihr h

/-! ## After MATCH and WHERE -/

/-- `WHERE` is absent, or lowered in a context whose columns are bound. -/
inductive LoweredWhere (ctx : LowerCtx) : Option Expr → Option Expression → Prop where
  | none : LoweredWhere ctx none none
  | some {e : Expr} {lowered : Expression} {before : LowerCtx} (hr : lowerExpr e before = .ok (lowered, ctx))
      (hcolumns : before.Columns) : LoweredWhere ctx (some e) (some lowered)

/-- What holds of the context in which the write clauses are lowered. -/
structure Matched (stmt : CypherStatement) (base : GraphPattern) (ctx : LowerCtx) : Prop where
  named : ctx.Named stmt.nodeNames stmt.relNames stmt.whereAccesses
  columns : ctx.Columns
  known : ∀ access ∈ stmt.whereAccesses, (ctx.propVars.lookup access).isSome = true
  base : ∃ whereExpr, LoweredWhere ctx stmt.whereExpr whereExpr ∧ base = filtered whereExpr ctx.joined

theorem lowerMatch_matched {validName : String → Bool} {stmt : CypherStatement} {base : GraphPattern}
    (hr : lowerMatch validName stmt = .ok (base, ctx)) : Matched stmt base ctx := by
  obtain ⟨ctx₁, hpattern, hr⟩ := bind_ok hr
  obtain ⟨⟨whereExpr, ctx₂⟩, hwhere, hr⟩ := bind_ok hr
  cases hr
  have hnamed : ∀ accesses, ctx₁.Named stmt.nodeNames stmt.relNames accesses := by
    intro accesses
    unfold CypherStatement.nodeNames CypherStatement.relNames
    cases hp : stmt.pattern with
    | none =>
      rw [hp] at hpattern
      cases hpattern
      exact LowerCtx.named_new
    | some pattern =>
      rw [hp] at hpattern
      exact lowerPattern_named LowerCtx.named_new (fun _ h => h) (fun _ h => h) hpattern
  -- a pattern alone has no columns
  have hcolumns : ctx₁.Columns := fun access c hc =>
    absurd ((hnamed []).propVars _ (mem_of_lookup hc)).2 not_mem_nil
  cases hw : stmt.whereExpr with
  | none =>
    rw [hw] at hwhere
    cases hwhere
    refine ⟨hnamed _, hcolumns, fun access h => ?_, none, ?_, rfl⟩
    · rw [CypherStatement.whereAccesses, hw] at h
      exact absurd h not_mem_nil
    · rw [hw]
      exact .none
  | some e =>
    rw [hw] at hwhere
    obtain ⟨⟨lowered, ctx₃⟩, he, hwhere⟩ := bind_ok hwhere
    cases hwhere
    have hreads := lowerExpr_reads e he
    refine ⟨?_, hreads.columns hcolumns, ?_, some lowered, ?_, rfl⟩
    · rw [CypherStatement.whereAccesses, hw]
      exact hreads.named (fun _ h => h) (hnamed _)
    · rw [CypherStatement.whereAccesses, hw]
      exact hreads.known
    · rw [hw]
      exact .some he hcolumns

end Cypher

end Nova
